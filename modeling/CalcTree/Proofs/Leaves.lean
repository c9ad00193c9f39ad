import CalcTree.Proofs.Layout
import CalcTree.Proofs.Round

/-!
# The leaves of a parse are the tokens of its source

However damaged a source is, the leaves of its tree that are not made up are its tokens, in order
and in their places (`Document.leaves_eq_tokens`). So recovery loses nothing of a source, and shows
nothing twice.
-/

namespace CalcTree

namespace Node

/-! ## Nodes in order -/

/-- The nodes below a node that have none below them. -/
def leaves (n : Node) : List Node :=
  n.nodes.tail.filter fun n => n.children.isEmpty

/-- A node as a token. -/
def token (n : Node) : Token :=
  ⟨n.kind, n.start.bytes, n.stop.bytes⟩

/-- The tokens that nodes end in, without those made up. -/
def ends (ns : List Node) : List Token :=
  ((ns.flatMap nodes).filter fun n => n.children.isEmpty && !n.isMissing).map token

theorem ends_append (ns ms : List Node) : ends (ns ++ ms) = ends ns ++ ends ms := by
  simp [ends]

theorem ends_singleton_of_ne_nil {n : Node} (h : n.children ≠ []) :
    ends [n] = ends n.children := by
  simp [ends, nodes_eq n, h]

theorem ends_singleton_of_eq_nil {n : Node} (h : n.children = []) :
    ends [n] = if n.isMissing then [] else [n.token] := by
  cases hm : n.isMissing <;> simp [ends, nodes_eq n, h, hm]

theorem ends_children (n : Node) :
    ends n.children = (n.leaves.filter (!·.isMissing)).map token := by
  rw [ends, leaves, nodes_eq n, List.tail_cons, List.filter_filter]
  simp only [Bool.and_comm]

/-! ## Leaves of trees -/

theorem ends_layoutAll {cs : List Tree} (hb : ∀ c ∈ cs, c.Built)
    (h : ∀ c ∈ cs, ∀ place field, ends (display place field c) =
      Token.layout place.bytes c.leaves)
    (roles : Nat → Option Field) (inherited : Option Field) : ∀ (i : Nat) (place : Extent),
    ends (layoutAll roles inherited i place cs).1 =
      Token.layout place.bytes (Tree.leavesAll cs) := by
  induction cs with
  | nil =>
    intro i place
    rfl
  | cons c cs ih =>
    intro i place
    have ih' := ih (fun d hd => hb d (by simp [hd])) fun d hd => h d (by simp [hd])
    rw [layoutAll_cons, ends_append, h c (by simp), ih', Tree.leavesAll, Token.layout_append,
      (hb c (by simp)).reach_eq, Extent.bytes_add]

/-- What is shown of a tree with children ends where they do. -/
theorem ends_display {t : Tree} (h : ∀ inherited place, ends (under place inherited t) =
      Token.layout place.bytes t.leaves)
    (hne : ∀ inherited place, under place inherited t ≠ []) (place : Extent)
    (field : Option Field) :
    ends (display place field t) = Token.layout place.bytes t.leaves := by
  unfold display
  split_ifs
  · rw [ends_singleton_of_ne_nil (hne none place)]
    exact h none place
  · exact h field place

theorem ends_display_of_built {t : Tree} (hb : t.Built) (hf : ¬ t.IsFile) :
    ∀ place field, ends (display place field t) = Token.layout place.bytes t.leaves := by
  induction hb with
  | leaf l =>
    intro place field
    have hv : (Tree.leaf l).isVisible = true := by
      rcases hk : l.kind <;> simp [Tree.isVisible, Tree.kind, hk, Kind.isVisible]
    rw [display, if_pos hv, ends_singleton_of_eq_nil rfl]
    rfl
  | missing t ht =>
    intro place field
    rw [display, if_pos (by rfl), ends_singleton_of_eq_nil rfl]
    rfl
  | node p cs hp hcs ih =>
    have hfile : ∀ c ∈ cs, ¬ c.IsFile := fun c hc => Tree.not_isFile_of_mem hp hc
    have hlhs : p.lhs ≠ .sourceFile := by simpa [Tree.IsFile, Tree.symbol?] using hf
    refine ends_display (fun inherited place => ?_) fun inherited place => ?_
    · exact ends_layoutAll hcs (fun c hc => ih c hc (hfile c hc)) _ _ _ _
    · exact layoutAll_ne_nil (Tree.children_ne_nil hp hlhs)
        fun c hc => (hcs c hc).display_ne_nil (hfile c hc)
  | error cs hne hcs hfile ih | skipped cs hne hcs hfile ih =>
    refine ends_display (fun inherited place => ?_) fun inherited place => ?_
    · exact ends_layoutAll hcs (fun c hc => ih c hc (hfile c hc)) _ _ _ _
    · exact layoutAll_ne_nil hne fun c hc => (hcs c hc).display_ne_nil (hfile c hc)

/-- The end of the source adds nothing to what is shown. -/
theorem ends_layoutAll_finish {cs : List Tree} (hb : ∀ c ∈ cs, c.Built)
    (hf : ∀ c ∈ cs, ¬ c.IsFile) (roles : Nat → Option Field) (blank : List Char) :
    ends (layoutAll roles none 0 0 (cs ++ [.finish blank])).1 =
      Token.layout 0 (Tree.leavesAll cs) := by
  rw [layoutAll_append, layoutAll_cons, display_finish, layoutAll_nil, List.append_nil,
    List.append_nil]
  exact ends_layoutAll hb (fun c hc => ends_display_of_built (hb c hc) (hf c hc)) _ _ _ _

theorem ends_root {t : Tree} {input : Scan} (h : t.Whole input) :
    ends (root t).children = input.tokens := by
  rw [root_eq]
  cases h with
  | file p cs hp hb hl =>
    rw [Scan.tokens, ← hl]
    cases hb with
    | node _ _ hparts hcs =>
      exact ends_layoutAll_finish hcs (fun c hc => Tree.not_isFile_of_mem hparts hc) _ _
  | lost ts hbuilt hfile hl =>
    rw [Scan.tokens, ← hl]
    exact ends_layoutAll_finish hbuilt hfile _ _

end Node

/-- The leaves of a document that are not made up are the tokens of its source. Every byte lies in
exactly one of them, or in none: then it is of a blank, or of a byte order mark at the start. -/
theorem Document.leaves_eq_tokens {source : String} {d : Document}
    (h : (Document.parse source).value = .ok d) :
    (d.root.leaves.filter (!·.isMissing)).map Node.token =
        (Scan.ofChars source.toList).tokens ∧
      ∀ pre c post k, source.toList = pre ++ c :: post → k < c.utf8Size →
        let count := ((d.root.leaves.filter (!·.isMissing)).map Node.token).countP
          (Token.covers ((Extent.ofChars pre).bytes + k))
        count = 1 ∨ count = 0 ∧ (Lexeme.isBlank c ∨ pre = [] ∧ c = Lexeme.byteOrderMark) := by
  obtain ⟨t, -, hroot, hwhole⟩ := whole_of_parse h
  have htokens : (d.root.leaves.filter (!·.isMissing)).map Node.token =
      (Scan.ofChars source.toList).tokens := by
    rw [← Node.ends_children, hroot, Node.ends_root hwhole]
  refine ⟨htokens, fun pre c post k hsource hk => ?_⟩
  rw [htokens]
  exact Scan.covered_once hsource hk

theorem Document.leaves_of_unfinished_sum : ∃ d, (Document.parse "1+").value = .ok d ∧
    (d.root.leaves.filter (!·.isMissing)).map Node.token =
      [⟨.terminal .number, 0, 1⟩, ⟨.terminal .plus, 1, 2⟩] := by
  obtain ⟨d, h⟩ := Document.exists_of_isSome 1000 "1+" (by decide +kernel)
  exact ⟨d, h, (Document.leaves_eq_tokens h).1.trans (by decide +kernel)⟩

end CalcTree
