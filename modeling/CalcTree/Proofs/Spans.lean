import CalcTree.Proofs.Damage

/-!
# Spans

The places of the nodes of a document fit each other and their source
(`Document.positions_consistent`). A node below the root starts where its first child starts and
ends where its last child ends, since a tree that is laid out shows nodes from its first byte to its
last (`Built.span_display`). All places lie between characters of the source, and have the row and
column that can be counted off the bytes before them.
-/

namespace CalcTree

namespace Extent

theorem bytes_ofChars (text : List Char) :
    (ofChars text).bytes = (String.ofList text).utf8ByteSize := by
  rw [ofChars_eq_ofBytes, ofBytes, String.utf8ByteSize, String.toByteArray_ofList, List.utf8Encode]
  simp

/-- A place in a text is between two of its characters, or at one of its ends. -/
theorem IsIn.isValid {source : String} {e : Extent} (h : IsIn source.toList e) :
    String.Pos.Raw.IsValid source ⟨e.bytes⟩ := by
  obtain ⟨pre, ⟨rest, hrest⟩, rfl⟩ := h
  refine String.Pos.Raw.isValid_iff_exists_append.2 ⟨.ofList pre, .ofList rest, ?_, ?_⟩
  · rw [← String.ofList_append, hrest, String.ofList_toList]
  · rw [bytes_ofChars]
    rfl

end Extent

namespace Node

/-- Whether nodes in a row start and end at these places. -/
def Span (start stop : Extent) (ns : List Node) : Prop :=
  ns.head?.map Node.start = some start ∧ ns.getLast?.map Node.stop = some stop

variable {ns ms : List Node} {a b c d : Extent}

theorem Span.ne_nil (h : Span a b ns) : ns ≠ [] := by
  rintro rfl
  cases h.1

theorem Span.append (h : Span a b ns) (h' : Span c d ms) : Span a d (ns ++ ms) := by
  constructor
  · rw [List.head?_append_of_ne_nil _ h.ne_nil]
    exact h.1
  · rw [List.getLast?_append_of_ne_nil _ h'.ne_nil]
    exact h'.2

theorem span_layoutAll {cs : List Tree} (hne : cs ≠ [])
    (h : ∀ c ∈ cs, ∀ place field, Span (place + c.pad) (place + c.reach) (display place field c))
    (roles : Nat → Option Field) (inherited : Option Field) : ∀ (i : Nat) (place : Extent),
    Span (place + Tree.padAll cs) (place + Tree.reachAll cs)
      (layoutAll roles inherited i place cs).1 := by
  induction cs with
  | nil => exact absurd rfl hne
  | cons c cs ih =>
    intro i place
    have hfirst := h c (by simp) place (fieldOf roles inherited i c)
    rw [layoutAll_cons, Tree.padAll, Tree.reachAll, ← Tree.reach]
    rcases cs with _ | ⟨c', cs⟩
    · rw [layoutAll_nil, List.append_nil, Tree.reachAll, Extent.add_zero']
      exact hfirst
    · rw [← Extent.add_assoc']
      exact hfirst.append (ih (by simp) (fun d hd => h d (by simp [hd])) _ _)

theorem span_under_of {t : Tree} (hne : t.children ≠ []) (h : ∀ c ∈ t.children, ∀ place field,
      Span (place + c.pad) (place + c.reach) (display place field c))
    (place : Extent) (inherited : Option Field) :
    Span (place + t.pad) (place + t.reach) (under place inherited t) := by
  have hspan := span_layoutAll hne h t.roles inherited 0 place
  cases t with
  | leaf | missing | finish => exact absurd rfl hne
  | node | error | skipped =>
    rw [Tree.reach, Tree.pad, Tree.size, Tree.reachAll_eq]
    exact hspan

end Node

namespace Tree

variable {t : Tree}

theorem reachAll_append (ts us : List Tree) : reachAll (ts ++ us) = reachAll ts + reachAll us := by
  induction ts with
  | nil => simp [reachAll]
  | cons t ts ih => simp [reachAll, ih, Extent.add_assoc']

theorem span_display_of {place : Extent} {field : Option Field} (h : t.isVisible = false →
      Node.Span (place + t.pad) (place + t.reach) (Node.under place field t)) :
    Node.Span (place + t.pad) (place + t.reach) (Node.display place field t) := by
  unfold Node.display
  split_ifs with hv
  · exact ⟨rfl, rfl⟩
  · exact h (by simpa using hv)

/-- What is shown of a tree reaches from its first byte to its last. -/
theorem Built.span_display (h : t.Built) (hf : ¬ t.IsFile) : ∀ place field,
    Node.Span (place + t.pad) (place + t.reach) (Node.display place field t) := by
  induction h with
  | leaf l =>
    refine fun place field => span_display_of fun hv => ?_
    rcases hk : l.kind <;> simp [isVisible, kind, hk, Kind.isVisible] at hv
  | missing a ha => exact fun place field => ⟨rfl, rfl⟩
  | node p cs hp hcs ih =>
    have hlhs : p.lhs ≠ .sourceFile := by simpa [IsFile, symbol?] using hf
    refine fun place field => span_display_of fun _ => ?_
    exact Node.span_under_of (t := .node p cs) (children_ne_nil hp hlhs)
      (fun c hc => ih c hc (Tree.not_isFile_of_mem hp hc)) place field
  | error cs hne hcs hfile ih => exact fun place field => ⟨rfl, rfl⟩
  | skipped cs hne hcs hfile ih =>
    refine fun place field => span_display_of fun _ => ?_
    exact Node.span_under_of (t := .skipped cs) hne (fun c hc => ih c hc (hfile c hc)) place
      field

theorem Built.span_under (h : t.Built) (hne : t.children ≠ []) (place : Extent)
    (inherited : Option Field) :
    Node.Span (place + t.pad) (place + t.reach) (Node.under place inherited t) :=
  Node.span_under_of hne (fun _ hc => (h.of_mem hc).span_display (h.not_isFile_of_mem hc)) place
    inherited

end Tree

/-! ## Whole trees -/

namespace Node

variable {t : Tree} {input : Scan} {m : Node}

/-- The nodes below the root are visible trees below the whole tree, where they lie. -/
theorem exists_of_mem_tail (h : t.Whole input) (hm : m ∈ (root t).nodes.tail) :
    ∃ u p f, u.isVisible ∧ m = shownAt p f u ∧ u.Built ∧ ¬ u.IsFile ∧ ∃ ls ms,
      input.lexemes = ls ++ u.leaves ++ ms ∧ p = Lexeme.reachAll ls := by
  rw [nodes_eq, List.tail_cons, root_eq] at hm
  obtain ⟨n, hn, hm⟩ := List.mem_flatMap.1 hm
  obtain ⟨before, c, after, f, hc, hn⟩ := exists_of_mem_layoutAll hn
  obtain ⟨u, p, g, hu, hv, rfl⟩ := exists_lies_of_mem (List.mem_flatMap.2 ⟨n, hn, hm⟩)
  rcases h.lies_below hc hu with ⟨blank, rfl⟩ | hbuilt
  · cases hv
  · exact ⟨u, p, g, hv, rfl, hbuilt⟩

theorem root_or_mem_tail (hm : m ∈ (root t).nodes) : m = root t ∨ m ∈ (root t).nodes.tail := by
  rw [nodes_eq] at hm ⊢
  exact List.mem_cons.1 hm

/-- The root ends where the source does. -/
theorem stop_root {source : List Char} (h : t.Whole (.ofChars source)) :
    (root t).stop = .ofChars source := by
  obtain ⟨cs, hcs, hb, hl⟩ := h.exists_children
  have hreach : t.reach = Tree.reachAll t.children := by
    cases h <;> rw [Tree.reach, Tree.pad, Tree.size, Tree.reachAll_eq, Tree.children]
  have hfinish : ∀ blank, Tree.reachAll [.finish blank] = .ofChars blank := by
    simp [Tree.reachAll, Tree.pad, Tree.size]
  rw [root_eq]
  show 0 + t.reach = _
  rw [Extent.zero_add', hreach, hcs, Tree.reachAll_append, Tree.reachAll_of_built hb, hl, hfinish,
    Scan.reach_ofChars]

theorem isIn_stop {source : List Char} (h : t.Whole (.ofChars source))
    (hm : m ∈ (root t).nodes) : m.stop.IsIn source := by
  rcases root_or_mem_tail hm with rfl | hm
  · rw [stop_root h]
    exact ⟨source, List.prefix_rfl, rfl⟩
  · obtain ⟨u, p, f, -, rfl, hb, -, ls, ms, hl, rfl⟩ := exists_of_mem_tail h hm
    show (Lexeme.reachAll ls + u.reach).IsIn source
    rw [hb.reach_eq, ← Lexeme.reachAll_append]
    exact Scan.isIn_reachAll hl

theorem span_children (h : t.Whole input) (hm : m ∈ (root t).nodes.tail) (hne : m.children ≠ []) :
    Span m.start m.stop m.children := by
  obtain ⟨u, p, f, -, rfl, hb, -⟩ := exists_of_mem_tail h hm
  refine hb.span_under (fun hnil => hne ?_) p none
  show (layoutAll _ _ _ _ u.children).1 = []
  rw [hnil, layoutAll_nil]

end Node

/-- The nodes of a document are laid out in its source, one inside the other. -/
theorem Document.positions_consistent {source : String} {d : Document}
    (h : (parse source).value = .ok d) :
    (∀ n ∈ d.root.nodes, n.start.bytes ≤ n.stop.bytes ∧ n.stop.bytes ≤ source.utf8ByteSize ∧
      (n.children.Pairwise fun a b => a.stop.bytes ≤ b.start.bytes) ∧
      (n.isMissing → n.start = n.stop) ∧
      ∀ e ∈ [n.start, n.stop], String.Pos.Raw.IsValid source ⟨e.bytes⟩ ∧
        e = .ofBytes (source.toUTF8.data.toList.take e.bytes)) ∧
    (∀ n ∈ d.root.nodes.tail, ∀ hne : n.children ≠ [],
      (n.children.head hne).start = n.start ∧ (n.children.getLast hne).stop = n.stop) ∧
    d.root.stop.bytes = source.utf8ByteSize := by
  obtain ⟨t, -, hroot, hwhole⟩ := whole_of_parse h
  have hend : d.root.stop.bytes = source.utf8ByteSize := by
    rw [hroot, Node.stop_root hwhole, Extent.bytes_ofChars, String.ofList_toList]
  refine ⟨fun n hn => ?_, fun n hn hne => ?_, hend⟩
  · rw [hroot] at hn
    have hrow := Node.nested_root hwhole n hn
    have hplace : ∀ e ∈ [n.start, n.stop], e.IsIn source.toList := by
      simpa using ⟨Node.isIn_of_mem_root hwhole hn, Node.isIn_stop hwhole hn⟩
    refine ⟨hrow.le, ?_, hrow.pairwise, ?_, fun e he => ?_⟩
    · exact (hplace n.stop (by simp)).isValid.le_rawEndPos
    · intro hmissing
      obtain ⟨u, p, f, -, -, rfl⟩ := Node.exists_of_mem_root hwhole hn
      obtain ⟨a, rfl⟩ := Tree.isMissing_shownAt.1 hmissing
      simp [Node.shownAt, Node.ofTree, Tree.reach, Tree.size]
    · exact ⟨(hplace e he).isValid, (hplace e he).eq_ofBytes⟩
  · obtain ⟨hfirst, hlast⟩ := Node.span_children hwhole (hroot ▸ hn) hne
    rw [List.head?_eq_some_head hne, Option.map_some, Option.some.injEq] at hfirst
    rw [List.getLast?_eq_some_getLast hne, Option.map_some, Option.some.injEq] at hlast
    exact ⟨hfirst, hlast⟩

theorem Document.positions_of_unfinished_sum : ∃ d, (parse "\\é\n1+").value = .ok d ∧
    d.root.stop.bytes = "\\é\n1+".utf8ByteSize ∧ (∃ n ∈ d.root.nodes, n.isMissing) ∧
    ∀ n ∈ d.root.nodes, (n.isMissing → n.start = n.stop) ∧
      n.stop = .ofBytes ("\\é\n1+".toUTF8.data.toList.take n.stop.bytes) := by
  obtain ⟨d, h, hmissing⟩ := exists_of_within 1000 "\\é\n1+"
    (fun d => ∃ n ∈ d.root.nodes, n.isMissing) (by decide +kernel)
  obtain ⟨hnodes, -, hend⟩ := positions_consistent h
  refine ⟨d, h, hend, hmissing, fun n hn => ?_⟩
  obtain ⟨-, -, -, hplace, hbytes⟩ := hnodes n hn
  exact ⟨hplace, (hbytes n.stop (by simp)).2⟩

end CalcTree
