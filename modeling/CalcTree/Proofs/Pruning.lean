import CalcTree.Proofs.Acceptance
import CalcTree.Proofs.Damage

/-!
# What is not damaged need not be searched

A node counts as damaged exactly if there is a scar in it: a missing token, or text that does not
fit and is made of parts (`Node.isDamaged_iff`). A run of unknown characters is no scar, though it
is shown as an error too; it costs nothing before it stands in such text. So damage shows in all
nodes around it, and a search that passes by nodes without damage finds every missing token and
comes back to the root (`Document.pruned_search`).

Input that was passed over is the one thing whose cost is not added up. It stands in error nodes
only, which are scars themselves.
-/

namespace CalcTree

namespace Tree

variable {t u v : Tree} {p q place : Extent} {input : Scan}

/-- Whether a tree is damage by itself. -/
def IsScar (t : Tree) : Prop :=
  (∃ a, t = .missing a) ∨ ∃ extra cs, t = .error extra cs

theorem IsScar.isDamaged (h : t.IsScar) : t.isDamaged := by
  rcases h with ⟨a, rfl⟩ | ⟨extra, cs, rfl⟩ <;> rfl

theorem IsScar.isVisible (h : t.IsScar) : t.isVisible := by
  rcases h with ⟨a, rfl⟩ | ⟨extra, cs, rfl⟩ <;> rfl

theorem not_isScar_node (q : Production) (cs : List Tree) : ¬ (Tree.node q cs).IsScar := by
  rintro (⟨a, h⟩ | ⟨extra, ds, h⟩) <;> cases h

theorem Lies.trans (h : v.Lies q u p) (h' : u.Lies p t place) : v.Lies q t place := by
  induction h' with
  | self => exact h
  | child before after hc _ ih => exact .child before after hc ih

/-- Damage comes from a scar. -/
theorem Built.exists_scar (h : t.Built) (hk : t.kind ≠ .skipped) (hd : t.isDamaged)
    (place : Extent) : ∃ (u : Tree) (p : Extent), u.Lies p t place ∧ u.IsScar := by
  induction h generalizing place with
  | leaf l => cases hd
  | missing a _ => exact ⟨_, place, .self, .inl ⟨a, rfl⟩⟩
  | node q cs hp hcs ih =>
    have hks : ∀ c ∈ cs, c.kind ≠ .skipped := fun c hc => kind_ne_skipped hp hc
    obtain ⟨c, hc, hdc⟩ := (anyDamaged_iff_exists hks).1 hd
    obtain ⟨before, after, rfl⟩ := List.append_of_mem hc
    obtain ⟨u, p, hu, hscar⟩ := ih c hc (hks c hc) hdc (place + reachAll before)
    exact ⟨u, p, .child before after rfl hu, hscar⟩
  | error cs => exact ⟨_, place, .self, .inr ⟨true, cs, rfl⟩⟩
  | skipped cs => exact absurd rfl hk

theorem Whole.exists_scar (h : t.Whole input) (hd : t.isDamaged) :
    ∃ (u : Tree) (p : Extent), u.Lies p t 0 ∧ u.IsScar := by
  cases h with
  | lost ts => exact ⟨_, 0, .self, .inr ⟨false, _, rfl⟩⟩
  | file q cs hq hb hl =>
    -- The end of the source is never damaged.
    have hnode : (Tree.node q cs).isDamaged := by
      simpa [Tree.isDamaged, anyDamaged_append, anyDamaged] using hd
    obtain ⟨u, p, hu, hscar⟩ := hb.exists_scar (by simp [kind]) hnode 0
    cases hu with
    | self => exact absurd hscar (not_isScar_node q cs)
    | @child _ c _ before after hc hu =>
      have hcs : cs = before ++ c :: after := hc
      refine ⟨u, p, .child before (after ++ [.finish input.trailing]) ?_ hu, hscar⟩
      simp [children, hcs]

theorem eq_of_kind_error (h : t.kind = .error) :
    (∃ l, t = .leaf l) ∨ ∃ extra cs, t = .error extra cs := by
  cases t with
  | leaf l => exact .inl ⟨l, rfl⟩
  | error extra cs => exact .inr ⟨extra, cs, rfl⟩
  | missing | finish | node | skipped => simp [kind] at h

end Tree

namespace Node

variable {t u : Tree} {p : Extent} {f : Option Field} {input : Scan} {m : Node}

/-- Whether a node is damage by itself. -/
def IsScar (n : Node) : Prop :=
  n.isMissing ∨ n.isError ∧ n.children ≠ []

theorem isScar_of_shownAt (h : (shownAt p f u).IsScar) : u.IsScar := by
  rcases h with hmissing | ⟨herror, hne⟩
  · exact .inl (Tree.isMissing_shownAt.1 hmissing)
  · have hkind : u.kind = .error := beq_iff_eq.1 herror
    rcases Tree.eq_of_kind_error hkind with ⟨l, rfl⟩ | h
    · exact absurd rfl hne
    · exact .inr h

theorem isScar_shownAt (h : u.IsScar)
    (hne : ∀ extra cs, u = .error extra cs → under p none u ≠ []) : (shownAt p f u).IsScar := by
  rcases h with ⟨a, rfl⟩ | ⟨extra, cs, rfl⟩
  · exact .inl rfl
  · exact .inr ⟨rfl, hne extra cs rfl⟩

/-- An error node shows what is in it. -/
theorem under_ne_nil {extra : Bool} {cs : List Tree} (h : (Tree.error extra cs).Built) :
    under p none (.error extra cs) ≠ [] := by
  cases h with
  | error _ hne hcs hfile =>
    exact layoutAll_ne_nil hne fun c hc => (hcs c hc).display_ne_nil (hfile c hc)

/-- So does a root that is one, if there is anything in it. -/
theorem under_root_ne_nil {extra : Bool} {cs : List Tree}
    (h : (Tree.error extra cs).Whole input) (hne : input.lexemes ≠ []) :
    under p none (.error extra cs) ≠ [] := by
  cases h with
  | lost ts hbuilt hfile hl =>
    have hts : ts ≠ [] := by
      rintro rfl
      exact hne hl.symm
    have hshown : (layoutAll (Tree.roles (.error false (ts ++ [.finish input.trailing]))) none 0 p
        ts).1 ≠ [] := layoutAll_ne_nil hts fun c hc => (hbuilt c hc).display_ne_nil (hfile c hc)
    rw [under, Tree.children, layoutAll_append]
    exact fun hnil => hshown (List.append_eq_nil_iff.1 hnil).1

/-- A node is damaged exactly if there is a scar in it. -/
theorem isDamaged_iff (h : t.Whole input) (hne : t.IsScar → input.lexemes ≠ [])
    (hm : m ∈ (root t).nodes) : m.isDamaged ↔ ∃ k ∈ m.nodes, k.IsScar := by
  obtain ⟨u, p, f, hu, hv, rfl⟩ := exists_of_mem_root h hm
  rw [nodes_shownAt hv]
  constructor
  · intro hd
    obtain ⟨v, q, hvu, hscar⟩ : ∃ (v : Tree) (q : Extent), v.Lies q u p ∧ v.IsScar := by
      rcases h.lies hu with ⟨rfl, rfl⟩ | ⟨blank, rfl⟩ | ⟨hb, -⟩
      · exact h.exists_scar hd
      · cases hv
      · refine hb.exists_scar (fun hk => ?_) hd p
        rw [Tree.isVisible, hk] at hv
        cases hv
    obtain ⟨g, hg⟩ := exists_mem_of_lies hvu hscar.isVisible f
    refine ⟨_, hg, isScar_shownAt hscar ?_⟩
    rintro extra cs rfl
    rcases h.lies (hvu.trans hu) with ⟨rfl, rfl⟩ | ⟨blank, hfinish⟩ | ⟨hb, -⟩
    · exact under_root_ne_nil h (hne hscar)
    · cases hfinish
    · exact under_ne_nil hb
  · rintro ⟨k, hk, hscar⟩
    refine isDamaged_of_mem h hm (by rwa [nodes_shownAt hv]) ?_
    obtain ⟨v, q, g, -, -, rfl⟩ := exists_lies_of_mem hk
    exact (isScar_of_shownAt hscar).isDamaged

end Node

namespace Document

variable {source : String} {d : Document}

/-- A source without tokens is an empty program. -/
theorem isDamaged_of_lexemes_nil {t : Tree} (h : Tree.ofChars? source.toList = some t)
    (hnil : (Scan.ofChars source.toList).lexemes = []) : t.isDamaged = false := by
  have hspells : Spells source (Program.tokens []) := by
    simp [Spells, hnil, Lexeme.Known, Lexeme.terminals, Program.tokens]
  obtain ⟨t', ht', hd, -⟩ := Program.ofChars?_of_wellFormed (P := []) (by decide) hspells
  obtain rfl := Option.some.inj (h.symm.trans ht')
  exact hd

/-- A node is damaged exactly if there is a missing token in it, or an error that has children, and
then all nodes around it are damaged too. So the search for missing tokens, which goes down into
damaged nodes only, finds all of them, each once, parents before children, and ends at the root. -/
theorem pruned_search (h : (parse source).value = .ok d) :
    (∀ n ∈ d.root.nodes,
      n.isDamaged ↔ ∃ m ∈ n.nodes, m.isMissing ∨ m.isError ∧ m.children ≠ []) ∧
    (∀ n ∈ d.root.nodes, ∀ m ∈ n.nodes, m.isDamaged → n.isDamaged) ∧
    Issue.collectMissing [] (.ofRoot d.root) =
      (d.root.nodes.filter Node.isMissing, .ofRoot d.root) := by
  obtain ⟨t, ht, hroot, hwhole⟩ := whole_of_parse h
  have hne : t.IsScar → (Scan.ofChars source.toList).lexemes ≠ [] := by
    intro hscar hnil
    have hd := hscar.isDamaged
    rw [isDamaged_of_lexemes_nil ht hnil] at hd
    cases hd
  rw [hroot]
  refine ⟨fun n hn => Node.isDamaged_iff hwhole hne hn, fun n hn m hm =>
    Node.isDamaged_of_mem hwhole hn hm, ?_⟩
  rw [Issue.collectMissing_ofRoot, Issue.missingIn_eq _ fun m hm k hk =>
    Node.isDamaged_of_isMissing hwhole hm hk]

theorem pruned_search_unclosed : ∃ d, (parse "1*(2\n3").value = .ok d ∧
    (∃ n ∈ d.root.nodes, n.isDamaged = false ∧ n.children ≠ []) ∧
    (Issue.collectMissing [] (.ofRoot d.root)).1.map (fun n => (n.kind, n.start.bytes)) =
      [(.terminal .rightParen, 4)] ∧
    (Issue.collectMissing [] (.ofRoot d.root)).2 = .ofRoot d.root := by
  obtain ⟨d, h, ⟨n, hn, hsound, hne⟩, hmissing⟩ := exists_of_within 1000 "1*(2\n3"
    (fun d => (∃ n ∈ d.root.nodes, n.isDamaged = false ∧ n.children.isEmpty = false) ∧
      (d.root.nodes.filter Node.isMissing).map (fun n => (n.kind, n.start.bytes)) =
        [(Kind.terminal .rightParen, 4)])
    (by decide +kernel)
  refine ⟨d, h, ⟨n, hn, hsound, List.isEmpty_eq_false_iff.1 hne⟩, ?_, ?_⟩
  · rw [(pruned_search h).2.2, hmissing]
  · rw [(pruned_search h).2.2]

end Document

end CalcTree
