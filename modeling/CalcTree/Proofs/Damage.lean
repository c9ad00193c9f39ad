import CalcTree.Proofs.Places
import Mathlib.Tactic.TFAE

/-!
# Damage and issues

A tree counts as damaged exactly if it shows a flaw, text that does not fit or a missing token, and
exactly then there are issues and its source is refused (`Document.refused_tfae`). The place where
a source is refused is that of its first flaw, reported or not.
-/

namespace CalcTree

/-- Whether a node is itself damage: text that does not fit, or a token that is missing. -/
def Node.isFlaw (n : Node) : Bool :=
  n.isError || n.isMissing

namespace Tree

variable {t u : Tree} {ts : List Tree} {p place : Extent} {input : Scan}

/-- Whether a tree is shown as a flaw. -/
def IsFlaw (t : Tree) : Prop :=
  t.kind = .error ∨ ∃ a, t = .missing a

theorem IsFlaw.isVisible (h : t.IsFlaw) : t.isVisible := by
  rcases h with h | ⟨a, rfl⟩
  · rw [Tree.isVisible, h]
    rfl
  · rfl

theorem isMissing_shownAt {field : Option Field} :
    (Node.shownAt p field u).isMissing ↔ ∃ a, u = .missing a := by
  cases u <;> simp [Node.shownAt, Node.ofTree]

theorem isFlaw_shownAt {field : Option Field} : (Node.shownAt p field u).isFlaw ↔ u.IsFlaw := by
  rw [Node.isFlaw, Bool.or_eq_true, isMissing_shownAt, IsFlaw]
  simp [Node.isError, Node.shownAt, Node.ofTree]

/-- Nothing else lies inside a tree without children. -/
theorem Lies.eq_of_children (h : u.Lies p t place) (ht : t.children = []) : u = t := by
  cases h with
  | self => rfl
  | child before after hc => simp [ht] at hc

theorem anyDamaged_iff_exists (h : ∀ t ∈ ts, t.kind ≠ .skipped) :
    anyDamaged ts ↔ ∃ t ∈ ts, t.isDamaged := by
  constructor
  · intro hd
    by_contra hnone
    refine Bool.false_ne_true ((anyDamaged_of_forall fun t ht => ?_).symm.trans hd)
    exact Bool.eq_false_iff.2 fun hdt => hnone ⟨t, ht, hdt⟩
  · rintro ⟨t, ht, hd⟩
    by_contra hnone
    rw [anyDamaged_eq_false (Bool.eq_false_iff.2 hnone) ht (h t ht)] at hd
    cases hd

/-- Whether the damage of a tree is that of a flaw in it, wherever it is laid out. -/
def Candid (t : Tree) : Prop :=
  ∀ place, t.isDamaged ↔ ∃ (u : Tree) (p : Extent), u.Lies p t place ∧ u.IsFlaw

theorem candid_node {p : Production} (hk : ∀ t ∈ ts, t.kind ≠ .skipped)
    (h : ∀ t ∈ ts, t.Candid) : (Tree.node p ts).Candid := by
  intro place
  rw [isDamaged, anyDamaged_iff_exists hk]
  constructor
  · rintro ⟨c, hc, hd⟩
    obtain ⟨before, after, rfl⟩ := List.append_of_mem hc
    obtain ⟨u, q, hu, hflaw⟩ := (h c hc _).1 hd
    exact ⟨u, q, .child before after rfl hu, hflaw⟩
  · rintro ⟨u, q, hu, hflaw⟩
    cases hu with
    | self => rcases hflaw with hflaw | ⟨a, ha⟩ <;> simp_all [kind]
    | @child _ c _ before after hc hu =>
      have hmem : c ∈ ts := by
        rw [show ts = before ++ c :: after from hc]
        simp
      exact ⟨c, hmem, (h c hmem _).2 ⟨u, q, hu, hflaw⟩⟩

theorem candid_of_isFlaw (h : t.IsFlaw) (hd : t.isDamaged) : t.Candid :=
  fun place => iff_of_true hd ⟨t, place, .self, h⟩

/-- What is passed over stands in error nodes only. -/
theorem kind_ne_skipped {p : Production} (hp : (parts ts).map symbol? = p.rhs.map some)
    (ht : t ∈ ts) : t.kind ≠ .skipped := by
  intro hk
  obtain ⟨cs, rfl⟩ := eq_skipped_of_kind hk
  obtain ⟨X, -, hs⟩ := symbol?_mem_rhs hp ht rfl
  simp [symbol?] at hs

/-- The damage of what can stand in a construct is that of a flaw. -/
theorem Built.candid (h : t.Built) (ht : t.isExtra = false → ∃ X, t.symbol? = some X) :
    t.Candid := by
  induction h with
  | leaf l =>
    intro place
    refine iff_of_false (by simp [isDamaged]) ?_
    rintro ⟨u, q, hu, hflaw⟩
    obtain rfl := hu.eq_of_children rfl
    rcases hflaw with hk | ⟨a, ha⟩
    · rcases hl : l.kind with a | _ <;> simp_all [kind, isExtra, symbol?]
    · cases ha
  | missing a _ => exact candid_of_isFlaw (.inr ⟨a, rfl⟩) rfl
  | node p cs hp hcs ih =>
    refine candid_node (fun c hc => kind_ne_skipped hp hc) fun c hc => ih c hc fun he => ?_
    obtain ⟨X, -, hX⟩ := symbol?_mem_rhs hp hc he
    exact ⟨X, hX⟩
  | error cs => exact candid_of_isFlaw (.inl rfl) rfl
  | skipped cs =>
    obtain ⟨X, hX⟩ := ht rfl
    simp [symbol?] at hX

theorem candid_finish (blank : List Char) : (Tree.finish blank).Candid := by
  intro place
  refine iff_of_false (by simp [isDamaged]) ?_
  rintro ⟨u, q, hu, hflaw⟩
  obtain rfl := hu.eq_of_children rfl
  rcases hflaw with hk | ⟨a, ha⟩
  · simp [kind] at hk
  · cases ha

theorem Whole.candid (h : t.Whole input) : t.Candid := by
  cases h with
  | lost => exact candid_of_isFlaw (.inl rfl) rfl
  | file p cs hp hb hl =>
    cases hb with
    | node _ _ hparts hcs =>
    have hall : ∀ c ∈ cs ++ [.finish input.trailing], c.kind ≠ .skipped ∧ c.Candid := by
      intro c hc
      rcases List.mem_append.1 hc with hc | hc
      · refine ⟨kind_ne_skipped hparts hc, (hcs c hc).candid fun he => ?_⟩
        obtain ⟨X, -, hX⟩ := symbol?_mem_rhs hparts hc he
        exact ⟨X, hX⟩
      · rw [List.mem_singleton.1 hc]
        exact ⟨by simp [kind], candid_finish _⟩
    exact candid_node (fun c hc => (hall c hc).1) fun c hc => (hall c hc).2

/-- A child that is damaged damages what it is part of. -/
theorem Built.isDamaged_of_mem {c : Tree} (hb : t.Built) (hc : c ∈ t.children)
    (hd : c.isDamaged) : t.isDamaged := by
  cases hb with
  | leaf | missing => simp [children] at hc
  | node q cs hp hcs =>
    exact (anyDamaged_iff_exists fun c hc => kind_ne_skipped hp hc).2 ⟨c, hc, hd⟩
  | error | skipped => rfl

theorem Lies.isDamaged (h : u.Lies p t place) (hb : t.Built) (hd : u.isDamaged) :
    t.isDamaged := by
  induction h with
  | self => exact hd
  | @child t c place before after hc _ ih =>
    have hmem : c ∈ t.children := by simp [hc]
    exact hb.isDamaged_of_mem hmem (ih (hb.of_mem hmem))

theorem Whole.isDamaged (h : t.Whole input) (hu : u.Lies p t 0) (hd : u.isDamaged) :
    t.isDamaged := by
  cases h with
  | lost => rfl
  | file q cs hq hb hl =>
    cases hu with
    | self => exact hd
    | @child _ c _ before after hc hu =>
      have hmem : c ∈ cs ++ [.finish input.trailing] := by
        rw [show cs ++ [.finish input.trailing] = before ++ c :: after from hc]
        simp
      rcases List.mem_append.1 hmem with hcs | hfinish
      · have hnode := hb.isDamaged_of_mem hcs (hu.isDamaged (hb.of_mem hcs) hd)
        rw [Tree.isDamaged] at hnode
        rw [Tree.isDamaged, anyDamaged_append, hnode, Bool.true_or]
      · obtain rfl := List.mem_singleton.1 hfinish
        rw [hu.eq_of_children rfl] at hd
        cases hd

end Tree

namespace Node

variable {t : Tree} {input : Scan} {m k : Node}

theorem nodes_shownAt {u : Tree} {p : Extent} {f : Option Field} (hv : u.isVisible) :
    (shownAt p f u).nodes = (display p f u).flatMap nodes := by
  rw [display_of_isVisible hv, List.flatMap_singleton]

/-- A node with a damaged one in it is damaged. -/
theorem isDamaged_of_mem (h : t.Whole input) (hm : m ∈ (root t).nodes) (hk : k ∈ m.nodes)
    (hd : k.isDamaged) : m.isDamaged := by
  obtain ⟨u, p, f, hu, hv, rfl⟩ := exists_of_mem_root h hm
  rw [nodes_shownAt hv] at hk
  obtain ⟨u', p', f', hu', -, rfl⟩ := exists_lies_of_mem hk
  show u.isDamaged = true
  rcases h.lies hu with ⟨rfl, rfl⟩ | ⟨blank, rfl⟩ | ⟨hb, -⟩
  · exact h.isDamaged hu' hd
  · cases hv
  · exact hu'.isDamaged hb hd

/-- A node with a missing token in it is damaged. -/
theorem isDamaged_of_isMissing (h : t.Whole input) (hm : m ∈ (root t).nodes) (hk : k ∈ m.nodes)
    (hmissing : k.isMissing) : m.isDamaged := by
  refine isDamaged_of_mem h hm hk ?_
  obtain ⟨u, p, f, hu, hv, rfl⟩ := exists_of_mem_root h hm
  rw [nodes_shownAt hv] at hk
  obtain ⟨u', p', f', -, -, rfl⟩ := exists_lies_of_mem hk
  obtain ⟨a, rfl⟩ := Tree.isMissing_shownAt.1 hmissing
  rfl

theorem isDamaged_root_iff (h : t.Whole input) :
    (root t).isDamaged ↔ ∃ n ∈ (root t).nodes, n.isFlaw := by
  have hroot : (root t).isDamaged = t.isDamaged := by
    rw [root_eq]
    rfl
  rw [hroot, h.candid 0]
  constructor
  · rintro ⟨u, p, hu, hflaw⟩
    obtain ⟨f, hf⟩ := exists_mem_root h hu hflaw.isVisible
    exact ⟨_, hf, Tree.isFlaw_shownAt.2 hflaw⟩
  · rintro ⟨n, hn, hflaw⟩
    obtain ⟨u, p, f, hu, hv, rfl⟩ := exists_of_mem_root h hn
    exact ⟨u, p, hu, Tree.isFlaw_shownAt.1 hflaw⟩

end Node

/-! ## Issues -/

namespace Issue

/-- If every node above a missing token counts as damaged, none is passed by. -/
theorem missingIn_eq (n : Node) (h : ∀ m ∈ n.nodes, ∀ k ∈ m.nodes, k.isMissing → m.isDamaged) :
    missingIn n = n.nodes.filter Node.isMissing := by
  have hself : n ∈ n.nodes := by
    rw [Node.nodes_eq]
    exact List.mem_cons_self
  have hbelow : ∀ c ∈ n.children, ∀ k ∈ c.nodes, k ∈ n.nodes := by
    intro c hc k hk
    rw [Node.nodes_eq]
    exact List.mem_cons_of_mem n (List.mem_flatMap.2 ⟨c, hc, hk⟩)
  have hcs : ∀ c ∈ n.children, missingIn c = c.nodes.filter Node.isMissing := by
    intro c hc
    have hlt : sizeOf c < sizeOf n := Node.sizeOf_lt_of_mem hc
    exact missingIn_eq c fun m hm => h m (hbelow c hc m hm)
  have hbranch : (if n.isDamaged then n.children.flatMap missingIn else []) =
      (n.children.flatMap Node.nodes).filter Node.isMissing := by
    split_ifs with hd
    · rw [List.filter_flatMap]
      exact List.flatMap_congr hcs
    · refine (List.filter_eq_nil_iff.2 fun k hk hmissing => hd ?_).symm
      obtain ⟨c, hc, hk⟩ := List.mem_flatMap.1 hk
      exact h n hself k (hbelow c hc k hk) hmissing
  rw [missingIn_unfold, hbranch, Node.nodes_eq n, List.filter_cons]
  split_ifs <;> rfl
termination_by sizeOf n

variable {t : Tree} {input : Scan} {m : Node}

theorem damage_root (h : t.Whole input) : damage (.root t) =
    (Node.root t).nodes.filter Node.isError ++ (Node.root t).nodes.filter Node.isMissing := by
  rw [damage_eq, missingIn_eq _ fun m hm k hk => Node.isDamaged_of_isMissing h hm hk]

theorem mem_damage (h : t.Whole input) :
    m ∈ damage (.root t) ↔ m ∈ (Node.root t).nodes ∧ m.isFlaw := by
  rw [damage_root h, List.mem_append, List.mem_filter, List.mem_filter, Node.isFlaw,
    Bool.or_eq_true]
  exact and_or_left.symm

theorem inOrder_iff {a b : Node} : inOrder a b ↔ a.start.bytes < b.start.bytes ∨
    a.start.bytes = b.start.bytes ∧ b.stop.bytes ≤ a.stop.bytes := by
  simp [inOrder]

theorem inOrder_trans (a b c : Node) (hab : inOrder a b) (hbc : inOrder b c) : inOrder a c := by
  rw [inOrder_iff] at hab hbc ⊢
  omega

theorem inOrder_total (a b : Node) : inOrder a b || inOrder b a := by
  rw [Bool.or_eq_true, inOrder_iff, inOrder_iff]
  omega

/-- The first issue of a damaged tree is its first flaw. -/
theorem exists_first (h : t.Whole input) (hd : (Node.root t).isDamaged) :
    ∃ n ∈ (Node.root t).nodes, n.isFlaw ∧ (ofRoot (.root t)).head? = some (ofNode n) ∧
      ∀ m ∈ (Node.root t).nodes, m.isFlaw → n.start.bytes ≤ m.start.bytes := by
  have hmem : ∀ m, m ∈ (damage (.root t)).mergeSort inOrder ↔
      m ∈ (Node.root t).nodes ∧ m.isFlaw := fun m => List.mem_mergeSort.trans (mem_damage h)
  have hsorted : ((damage (.root t)).mergeSort inOrder).Pairwise fun a b => inOrder a b :=
    List.pairwise_mergeSort inOrder_trans inOrder_total _
  rw [ofRoot, if_pos hd]
  rcases hlist : (damage (.root t)).mergeSort inOrder with _ | ⟨n, ns⟩
  · obtain ⟨m, hm⟩ := (Node.isDamaged_root_iff h).1 hd
    rw [← hmem, hlist] at hm
    cases hm
  · rw [hlist] at hmem hsorted
    obtain ⟨hn, hflaw⟩ := (hmem n).1 List.mem_cons_self
    refine ⟨n, hn, hflaw, rfl, fun m hm hmflaw => ?_⟩
    rcases List.mem_cons.1 ((hmem m).2 ⟨hm, hmflaw⟩) with rfl | hlater
    · exact Nat.le_refl _
    · have := inOrder_iff.1 (List.rel_of_pairwise_cons hsorted hlater)
      omega

end Issue

namespace Document

variable {source : String} {d : Document}

theorem value_issues (root : Node) : (issues root).value = Issue.ofRoot root := by
  unfold issues
  split_ifs <;> rfl

theorem check_of_isDamaged (h : (parse source).value = .ok d) (hd : d.root.isDamaged)
    {start : Extent} (hstart : (issues d.root).value.head?.map Issue.start = some start) :
    (check source).value =
      .error (.invalid (start.rows + 1) (start.columns + 1) (issues d.root).value) := by
  have hget : ((issues d.root).value.head?.map Issue.start).getD d.root.start = start := by
    rw [hstart, Option.getD_some]
  simp only [check, bind, h, hd]
  rw [← hget]
  rfl

/-- Damage that is in order as it stands is reported as it stands. -/
theorem issues_of_pairwise {root : Node} (hd : root.isDamaged)
    (h : (Issue.damage root).Pairwise fun a b => Issue.inOrder a b) :
    (issues root).value = Issue.report none (Issue.damage root) := by
  rw [value_issues, Issue.ofRoot, if_pos hd, List.mergeSort_of_pairwise h]

/-- A source whose damage is in order as it stands. -/
theorem exists_of_any (fuel : Nat) (source : String) (start : Extent)
    (h : (ofSourceWithin? fuel source).any fun d => decide (d.root.isDamaged ∧
      (Issue.damage d.root).Pairwise (fun a b => Issue.inOrder a b) ∧
      (Issue.report none (Issue.damage d.root)).head?.map Issue.start = some start)) :
    ∃ d, (parse source).value = .ok d ∧ d.root.isDamaged ∧
      (issues d.root).value.head?.map Issue.start = some start := by
  obtain ⟨d, hparse, hd, hsorted, hstart⟩ := exists_of_within fuel source _ h
  rw [← issues_of_pairwise hd hsorted] at hstart
  exact ⟨d, hparse, hd, hstart⟩

theorem exists_error_iff (h : (parse source).value = .ok d) :
    (∃ e, (check source).value = .error e) ↔ d.root.isDamaged := by
  rcases hcheck : (check source).value with e | d'
  · refine iff_of_true ⟨e, rfl⟩ ?_
    by_contra hd
    rw [check_eq_ok_iff.2 ⟨h, Bool.eq_false_iff.2 hd⟩] at hcheck
    cases hcheck
  · obtain ⟨h', hd⟩ := check_eq_ok_iff.1 hcheck
    obtain rfl := Except.ok.inj (h.symm.trans h')
    simp [hd]

/-- A source is refused exactly if its tree is damaged, or shows a flaw, or has issues. It is
refused with all of its issues, at the first of all flaws; line and column can be counted off the
bytes before it. -/
theorem refused_tfae (h : (parse source).value = .ok d) :
    List.TFAE [∃ e, (check source).value = .error e, d.root.isDamaged = true,
      ∃ n ∈ d.root.nodes, n.isFlaw, (issues d.root).value ≠ []] ∧
    ∀ e, (check source).value = .error e → ∃ n ∈ d.root.nodes, n.isFlaw ∧
      (issues d.root).value.head?.map Issue.start = some n.start ∧
      e = .invalid (n.start.rows + 1) (n.start.columns + 1) (issues d.root).value ∧
      (∀ m ∈ d.root.nodes, m.isFlaw → n.start.point ≤ m.start.point) ∧
      n.start = .ofBytes (source.toUTF8.data.toList.take n.start.bytes) := by
  obtain ⟨t, -, hroot, hwhole⟩ := whole_of_parse h
  refine ⟨?_, fun e he => ?_⟩
  · tfae_have 1 ↔ 2 := exists_error_iff h
    tfae_have 2 ↔ 3 := hroot ▸ Node.isDamaged_root_iff hwhole
    tfae_have 2 → 4 := by
      intro hd hnil
      obtain ⟨n, -, -, hfirst, -⟩ := Issue.exists_first hwhole (hroot ▸ hd)
      rw [value_issues, hroot] at hnil
      simp [hnil] at hfirst
    tfae_have 4 → 2 := by
      intro hne
      by_contra hd
      exact hne (by rw [value_issues, Issue.ofRoot, if_neg hd])
    tfae_finish
  · have hd := (exists_error_iff h).1 ⟨e, he⟩
    obtain ⟨n, hn, hflaw, hfirst, hleast⟩ := Issue.exists_first hwhole (hroot ▸ hd)
    rw [← hroot] at hn hfirst hleast
    have hplace : ∀ m ∈ d.root.nodes, m.start.IsIn source.toList := fun m hm =>
      Node.isIn_of_mem_root hwhole (hroot ▸ hm)
    have hstart : (issues d.root).value.head?.map Issue.start = some n.start := by
      rw [value_issues, hfirst]
      rfl
    refine ⟨n, hn, hflaw, hstart, ?_, fun m hm hmflaw => ?_, (hplace n hn).eq_ofBytes⟩
    · rw [check_of_isDamaged h hd hstart] at he
      exact (Except.error.inj he).symm
    · exact (hplace n hn).point_le (hplace m hm) (hleast m hm hmflaw)

theorem refused_second_line : ∃ d, (parse "1\n+").value = .ok d ∧
    (check "1\n+").value = .error (.invalid 2 2 (issues d.root).value) ∧
    Extent.ofBytes ("1\n+".toUTF8.data.toList.take 3) = ⟨3, 1, 1⟩ ∧
    ∀ m ∈ d.root.nodes, m.isFlaw → toLex (1, 1) ≤ m.start.point := by
  obtain ⟨d, h, hd, hstart⟩ := exists_of_any 1000 "1\n+" ⟨3, 1, 1⟩ (by decide +kernel)
  obtain ⟨htfae, hplace⟩ := refused_tfae h
  obtain ⟨e, he⟩ := (htfae.out 0 1).2 hd
  obtain ⟨n, -, -, hfirst, rfl, hleast, hbytes⟩ := hplace e he
  rw [hstart, Option.some.injEq] at hfirst
  rw [← hfirst] at he hleast hbytes
  exact ⟨d, h, he, hbytes.symm, hleast⟩

end Document

end CalcTree
