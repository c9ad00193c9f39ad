import CalcTree.Proofs.Damage
import CalcTree.Proofs.Sites

/-!
# Which flaws are reported

Flaws are reported in one order (`Site.Precedes`), and a flaw is left out exactly if text that does
not fit, before it in this order, reaches to its end or further (`Issue.not_mem_reported_iff`).

So damage inside text that does not fit is always left out. But a flaw that takes no room is also
left out if it merely touches such text (`Document.left_out_iff`).
-/

namespace CalcTree

/-! ## The order of reports -/

namespace Site

variable {a b : Site}

/-- Text that does not fit goes before missing tokens, and else what is first in the tree. -/
def Outranks (a b : Site) : Prop :=
  a.node.isMissing = false ∧ b.node.isMissing = true ∨
    a.node.isMissing = b.node.isMissing ∧ a.path < b.path

/-- The order of reports: what starts earlier goes first, then what is longer. -/
def Precedes (a b : Site) : Prop :=
  Issue.inOrder a.node b.node ∧ (Issue.inOrder b.node a.node → a.Outranks b)

theorem Outranks.asymm (h : a.Outranks b) : ¬ b.Outranks a := by
  rintro (⟨hb, ha⟩ | ⟨heq, hpath⟩)
  · rcases h with ⟨ha', -⟩ | ⟨heq, -⟩ <;> simp_all
  · rcases h with ⟨ha, hb⟩ | ⟨-, hpath'⟩
    · simp_all
    · exact List.lt_asymm hpath hpath'

theorem Precedes.asymm (h : a.Precedes b) : ¬ b.Precedes a := fun h' =>
  (h.2 h'.1).asymm (h'.2 h.1)

end Site

/-! ## What is kept -/

namespace Issue

/-- All damage in a tree, with the ways to it. -/
def flaws (root : Node) : List Site :=
  root.sites.filter (·.node.isError) ++ root.sites.filter (·.node.isMissing)

/-- The sites that are reported, given the last one before. -/
def keep : Option Site → List Site → List Site
  | _, [] => []
  | last, s :: ss =>
    if last.any fun l => covers (ofNode l.node) s.node then keep last ss
    else s :: keep (some s) ss

/-- The sites of the issues of a tree. -/
def reported (root : Node) : List Site :=
  keep none ((flaws root).mergeSort fun a b => inOrder a.node b.node)

theorem report_map_node (last : Option Site) (ss : List Site) :
    report (last.map fun l => ofNode l.node) (ss.map Site.node) =
      (keep last ss).map fun s => ofNode s.node := by
  induction ss generalizing last with
  | nil => rfl
  | cons s ss ih =>
    rw [List.map_cons, report, keep, Option.any_map]
    split_ifs
    · exact ih last
    · rw [List.map_cons, ← ih (some s), Option.map_some]

theorem keep_append (last : Option Site) (ss rs : List Site) :
    keep last (ss ++ rs) = keep last ss ++ keep ((keep last ss).getLast?.or last) rs := by
  induction ss generalizing last with
  | nil => simp [keep]
  | cons s ss ih =>
    rw [List.cons_append, keep, keep]
    split_ifs
    · exact ih last
    · rw [ih, List.cons_append, List.getLast?_cons]
      cases (keep (some s) ss).getLast? <;> simp

theorem keep_sublist (last : Option Site) (ss : List Site) : (keep last ss).Sublist ss := by
  induction ss generalizing last with
  | nil => exact .slnil
  | cons s ss ih =>
    rw [keep]
    split_ifs
    · exact (ih last).cons s
    · exact (ih (some s)).cons_cons s

/-- Whether a site is left out after others. -/
def dropped (before : List Site) (s : Site) : Bool :=
  (keep none before).getLast?.any fun l => covers (ofNode l.node) s.node

theorem keep_none_append (before after : List Site) (s : Site) :
    keep none (before ++ s :: after) = keep none before ++
      if dropped before s then keep (keep none before).getLast? after
      else s :: keep (some s) after := by
  rw [keep_append, Option.or_none, keep, dropped]

theorem getLast?_keep_snoc (before : List Site) (s : Site) :
    (keep none (before ++ [s])).getLast? =
      if dropped before s then (keep none before).getLast? else some s := by
  rw [keep_none_append]
  split_ifs <;> simp [keep]

variable {s e : Site} {before after : List Site}

theorem mem_keep_iff (h : (before ++ s :: after).Nodup) :
    s ∈ keep none (before ++ s :: after) ↔ dropped before s = false := by
  obtain ⟨-, hafter, hne⟩ := List.nodup_append.1 h
  have hbefore : s ∉ keep none before := fun hs =>
    hne s ((keep_sublist _ _).subset hs) s List.mem_cons_self rfl
  have hafter : ∀ last, s ∉ keep last after := fun last hs =>
    (List.nodup_cons.1 hafter).1 ((keep_sublist _ _).subset hs)
  rw [keep_none_append, List.mem_append]
  cases dropped before s <;> simp [hbefore, hafter]

theorem covers_ofNode {n m : Node} : covers (ofNode n) m ↔ n.isMissing = false ∧
    n.start.bytes ≤ m.start.bytes ∧ m.stop.bytes ≤ n.stop.bytes := by
  cases h : n.isMissing <;> simp [covers, ofNode, h]

theorem dropped_iff_exists_last : dropped before s ↔ ∃ l, (keep none before).getLast? = some l ∧
    l.node.isMissing = false ∧ l.node.start.bytes ≤ s.node.start.bytes ∧
      s.node.stop.bytes ≤ l.node.stop.bytes := by
  simp only [dropped, Option.any_eq_true, covers_ofNode]

/-- Whether a node ends where it starts or later, and a missing one right there. -/
def Fair (n : Node) : Prop :=
  n.start.bytes ≤ n.stop.bytes ∧ (n.isMissing → n.stop.bytes ≤ n.start.bytes)

theorem exists_of_dropped (h : dropped before s) :
    ∃ e ∈ before, e.node.isMissing = false ∧ s.node.stop.bytes ≤ e.node.stop.bytes := by
  obtain ⟨l, hl, hmissing, -, hle⟩ := dropped_iff_exists_last.1 h
  exact ⟨l, (keep_sublist _ _).subset (List.mem_of_getLast? hl), hmissing, hle⟩

/-- In order, a site is left out if text that does not fit, before it, reaches to its end: even if
that is not the last site reported, that one reaches there too. -/
theorem dropped_of_exists (hsorted : (before ++ [s]).Pairwise fun a b => inOrder a.node b.node)
    (hfair : ∀ r ∈ before ++ [s], Fair r.node) (he : e ∈ before)
    (hmissing : e.node.isMissing = false) (hle : s.node.stop.bytes ≤ e.node.stop.bytes) :
    dropped before s := by
  induction before using List.reverseRecOn generalizing s e with
  | nil => simp at he
  | append_singleton before x ih =>
    rw [List.append_assoc, List.singleton_append] at hsorted hfair
    have hskip : (before ++ [s]).Sublist (before ++ [x, s]) :=
      (List.sublist_cons_self x [s]).append_left before
    have hstop : (before ++ [x]).Sublist (before ++ [x, s]) :=
      (List.sublist_append_left [x] [s]).append_left before
    have hxs : x.node.start.bytes ≤ s.node.start.bytes := by
      have := inOrder_iff.1 (List.rel_of_pairwise_cons (List.pairwise_append.1 hsorted).2.1
        (List.mem_singleton_self s))
      omega
    have hs := (hfair s (by simp)).1
    have hxfair := (hfair x (by simp)).2
    by_cases hx : dropped before x
    · rw [dropped, getLast?_keep_snoc, if_pos hx]
      have ih' := fun {r : Site} hr => @ih s r (hsorted.sublist hskip)
        (fun r hr => hfair r (hskip.subset hr)) hr
      rcases List.mem_append.1 he with he | he
      · exact ih' he hmissing hle
      · obtain ⟨r, hr, hrmissing, hrle⟩ := exists_of_dropped hx
        obtain rfl := List.mem_singleton.1 he
        exact ih' hr hrmissing (by omega)
    · -- The site before was reported, so nothing before that reaches to its end.
      refine dropped_iff_exists_last.2 ⟨x, by rw [getLast?_keep_snoc, if_neg hx], ?_⟩
      rcases List.mem_append.1 he with he | he
      · have hlt : e.node.stop.bytes < x.node.stop.bytes := by
          by_contra hge
          exact hx (ih (hsorted.sublist hstop) (fun r hr => hfair r (hstop.subset hr)) he hmissing
            (by omega))
        refine ⟨Bool.eq_false_iff.2 fun hxm => ?_, hxs, by omega⟩
        have := hxfair hxm
        omega
      · obtain rfl := List.mem_singleton.1 he
        exact ⟨hmissing, hxs, hle⟩

/-! ## Flaws in order -/

theorem not_sublist_swap {α : Type} {a b : α} {l : List α} (h : l.Nodup)
    (hab : [a, b].Sublist l) : ¬ [b, a].Sublist l := by
  induction l with
  | nil => simp at hab
  | cons x l ih =>
    obtain ⟨hx, hl⟩ := List.nodup_cons.1 h
    intro hba
    cases hab with
    | cons _ hab =>
      cases hba with
      | cons _ hba => exact ih hl hab hba
      | cons_cons => exact hx (hab.subset (by simp))
    | cons_cons _ hb =>
      cases hba with
      | cons _ hba => exact hx (hba.subset (by simp))
      | cons_cons => exact hx (hb.subset (by simp))

theorem sublist_or_swap {α : Type} {a b : α} {l : List α} (ha : a ∈ l) (hb : b ∈ l) (hne : a ≠ b) :
    [a, b].Sublist l ∨ [b, a].Sublist l := by
  obtain ⟨l₁, l₂, rfl⟩ := List.append_of_mem ha
  rcases List.mem_append.1 hb with hb | hb
  · exact .inr ((List.singleton_sublist.2 hb).append (List.singleton_sublist.2 (by simp)))
  · have hb : b ∈ l₂ := (List.mem_cons.1 hb).resolve_left (Ne.symm hne)
    exact .inl (((List.singleton_sublist.2 hb).cons_cons a).trans (List.sublist_append_right _ _))

/-- Sorting keeps the order of what starts and ends together. -/
theorem pairwise_precedes {ss : List Site} (h : ss.Pairwise Site.Outranks) :
    (ss.mergeSort fun a b => inOrder a.node b.node).Pairwise Site.Precedes := by
  have htrans : ∀ a b c : Site, inOrder a.node b.node → inOrder b.node c.node →
      inOrder a.node c.node := fun _ _ _ => inOrder_trans _ _ _
  have htotal : ∀ a b : Site, inOrder a.node b.node || inOrder b.node a.node := fun _ _ =>
    inOrder_total _ _
  have hnodup : ss.Nodup := h.imp fun hab heq => (heq ▸ hab).asymm (heq ▸ hab)
  refine List.pairwise_iff_forall_sublist.2 fun {a b} hab => ?_
  have hsorted := List.pairwise_mergeSort htrans htotal ss
  refine ⟨List.pairwise_iff_forall_sublist.1 hsorted hab, fun hba => ?_⟩
  have hnodup' := (List.mergeSort_perm ss fun a b => inOrder a.node b.node).nodup_iff.2 hnodup
  have hne : a ≠ b := by
    rintro rfl
    simpa using hnodup'.sublist hab
  have ha : a ∈ ss := List.mem_mergeSort.1 (hab.subset (by simp))
  have hb : b ∈ ss := List.mem_mergeSort.1 (hab.subset (by simp))
  rcases sublist_or_swap ha hb hne with hsub | hsub
  · exact List.pairwise_iff_forall_sublist.1 h hsub
  · exact absurd (List.pair_sublist_mergeSort htrans htotal hba hsub) (not_sublist_swap hnodup' hab)

variable {root : Node}

theorem mem_flaws : s ∈ flaws root ↔ s ∈ root.sites ∧ s.node.isFlaw := by
  rw [flaws, List.mem_append, List.mem_filter, List.mem_filter, Node.isFlaw, Bool.or_eq_true]
  exact and_or_left.symm

theorem pairwise_flaws (h : ∀ n ∈ root.nodes, n.isError → n.isMissing = false) :
    (flaws root).Pairwise Site.Outranks := by
  have hsites := root.pairwise_sites
  have herror : ∀ s ∈ root.sites, s.node.isError → s.node.isMissing = false := by
    intro s hs
    exact h s.node (Node.mem_nodes_of_mem_sites hs)
  rw [flaws, List.pairwise_append]
  refine ⟨?_, ?_, ?_⟩
  · refine (hsites.filter _).imp_of_mem fun {a b} ha hb hab => .inr ⟨?_, hab⟩
    rw [List.mem_filter] at ha hb
    rw [herror a ha.1 ha.2, herror b hb.1 hb.2]
  · refine (hsites.filter _).imp_of_mem fun {a b} ha hb hab => .inr ⟨?_, hab⟩
    rw [List.mem_filter] at ha hb
    exact ha.2.trans hb.2.symm
  · intro a ha b hb
    rw [List.mem_filter] at ha hb
    exact .inl ⟨herror a ha.1 ha.2, hb.2⟩

theorem nodup_reported (h : ∀ n ∈ root.nodes, n.isError → n.isMissing = false) :
    (reported root).Nodup := by
  refine List.Nodup.sublist (keep_sublist _ _) ?_
  exact (pairwise_precedes (pairwise_flaws h)).imp fun hab heq => (heq ▸ hab).asymm (heq ▸ hab)

/-- A flaw is left out exactly if text that does not fit precedes it and reaches to its end. -/
theorem not_mem_reported_iff (hfair : ∀ n ∈ root.nodes, Fair n)
    (herror : ∀ n ∈ root.nodes, n.isError → n.isMissing = false) (hs : s ∈ flaws root) :
    s ∉ reported root ↔ ∃ e ∈ flaws root, e.node.isMissing = false ∧ e.Precedes s ∧
      s.node.stop.bytes ≤ e.node.stop.bytes := by
  have hsorted := pairwise_precedes (pairwise_flaws herror)
  have hmem : ∀ r, r ∈ (flaws root).mergeSort (fun a b => inOrder a.node b.node) ↔
      r ∈ flaws root := fun r => List.mem_mergeSort
  rw [reported]
  obtain ⟨before, after, hsplit⟩ := List.append_of_mem ((hmem s).2 hs)
  rw [hsplit] at hmem hsorted ⊢
  have hnodup : (before ++ s :: after).Nodup :=
    hsorted.imp fun hab heq => (heq ▸ hab).asymm (heq ▸ hab)
  have hstop : (before ++ [s]).Sublist (before ++ s :: after) :=
    (List.sublist_append_left [s] after).append_left before
  have hbefore := (List.pairwise_append.1 hsorted).2.2
  rw [mem_keep_iff hnodup, Bool.not_eq_false]
  constructor
  · intro hd
    obtain ⟨e, he, hmissing, hle⟩ := exists_of_dropped hd
    exact ⟨e, (hmem e).1 (by simp [he]), hmissing, hbefore e he s List.mem_cons_self, hle⟩
  · rintro ⟨e, he, hmissing, hprec, hle⟩
    have he : e ∈ before := by
      rcases List.mem_append.1 ((hmem e).2 he) with he | he
      · exact he
      · rcases List.mem_cons.1 he with rfl | he
        · exact absurd hprec hprec.asymm
        · have hlater := List.rel_of_pairwise_cons (List.pairwise_append.1 hsorted).2.1 he
          exact absurd hprec hlater.asymm
    refine dropped_of_exists ((hsorted.sublist hstop).imp fun h => h.1) (fun r hr => ?_) he
      hmissing hle
    have hsite := (mem_flaws.1 ((hmem r).1 (hstop.subset hr))).1
    exact hfair r.node (Node.mem_nodes_of_mem_sites hsite)

/-! ## Whole trees -/

section Whole

variable {t : Tree} {input : Scan} {n : Node}

theorem fair_of_mem_root (h : t.Whole input) (hn : n ∈ (Node.root t).nodes) : Fair n := by
  refine ⟨(Node.nested_root h n hn).le, fun hmissing => ?_⟩
  obtain ⟨u, p, f, -, -, rfl⟩ := Node.exists_of_mem_root h hn
  obtain ⟨a, rfl⟩ := Tree.isMissing_shownAt.1 hmissing
  simp [Node.shownAt, Node.ofTree, Tree.reach, Tree.size]

/-- Missing tokens are leaves, and none of them is an error node. -/
theorem missing_of_mem_root (h : t.Whole input) (hn : n ∈ (Node.root t).nodes)
    (hmissing : n.isMissing) : n.children = [] ∧ n.isError = false := by
  obtain ⟨u, p, f, -, -, rfl⟩ := Node.exists_of_mem_root h hn
  obtain ⟨a, rfl⟩ := Tree.isMissing_shownAt.1 hmissing
  exact ⟨rfl, rfl⟩

theorem isMissing_of_isError (h : t.Whole input) (hn : n ∈ (Node.root t).nodes)
    (herror : n.isError) : n.isMissing = false := by
  by_contra hmissing
  rw [(missing_of_mem_root h hn (Bool.eq_true_of_not_eq_false hmissing)).2] at herror
  cases herror

theorem map_node_flaws (h : t.Whole input) :
    (flaws (.root t)).map Site.node = damage (.root t) := by
  rw [damage_root h, flaws, List.map_append, ← (Node.root t).map_node_sites, List.filter_map,
    List.filter_map]
  rfl

/-- The issues of a tree are those of the sites reported. -/
theorem ofRoot_eq (h : t.Whole input) :
    ofRoot (.root t) = (reported (.root t)).map fun s => ofNode s.node := by
  have hmap : ((flaws (.root t)).mergeSort fun a b => inOrder a.node b.node).map Site.node =
      (damage (.root t)).mergeSort inOrder := by
    rw [← map_node_flaws h]
    exact List.map_mergeSort fun _ _ _ _ => rfl
  rw [ofRoot, reported, ← report_map_node, hmap, Option.map_none]
  split_ifs with hd
  · rfl
  · have hnone : damage (.root t) = [] := by
      refine List.eq_nil_iff_forall_not_mem.2 fun m hm => hd ?_
      exact (Node.isDamaged_root_iff h).2 ⟨m, (mem_damage h).1 hm⟩
    rw [hnone, List.mergeSort_nil, report]

end Whole

end Issue

namespace Site

variable {a b : Site} {t : Tree} {input : Scan}

/-- For what reaches as far, only a start further on does not go first. -/
theorem precedes_iff (h : b.node.stop.bytes ≤ a.node.stop.bytes) : a.Precedes b ↔
    a.node.start.bytes ≤ b.node.start.bytes ∧
      (a.node.start.bytes = b.node.start.bytes → a.node.stop.bytes = b.node.stop.bytes →
        a.Outranks b) := by
  rw [Precedes, Issue.inOrder_iff, Issue.inOrder_iff]
  constructor
  · rintro ⟨hab, hrank⟩
    exact ⟨by omega, fun hstart hstop => hrank (by omega)⟩
  · rintro ⟨hab, hrank⟩
    exact ⟨by omega, fun hba => hrank (by omega) (by omega)⟩

theorem lt_of_isPrefix {p q : List Nat} (h : q <+: p) (hne : q ≠ p) : q < p := by
  induction q generalizing p with
  | nil =>
    rcases p with _ | ⟨i, p⟩
    · exact absurd rfl hne
    · exact List.nil_lt_cons _ _
  | cons i q ih =>
    obtain ⟨p, rfl, hp⟩ := List.cons_prefix_iff.1 h
    exact List.cons_lt_cons_iff.2 (.inr ⟨rfl, ih hp fun heq => hne (by rw [heq])⟩)

/-- Whether one node is inside another. -/
def Encloses (a b : Site) : Prop :=
  a.path <+: b.path ∧ a.path ≠ b.path

/-- Whether a node that takes no room lies at an end of another, and neither is inside the other. -/
def Touches (a b : Site) : Prop :=
  (¬ a.path <+: b.path ∧ ¬ b.path <+: a.path) ∧ b.node.start.bytes = b.node.stop.bytes ∧
    (b.node.start.bytes = a.node.start.bytes ∨ b.node.start.bytes = a.node.stop.bytes)

instance (a b : Site) : Decidable (a.Encloses b) :=
  inferInstanceAs (Decidable (_ ∧ _))

instance (a b : Site) : Decidable (a.Touches b) :=
  inferInstanceAs (Decidable (_ ∧ _ ∧ _))

theorem eq_of_path {root : Node} (ha : a ∈ root.sites) (hb : b ∈ root.sites)
    (h : a.path = b.path) : a = b := by
  obtain ⟨p, n⟩ := a
  obtain ⟨q, m⟩ := b
  obtain rfl : p = q := h
  rw [Node.mem_sites] at ha hb
  rw [Option.some.inj (ha.symm.trans hb)]

/-- Nothing is inside a missing token. -/
theorem not_isMissing_of_isPrefix (h : t.Whole input) (ha : a ∈ (Node.root t).sites)
    (hb : b ∈ (Node.root t).sites) (hba : b.path <+: a.path) (hne : b.path ≠ a.path) :
    ¬ b.node.isMissing := by
  intro hmissing
  have hleaf := (Issue.missing_of_mem_root h (Node.mem_nodes_of_mem_sites hb) hmissing).1
  obtain ⟨r, hr⟩ := hba
  have ha' := Node.mem_sites.1 ha
  rw [← hr, Node.at?_append, Node.mem_sites.1 hb, Option.bind_some] at ha'
  rcases r with _ | ⟨i, r⟩
  · exact hne (by simpa using hr)
  · simp [Node.at?, hleaf] at ha'

theorem Encloses.precedes {root : Node} (hroot : root.Nested) (ha : root.at? a.path = some a.node)
    (hb : root.at? b.path = some b.node) (hmissing : a.node.isMissing = false)
    (h : a.Encloses b) : a.Precedes b ∧ b.node.stop.bytes ≤ a.node.stop.bytes := by
  have hin := hroot.within_of_isPrefix ha hb h.1
  refine ⟨(precedes_iff hin.2).2 ⟨hin.1, fun _ _ => ?_⟩, hin.2⟩
  cases hm : b.node.isMissing
  · exact .inr ⟨hmissing.trans hm.symm, lt_of_isPrefix h.1 h.2⟩
  · exact .inl ⟨hmissing, hm⟩

/-- Text that does not fit has a flaw left out if it is around it. Otherwise the flaw takes no room
and lies at an end of that text, or right there if neither takes room. -/
theorem precedes_iff_encloses_or_touches (h : t.Whole input) (ha : a ∈ (Node.root t).sites)
    (hb : b ∈ (Node.root t).sites) (hmissing : a.node.isMissing = false) :
    (a.Precedes b ∧ b.node.stop.bytes ≤ a.node.stop.bytes) ↔
      a.Encloses b ∨ a.Touches b ∧ (a.node.start.bytes < a.node.stop.bytes ∨ a.Outranks b) := by
  have hroot := Node.nested_root h
  have hfair := Issue.fair_of_mem_root h (Node.mem_nodes_of_mem_sites ha)
  have hfair' := Issue.fair_of_mem_root h (Node.mem_nodes_of_mem_sites hb)
  have ha' := Node.mem_sites.1 ha
  have hb' := Node.mem_sites.1 hb
  constructor
  · rintro ⟨hprec, hle⟩
    obtain ⟨hstart, hrank⟩ := (precedes_iff hle).1 hprec
    by_cases hab : a.path <+: b.path
    · refine .inl ⟨hab, fun heq => ?_⟩
      obtain rfl := eq_of_path ha hb heq
      exact hprec.asymm hprec
    by_cases hba : b.path <+: a.path
    · -- A flaw around other text is text that does not fit, and goes before what is inside it.
      have hne : b.path ≠ a.path := fun heq => hab (heq ▸ List.prefix_rfl)
      have hin := hroot.within_of_isPrefix hb' ha' hba
      rcases hrank (by omega) (by omega) with ⟨-, hbm⟩ | ⟨-, hlt⟩
      · exact absurd hbm (not_isMissing_of_isPrefix h ha hb hba hne)
      · exact absurd hlt (List.lt_asymm (lt_of_isPrefix hba hne))
    · have hapart := hroot.apart ha' hb' hab hba
      have := hfair.1
      have := hfair'.1
      refine .inr ⟨⟨⟨hab, hba⟩, by omega, by omega⟩, ?_⟩
      by_cases hroom : a.node.start.bytes < a.node.stop.bytes
      · exact .inl hroom
      · exact .inr (hrank (by omega) (by omega))
  · rintro (hin | ⟨⟨-, hempty, hend⟩, hroom⟩)
    · exact hin.precedes hroot ha' hb' hmissing
    · have := hfair.1
      have hle : b.node.stop.bytes ≤ a.node.stop.bytes := by omega
      refine ⟨(precedes_iff hle).2 ⟨by omega, fun hstart hstop => ?_⟩, hle⟩
      exact hroom.resolve_left (by omega)

end Site

namespace Document

variable {source : String} {d : Document}

/-- In `(1:+]` a bracket is missing right after text that does not fit and that is not around it,
and yet is not among the issues. -/
theorem exists_touching : ∃ d, (parse "(1:+]").value = .ok d ∧ ∃ s ∈ d.root.sites,
    s.node.isFlaw ∧ (∀ e ∈ d.root.sites, e.node.isError → ¬ e.Encloses s) ∧
      (∃ e ∈ d.root.sites, e.node.isError ∧ e.Touches s ∧
        e.node.start.bytes < e.node.stop.bytes) ∧
      Issue.ofNode s.node ∉ (issues d.root).value := by
  obtain ⟨d, h, hdamaged, hsorted, hs⟩ := exists_of_within 1000 "(1:+]"
    (fun d => d.root.isDamaged ∧
      (Issue.damage d.root).Pairwise (fun a b => Issue.inOrder a b) ∧
      ∃ s ∈ d.root.sites, s.node.isFlaw ∧
        (∀ e ∈ d.root.sites, e.node.isError → ¬ e.Encloses s) ∧
        (∃ e ∈ d.root.sites, e.node.isError ∧ e.Touches s ∧
          e.node.start.bytes < e.node.stop.bytes) ∧
        Issue.ofNode s.node ∉ Issue.report none (Issue.damage d.root))
    (by decide +kernel)
  rw [← issues_of_pairwise hdamaged hsorted] at hs
  exact ⟨d, h, hs⟩

/-- The issues of a source are those of the sites reported. A flaw is not reported exactly if it is
inside text that does not fit, or takes no room and touches such text; of two that take no room and
touch, the one that outranks the other is reported. -/
theorem left_out_iff (h : (parse source).value = .ok d) :
    (issues d.root).value = (Issue.reported d.root).map (fun s => .ofNode s.node) ∧
    (Issue.reported d.root).Nodup ∧
    (∀ s ∈ Issue.reported d.root, s ∈ d.root.sites ∧ s.node.isFlaw) ∧
    ∀ s ∈ d.root.sites, s.node.isFlaw → (s ∉ Issue.reported d.root ↔
      ∃ e ∈ d.root.sites, e.node.isError ∧ (e.Encloses s ∨
        e.Touches s ∧ (e.node.start.bytes < e.node.stop.bytes ∨ e.Outranks s))) := by
  obtain ⟨t, -, hroot, hwhole⟩ := whole_of_parse h
  rw [hroot, value_issues, Issue.ofRoot_eq hwhole]
  have herror : ∀ n ∈ (Node.root t).nodes, n.isError → n.isMissing = false := fun n hn =>
    Issue.isMissing_of_isError hwhole hn
  have hflaws : ∀ s ∈ Issue.reported (.root t), s ∈ Issue.flaws (.root t) := fun s hs =>
    List.mem_mergeSort.1 ((Issue.keep_sublist _ _).subset hs)
  refine ⟨rfl, Issue.nodup_reported herror, fun s hs => Issue.mem_flaws.1 (hflaws s hs),
    fun s hs hflaw => ?_⟩
  rw [Issue.not_mem_reported_iff (fun n hn => Issue.fair_of_mem_root hwhole hn) herror
    (Issue.mem_flaws.2 ⟨hs, hflaw⟩)]
  constructor
  · rintro ⟨e, he, hmissing, hcover⟩
    obtain ⟨he, heflaw⟩ := Issue.mem_flaws.1 he
    refine ⟨e, he, by simpa [Node.isFlaw, hmissing] using heflaw, ?_⟩
    exact (Site.precedes_iff_encloses_or_touches hwhole he hs hmissing).1 hcover
  · rintro ⟨e, he, heerror, hcase⟩
    have hmissing := herror e.node (Node.mem_nodes_of_mem_sites he) heerror
    refine ⟨e, Issue.mem_flaws.2 ⟨he, by simp [Node.isFlaw, heerror]⟩, hmissing, ?_⟩
    exact (Site.precedes_iff_encloses_or_touches hwhole he hs hmissing).2 hcase

theorem left_out_after_error : ∃ d, (parse "(1:+]").value = .ok d ∧ ∃ s ∈ d.root.sites,
    s.node.isFlaw ∧ s ∉ Issue.reported d.root ∧
      ∃ e ∈ d.root.sites, e.node.isError ∧ e.Touches s := by
  obtain ⟨d, h, s, hs, hflaw, -, ⟨e, he, herror, htouch, hroom⟩, -⟩ := exists_touching
  refine ⟨d, h, s, hs, hflaw, ?_, e, he, herror, htouch⟩
  exact ((left_out_iff h).2.2.2 s hs hflaw).2 ⟨e, he, herror, .inr ⟨htouch, .inl hroom⟩⟩

/-- Not only what is inside text that does not fit is left out. -/
theorem left_out_without_enclosing : ¬ ∀ source d, (parse source).value = .ok d →
    ∀ s ∈ d.root.sites, s.node.isFlaw → Issue.ofNode s.node ∉ (issues d.root).value →
      ∃ e ∈ d.root.sites, e.node.isError ∧ e.Encloses s := by
  intro h
  obtain ⟨d, hd, s, hs, hflaw, hfree, -, hnot⟩ := exists_touching
  obtain ⟨e, he, herror, hin⟩ := h _ d hd s hs hflaw hnot
  exact hfree e he herror hin

end Document

end CalcTree
