import CalcTree.Proofs.Coverage

/-!
# Issues do not overlap

A flaw is compared with the last issue only, and yet nothing is reported that lies within any text
that does not fit and goes before it, reported or not (`Issue.reported_eq_uncovered`). For if the
last issue does not reach as far as one before it, it lies within that one, and was left out.

So issues come in the order of their starts, the unexpected ones one after the other, and no issue
lies within an unexpected one. All flaws that are left out do (`Document.issues_eq_uncovered`).
-/

namespace CalcTree

/-- Whether the bytes of a node are among those of another. -/
def Node.Within (n m : Node) : Prop :=
  m.start.bytes ≤ n.start.bytes ∧ n.stop.bytes ≤ m.stop.bytes

instance (n m : Node) : Decidable (n.Within m) :=
  inferInstanceAs (Decidable (_ ∧ _))

namespace Issue

/-- Whether the bytes of an issue are among those of another. -/
def Within (i j : Issue) : Prop :=
  j.start.bytes ≤ i.start.bytes ∧ i.stop ≤ j.stop

/-- All flaws of a tree in the order of reports. Where several start and end together, text that
does not fit goes before missing tokens, and else what is first in the tree. -/
def inLine (root : Node) : List Site :=
  (flaws root).mergeSort fun a b => inOrder a.node b.node

/-- Whether some text that does not fit, among these, takes in a site. -/
def Covered (before : List Site) (s : Site) : Prop :=
  ∃ e ∈ before, e.node.isError ∧ s.node.Within e.node

instance (before : List Site) (s : Site) : Decidable (Covered before s) :=
  inferInstanceAs (Decidable (∃ e ∈ before, _ ∧ _))

/-- The sites of a row that no text that does not fit takes in, of all that goes before them. -/
def uncovered (ss : List Site) : List Site :=
  (ss.zipIdx.filter fun p => ¬ Covered (ss.take p.2) p.1).map Prod.fst

variable {s : Site} {before ss : List Site}

theorem uncovered_concat (before : List Site) (s : Site) :
    uncovered (before ++ [s]) = uncovered before ++ if Covered before s then [] else [s] := by
  have hfront : ∀ p ∈ before.zipIdx, (before ++ [s]).take p.2 = before.take p.2 := by
    intro p hp
    have hlt := (List.mem_zipIdx hp).2.1
    exact List.take_append_of_le_length (by omega)
  have hlast : (before ++ [s]).take before.length = before := List.take_left
  rw [uncovered, List.zipIdx_append, List.filter_append, List.map_append]
  congr 1
  · rw [uncovered]
    congr 1
    exact List.filter_congr fun p hp => by rw [hfront p hp]
  · by_cases hs : Covered before s <;> simp [hs, hlast]

theorem uncovered_sublist (ss : List Site) : (uncovered ss).Sublist ss := by
  have h : (uncovered ss).Sublist (ss.zipIdx.map Prod.fst) := List.filter_sublist.map Prod.fst
  rwa [List.zipIdx_map_fst] at h

/-- What is kept lies within no text that does not fit and goes before it. -/
theorem pairwise_uncovered (ss : List Site) :
    (uncovered ss).Pairwise fun a b => a.node.isError → ¬ b.node.Within a.node := by
  induction ss using List.reverseRecOn with
  | nil => exact .nil
  | append_singleton before s ih =>
    rw [uncovered_concat, List.pairwise_append]
    refine ⟨ih, by split_ifs <;> simp, fun a ha b hb herror hin => ?_⟩
    split_ifs at hb with hs
    · cases hb
    · obtain rfl := List.mem_singleton.1 hb
      exact hs ⟨a, (uncovered_sublist before).subset ha, herror, hin⟩

/-- Among flaws in order, the last one reported takes in all that any other takes in. -/
theorem dropped_iff_covered
    (hsorted : (before ++ [s]).Pairwise fun a b => inOrder a.node b.node)
    (hfair : ∀ r ∈ before ++ [s], Fair r.node)
    (hflaw : ∀ e ∈ before, e.node.isMissing = false ↔ e.node.isError) :
    dropped before s ↔ Covered before s := by
  constructor
  · intro h
    obtain ⟨l, hl, hmissing, hin⟩ := dropped_iff_exists_last.1 h
    have hmem := (keep_sublist _ _).subset (List.mem_of_getLast? hl)
    exact ⟨l, hmem, (hflaw l hmem).1 hmissing, hin⟩
  · rintro ⟨e, he, herror, -, hle⟩
    exact dropped_of_exists hsorted hfair he ((hflaw e he).2 herror) hle

theorem keep_eq_uncovered (hsorted : ss.Pairwise fun a b => inOrder a.node b.node)
    (hfair : ∀ r ∈ ss, Fair r.node)
    (hflaw : ∀ e ∈ ss, e.node.isMissing = false ↔ e.node.isError) :
    keep none ss = uncovered ss := by
  induction ss using List.reverseRecOn with
  | nil => rfl
  | append_singleton before s ih =>
    have hfront : ∀ r ∈ before, r ∈ before ++ [s] := fun r hr => List.mem_append_left _ hr
    have hcovered := dropped_iff_covered hsorted hfair fun e he => hflaw e (hfront e he)
    have ih := ih (List.pairwise_append.1 hsorted).1 (fun r hr => hfair r (hfront r hr))
      fun e he => hflaw e (hfront e he)
    rw [keep_none_append, uncovered_concat, ih]
    by_cases hs : Covered before s
    · rw [if_pos hs, if_pos (hcovered.2 hs), keep]
    · rw [if_neg hs, if_neg fun hd => hs (hcovered.1 hd), keep]

/-- What is left out lies within text that does not fit and is reported. -/
theorem mem_keep_or_covered (hs : s ∈ ss) :
    s ∈ keep none ss ∨ ∃ e ∈ keep none ss, e.node.isMissing = false ∧ s.node.Within e.node := by
  obtain ⟨before, after, rfl⟩ := List.append_of_mem hs
  rw [keep_none_append]
  by_cases hd : dropped before s
  · obtain ⟨l, hl, hmissing, hin⟩ := dropped_iff_exists_last.1 hd
    exact .inr ⟨l, List.mem_append_left _ (List.mem_of_getLast? hl), hmissing, hin⟩
  · rw [if_neg hd]
    exact .inl (by simp)

/-! ## Whole trees -/

section Whole

variable {t : Tree} {input : Scan} {a b : Site}

theorem mem_inLine {root : Node} : s ∈ inLine root ↔ s ∈ root.sites ∧ s.node.isFlaw :=
  List.mem_mergeSort.trans mem_flaws

theorem isMissing_eq_false_iff (h : t.Whole input) (hs : s ∈ inLine (.root t)) :
    s.node.isMissing = false ↔ s.node.isError := by
  obtain ⟨hs, hflaw⟩ := mem_inLine.1 hs
  refine ⟨fun hmissing => ?_, isMissing_of_isError h (Node.mem_nodes_of_mem_sites hs)⟩
  simpa [Node.isFlaw, hmissing] using hflaw

theorem pairwise_inLine (h : t.Whole input) : (inLine (.root t)).Pairwise Site.Precedes :=
  pairwise_precedes (pairwise_flaws fun _ hn => isMissing_of_isError h hn)

theorem reported_eq_uncovered (h : t.Whole input) :
    reported (.root t) = uncovered (inLine (.root t)) := by
  refine keep_eq_uncovered ((pairwise_inLine h).imp fun hab => hab.1) (fun r hr => ?_)
    fun e he => isMissing_eq_false_iff h he
  exact fair_of_mem_root h (Node.mem_nodes_of_mem_sites (mem_inLine.1 hr).1)

/-- Text that does not fit goes before all that it takes in. -/
theorem not_within_of_precedes (h : t.Whole input) (ha : a ∈ inLine (.root t))
    (hb : b ∈ inLine (.root t)) (hab : a.Precedes b)
    (hfree : a.node.isError → ¬ b.node.Within a.node) (herror : b.node.isError) :
    ¬ a.node.Within b.node := by
  rintro ⟨hstart, hstop⟩
  have horder := inOrder_iff.1 hab.1
  rcases hab.2 (inOrder_iff.2 (by omega)) with ⟨-, hmissing⟩ | ⟨hsame, -⟩
  · rw [(isMissing_eq_false_iff h hb).2 herror] at hmissing
    cases hmissing
  · -- Both are text that does not fit, and take up the same bytes.
    rw [(isMissing_eq_false_iff h hb).2 herror, isMissing_eq_false_iff h ha] at hsame
    exact hfree hsame ⟨by omega, by omega⟩

/-- Text that does not fit ends before other such text starts, if neither takes in the other. -/
theorem stop_le_start (h : t.Whole input) (ha : a ∈ inLine (.root t)) (hb : b ∈ inLine (.root t))
    (hab : a.Precedes b) (hfree : ¬ b.node.Within a.node) (hfree' : ¬ a.node.Within b.node) :
    a.node.stop.bytes ≤ b.node.start.bytes := by
  have hroot := Node.nested_root h
  have hafair := (fair_of_mem_root h (Node.mem_nodes_of_mem_sites (mem_inLine.1 ha).1)).1
  have hbfair := (fair_of_mem_root h (Node.mem_nodes_of_mem_sites (mem_inLine.1 hb).1)).1
  have horder := inOrder_iff.1 hab.1
  have hasite := Node.mem_sites.1 (mem_inLine.1 ha).1
  have hbsite := Node.mem_sites.1 (mem_inLine.1 hb).1
  have hapart := hroot.apart hasite hbsite
    (fun hin => hfree (hroot.within_of_isPrefix hasite hbsite hin))
    fun hin => hfree' (hroot.within_of_isPrefix hbsite hasite hin)
  rcases hapart with hle | hle
  · exact hle
  · exact absurd ⟨by omega, by omega⟩ hfree

/-- What is reported, two at a time. -/
theorem pairwise_reported (h : t.Whole input) : (reported (.root t)).Pairwise fun a b =>
    a.node.start.bytes ≤ b.node.start.bytes ∧ (a.node.isError → ¬ b.node.Within a.node) ∧
      (b.node.isError → ¬ a.node.Within b.node) ∧
      (a.node.isError → b.node.isError → a.node.stop.bytes ≤ b.node.start.bytes) := by
  rw [reported_eq_uncovered h]
  have hprec := (pairwise_inLine h).sublist (uncovered_sublist _)
  refine (hprec.and (pairwise_uncovered _)).imp_of_mem fun {a b} ha hb hab => ?_
  obtain ⟨hab, hfree⟩ := hab
  have ha := (uncovered_sublist _).subset ha
  have hb := (uncovered_sublist _).subset hb
  have hfree' := not_within_of_precedes h ha hb hab hfree
  refine ⟨?_, hfree, hfree', fun hae hbe => ?_⟩
  · have := inOrder_iff.1 hab.1
    omega
  · exact stop_le_start h ha hb hab (hfree hae) (hfree' hbe)

theorem kind_ofNode (n : Node) : (ofNode n).kind = .unexpected ↔ n.isMissing = false := by
  cases hm : n.isMissing <;> simp [ofNode, hm]

end Whole

end Issue

namespace Document

variable {source : String} {d : Document}

/-- The issues of a source are its flaws in the order of reports, without those that lie within
text that does not fit and goes before them. They come in the order of their starts. No issue lies
within another one that is unexpected, the unexpected ones do not overlap, and every flaw is
reported or lies within one of these. -/
theorem issues_eq_uncovered (h : (parse source).value = .ok d) :
    (issues d.root).value =
      (Issue.uncovered (Issue.inLine d.root)).map (fun s => .ofNode s.node) ∧
    ((issues d.root).value.Pairwise fun i j => i.start.bytes ≤ j.start.bytes) ∧
    ((issues d.root).value.Pairwise fun i j =>
      (i.kind = .unexpected → ¬ j.Within i) ∧ (j.kind = .unexpected → ¬ i.Within j)) ∧
    (((issues d.root).value.filter (·.kind = .unexpected)).Pairwise fun i j =>
      i.stop ≤ j.start.bytes) ∧
    ∀ s ∈ d.root.sites, s.node.isFlaw → s ∈ Issue.uncovered (Issue.inLine d.root) ∨
      ∃ i ∈ (issues d.root).value, i.kind = .unexpected ∧ (Issue.ofNode s.node).Within i := by
  obtain ⟨t, -, hroot, hwhole⟩ := whole_of_parse h
  rw [hroot, value_issues, Issue.ofRoot_eq hwhole, ← Issue.reported_eq_uncovered hwhole]
  have hflaw : ∀ s ∈ Issue.reported (.root t), s.node.isMissing = false ↔ s.node.isError :=
    fun s hs => Issue.isMissing_eq_false_iff hwhole ((Issue.keep_sublist _ _).subset hs)
  have hpairs := Issue.pairwise_reported hwhole
  refine ⟨rfl, ?_, ?_, ?_, fun s hs hsflaw => ?_⟩
  · rw [List.pairwise_map]
    exact hpairs.imp fun hab => hab.1
  · rw [List.pairwise_map]
    refine hpairs.imp_of_mem fun {a b} ha hb hab => ?_
    rw [Issue.kind_ofNode, Issue.kind_ofNode, hflaw a ha, hflaw b hb]
    exact ⟨hab.2.1, hab.2.2.1⟩
  · rw [List.filter_map, List.pairwise_map]
    refine (hpairs.filter _).imp_of_mem fun {a b} ha hb hab => ?_
    simp only [List.mem_filter, Function.comp_apply, decide_eq_true_eq, Issue.kind_ofNode] at ha hb
    exact hab.2.2.2 ((hflaw a ha.1).1 ha.2) ((hflaw b hb.1).1 hb.2)
  · rcases Issue.mem_keep_or_covered (Issue.mem_inLine.2 ⟨hs, hsflaw⟩) with
      hkept | ⟨e, he, hmissing, hin⟩
    · exact .inl hkept
    · exact .inr ⟨_, List.mem_map_of_mem he, (Issue.kind_ofNode e.node).2 hmissing, hin⟩

theorem issues_eq_uncovered_after_error : ∃ d, (parse "(1:+]").value = .ok d ∧
    (((issues d.root).value.filter (·.kind = .unexpected)).Pairwise fun i j =>
      i.stop ≤ j.start.bytes) ∧
    ∃ s ∈ d.root.sites, s.node.isFlaw ∧ s ∉ Issue.uncovered (Issue.inLine d.root) ∧
      ∃ i ∈ (issues d.root).value, i.kind = .unexpected ∧ (Issue.ofNode s.node).Within i := by
  obtain ⟨d, h, s, hs, hflaw, -, -, hnot⟩ := exists_touching
  obtain ⟨hissues, -, -, happart, hall⟩ := issues_eq_uncovered h
  have hleft : s ∉ Issue.uncovered (Issue.inLine d.root) := fun hkept => by
    rw [hissues] at hnot
    exact hnot (List.mem_map_of_mem hkept)
  exact ⟨d, h, happart, s, hs, hflaw, hleft, (hall s hs hflaw).resolve_left hleft⟩

end Document

end CalcTree
