import CalcTree.Proofs.Reduction
import CalcTree.Run.Recovery

/-!
# Recovery keeps runs sound

Whatever a head tries in recovery, its stack graph stays sound and its heads stand on live
vertices: all reductions it could do (`Sound.reduceAll`), going back to an earlier state
(`Sound.goBack`), passing over the next tree (`Sound.skip`), and making up a token
(`Sound.insertMissing`). Recovery never starts from the accepting state, and no reduction that a
token could call for leads there, so no whole file gets into an error node.

The loop over all reductions always comes to its own end: with more turns it would do the same
(`reduceLoop_eq_reduceAll`).
-/

namespace CalcTree

namespace Run

variable {input : Scan} {r r' r₀ : Run} {v w start old : Nat} {wanted : Option Terminal}

theorem reducesAny?_eq_some {s : State} {ts : List Terminal} {p : Production}
    (h : reducesAny? s ts = some p) :
    s ≠ .error ∧ s.row.reduction = some p ∧ p.lhs ≠ .sourceFile := by
  obtain ⟨t, -, ht⟩ := List.exists_of_findSome?_eq_some h
  split at ht
  · rename_i q hq
    split_ifs at ht
    obtain rfl := Option.some.inj ht
    obtain ⟨hs, hp, -⟩ := State.reduction_of_action hq
    exact ⟨hs, hp, State.lhs_ne_sourceFile hq⟩
  · simp at ht

/-! ## All reductions -/

/-- What the loop over all reductions keeps: only the head it started with and those from `old` on
change, and these go on reading. The first of them is dropped only for a wanted token. -/
structure Reducing (input : Scan) (start old : Nat) (wanted : Option Terminal) (r₀ r : Run) :
    Prop where
  grown : r₀.Grown input r
  frame : ∀ i < old, i ≠ start → r.tops[i]? = r₀.tops[i]?
  good : ∀ i, i = start ∨ old ≤ i → r.graph.Good (r.tops[i]?.getD 0)
  length : old ≤ r.heads.length ∨ wanted.isSome ∧ start = r.heads.length ∧ old ≤ start + 1

theorem Reducing.set {u : Nat} (h : Reducing input start old wanted r₀ r) (hr : r.Grown input r')
    (htops : r'.tops = r.tops.set v u) (hu : r'.graph.Good u) (hv : v = start ∨ old ≤ v) :
    Reducing input start old wanted r₀ r' := by
  refine ⟨h.grown.trans hr, fun i hi hne => ?_, fun i hi => ?_, ?_⟩
  · rw [htops, List.getElem?_set_ne (by omega)]
    exact h.frame i hi hne
  · rw [htops]
    by_cases hvi : v = i
    · subst hvi
      by_cases hlt : v < r.tops.length
      · rw [List.getElem?_set_self hlt]
        exact hu
      · have hnone : (r.tops.set v u)[v]? = none := by simpa using hlt
        rw [hnone]
        exact hr.sound.graph.good_bottom
    · rw [List.getElem?_set_ne hvi]
      exact (h.good i hi).mono hr.ext
  · rw [← length_tops, htops, List.length_set, length_tops]
    exact h.length

theorem Reducing.erase (h : Reducing input start old wanted r₀ r) (hr : r.Grown input r')
    (htops : r'.tops = r.tops.eraseIdx v) (hlt : v < r.heads.length)
    (hv : old ≤ v ∨ wanted.isSome ∧ v = start ∧ old ≤ start + 1) :
    Reducing input start old wanted r₀ r' := by
  refine ⟨h.grown.trans hr, fun i hi hne => ?_, fun i hi => ?_, ?_⟩
  · rw [htops, List.getElem?_eraseIdx_of_lt (by omega)]
    exact h.frame i hi hne
  · rw [htops, List.getElem?_eraseIdx]
    split_ifs with hiv
    · exact (h.good i hi).mono hr.ext
    · exact (h.good (i + 1) (by omega)).mono hr.ext
  · have hlen : r'.heads.length = r.heads.length - 1 := by
      rw [← length_tops, htops, List.length_eraseIdx_of_lt (by simpa using hlt), length_tops]
    rcases Nat.lt_or_ge r'.heads.length old with hlt' | hge
    · rcases hv with hv | ⟨hw, rfl, hle⟩
      · omega
      · exact .inr ⟨hw, by omega, hle⟩
    · exact .inl hge

theorem Reducing.added (h : Reducing input start old wanted r₀ r) (hr : r.Added input True r') :
    Reducing input start old wanted r₀ r' := by
  obtain ⟨hgrown, new, htops, hgood⟩ := hr
  have hlen : r'.heads.length = r.heads.length + new.length := by
    rw [← length_tops, htops, List.length_append, length_tops]
  refine ⟨h.grown.trans hgrown, fun i hi hne => ?_, fun i hi => ?_, ?_⟩
  · rw [htops, List.getElem?_append_left]
    · exact h.frame i hi hne
    · have := h.length
      rw [length_tops]
      omega
  · rw [htops]
    by_cases hlt : i < r.tops.length
    · rw [List.getElem?_append_left hlt]
      exact (h.good i hi).mono hgrown.ext
    · rw [List.getElem?_append_right (by omega)]
      rcases hnew : new[i - r.tops.length]? with _ | u
      · exact hgrown.sound.graph.good_bottom
      · exact hgood trivial u (List.mem_of_getElem? hnew)
  · rcases Nat.lt_or_ge r'.heads.length old with hlt | hge
    · rcases h.length with hlen' | ⟨hw, hstart, hle⟩
      · omega
      · exact .inr ⟨hw, by omega, hle⟩
    · exact .inl hge

theorem Reducing.renumber (h : Reducing input start old wanted r₀ r) (hw : w < r.heads.length)
    (hold : old ≤ w) (hv : v = start ∨ old ≤ v) :
    Reducing input start old wanted r₀ (r.renumber w v) := by
  have hset : Reducing input start old wanted r₀
      (r.setHead v { r.head w with marks := (r.head w).marks.or (r.head v).marks }) := by
    refine h.set ⟨h.grown.sound.setHead (h.grown.sound.head w), .refl _⟩ tops_setHead ?_ hv
    exact top_head r w ▸ h.good w (.inr hold)
  refine hset.erase ⟨h.grown.sound.renumber, .refl _⟩ ?_ ?_ (.inl hold)
  · exact tops_remove
  · simpa [Run.setHead] using hw

theorem length_lt_of_reduce {p : Production} (h : (r.reduce v p).2 = some w) :
    w = r.heads.length ∧ w < (r.reduce v p).1.heads.length := by
  simp only [Run.reduce] at h ⊢
  split_ifs at h with hlt
  obtain rfl := Option.some.inj h
  exact ⟨rfl, hlt⟩

theorem Reducing.reduce (hi : input.Spaced) (h : Reducing input start old wanted r₀ r)
    (hv : v = start ∨ old ≤ v) {p : Production} {ts : List Terminal}
    (hp : reducesAny? (r.state v) ts = some p) :
    Reducing input start old wanted r₀ (r.reduce v p).1 ∧
      r.heads.length ≤ (r.reduce v p).1.heads.length := by
  obtain ⟨hs, hred, hfile⟩ := reducesAny?_eq_some hp
  have hgood : r.graph.Good (r.head v).top := top_head r v ▸ h.good v hv
  obtain ⟨hgrown, new, htops, hnew⟩ :=
    h.grown.sound.reduce hi hgood.1 hs hred fun hl => absurd hl hfile
  refine ⟨h.added ⟨hgrown, new, htops, fun _ => hnew hfile⟩, ?_⟩
  rw [← length_tops, ← length_tops, htops, List.length_append]
  omega

/-- A head that cannot get to the wanted token is dropped. -/
theorem Reducing.drop (hwanted : wanted.isSome → old ≤ start + 1)
    (h : Reducing input start old wanted r₀ r) (hlt : v < r.heads.length)
    (hv : v = start ∨ old ≤ v) :
    Reducing input start old wanted r₀ (if wanted.isSome then r.remove v else r) := by
  split_ifs with hw
  · refine h.erase ⟨h.grown.sound.remove, .refl _⟩ tops_remove hlt ?_
    rcases hv with rfl | hv
    · exact .inr ⟨hw, rfl, hwanted hw⟩
    · exact .inl hv
  · exact h

/-- In the loop over all reductions, no old head merges into another. -/
theorem lt_of_mergeAny (hm : r.mergeAny? ((List.range v).drop old) v = some r') : old < v := by
  obtain ⟨u, hu, -⟩ := List.exists_of_findSome?_eq_some hm
  have hlen := List.length_pos_of_mem hu
  rw [List.length_drop, List.length_range] at hlen
  omega

theorem Reducing.loop (hi : input.Spaced)
    (hwanted : wanted.isSome → old ≤ start + 1) :
    ∀ (fuel i v : Nat) (able : Bool) {r : Run}, Reducing input start old wanted r₀ r →
      (v = start ∨ old ≤ v) →
      Reducing input start old wanted r₀ (reduceLoop start old wanted fuel i v able r).2
  | 0, _, _, _, _, h, _ => h
  | fuel + 1, i, v, able, r, h, hv => by
    unfold reduceLoop
    simp only []
    by_cases hlt : r.heads.length ≤ v
    · rw [if_pos hlt]
      exact h
    rw [if_neg hlt]
    rw [Nat.not_le] at hlt
    split
    · rename_i r' hm
      obtain ⟨hgrown, htops⟩ := h.grown.sound.mergeAny hi hm
      have hold : old ≤ v := Nat.le_of_lt (lt_of_mergeAny hm)
      exact Reducing.loop hi hwanted fuel _ v able (h.erase hgrown htops hlt (.inl hold)) hv
    have hnext : (if v = start then r.heads.length else v + 1) = start ∨
        old ≤ if v = start then r.heads.length else v + 1 := by
      have := h.length
      split_ifs <;> omega
    rcases hp : reducesAny? (r.state v) ((wanted.map fun t => [t]).getD Terminal.all) with _ | p
    · simp only []
      split
      · exact Reducing.loop hi hwanted fuel _ _ true h hnext
      · exact Reducing.loop hi hwanted fuel _ _ able (h.drop hwanted hlt hv) hnext
    · obtain ⟨hr, hlen⟩ := h.reduce hi hv hp
      simp only []
      split
      · exact Reducing.loop hi hwanted fuel _ _ true hr hnext
      split
      · rename_i w hred _
        obtain ⟨rfl, hw⟩ := length_lt_of_reduce hred
        refine Reducing.loop hi hwanted fuel _ v able (hr.renumber hw ?_ hv) hv
        have := h.length
        omega
      · exact Reducing.loop hi hwanted fuel _ _ able
          (hr.drop hwanted (Nat.lt_of_lt_of_le hlt hlen) hv) hnext

/-- All reductions of a head that goes on reading. -/
theorem Sound.reduceAll (hi : input.Spaced) (h : r.Sound input) (v : Nat)
    (wanted : Option Terminal) (hv : r.graph.Good (r.head v).top)
    (hwanted : wanted.isSome → r.heads.length ≤ v + 1) :
    Reducing input v r.heads.length wanted r (r.reduceAll v wanted).2 := by
  refine Reducing.loop hi hwanted 1000 0 v false ⟨h.grown, fun _ _ _ => rfl, fun i hi => ?_,
    .inl (Nat.le_refl _)⟩ (.inl rfl)
  rcases hi with rfl | hi
  · exact top_head r i ▸ hv
  · have hnone : r.tops[i]? = none := by simpa using hi
    rw [hnone]
    exact h.graph.good_bottom

/-! ## How long the reductions take -/

theorem length_of_mergeAny {vs : List Nat} (hw : w < r.heads.length)
    (hm : r.mergeAny? vs w = some r') : r'.heads.length + 1 = r.heads.length := by
  obtain ⟨u, -, hmerge⟩ := List.exists_of_findSome?_eq_some hm
  unfold merge? at hmerge
  split_ifs at hmerge
  obtain rfl := Option.some.inj hmerge
  simp only [remove, List.length_eraseIdx, List.length_set, if_pos hw]
  omega

theorem length_addReduced_le (p : Production) (pop : Graph.Pop) :
    (addReduced v p r pop).heads.length ≤ max r.heads.length (maxHeads + headOverflow + 1) := by
  unfold addReduced
  split
  · exact Nat.le_max_left _ _
  · rename_i first others _
    simp only []
    split_ifs with hmany
    · exact Nat.le_max_left _ _
    · generalize hadd : Run.addHead _ _ = added
      have hlength : added.heads.length = r.heads.length + 1 := by
        rw [← hadd, addHead, List.length_append, List.length_singleton]
      rcases hm : added.mergeAny? _ _ with _ | merged
      · rw [Option.getD_none, hlength]
        omega
      · have hmerged := length_of_mergeAny (by omega) hm
        rw [Option.getD_some]
        omega

theorem length_reduce_le (v : Nat) (p : Production) :
    (r.reduce v p).1.heads.length ≤ max r.heads.length (maxHeads + headOverflow + 1) := by
  simp only [reduce]
  generalize r.graph.pop _ _ = pops
  induction pops generalizing r with
  | nil => exact Nat.le_max_left _ _
  | cons pop pops ih =>
    have hadd := length_addReduced_le (r := r) (v := v) p pop
    have hrest := ih (r := addReduced v p r pop)
    rw [List.foldl_cons]
    omega

/-- What a turn of the loop over all reductions does: a head is merged into another, or one of the
first turns replaces a head by what it is reduced to, or the loop passes on to the next head. -/
theorem reduceLoop_turn (start old : Nat) (wanted : Option Terminal) (i : Nat) (able : Bool)
    (hlt : v < r.heads.length) :
    ∃ v' able' r', (∀ fuel, reduceLoop start old wanted (fuel + 1) i v able r =
        reduceLoop start old wanted fuel (i + 1) v' able' r') ∧
      r'.heads.length ≤ max r.heads.length (maxHeads + headOverflow + 1) ∧
      (v' = v ∧ old < v ∧ r'.heads.length < r.heads.length ∨
        v' = v ∧ i < maxHeads ∧ r.heads.length < maxHeads + headOverflow + 1 ∨
        v' = if v = start then r.heads.length else v + 1) := by
  simp only [reduceLoop, if_neg (Nat.not_le.2 hlt)]
  generalize (if v = start then r.heads.length else v + 1) = next
  rcases hm : r.mergeAny? ((List.range v).drop old) v with _ | merged
  · simp only []
    generalize (wanted.map fun t => [t]).getD Terminal.all = tokens
    have hdrop (r' : Run) : (if wanted.isSome then r'.remove v else r').heads.length ≤
        r'.heads.length := by
      split_ifs
      · exact List.length_eraseIdx_le _ _
      · exact Nat.le_refl _
    rcases reducesAny? (r.state v) tokens with _ | p
    · rcases shiftsAny (r.state v) tokens with _ | _
      · exact ⟨next, able, _, fun _ => rfl, Nat.le_trans (hdrop r) (Nat.le_max_left _ _),
          .inr (.inr rfl)⟩
      · exact ⟨next, true, r, fun _ => rfl, Nat.le_max_left _ _, .inr (.inr rfl)⟩
    · have hlength := length_reduce_le (r := r) v p
      rcases shiftsAny (r.state v) tokens with _ | _
      · rcases hfirst : (r.reduce v p).2 with _ | w
        · exact ⟨next, able, _, fun _ => rfl, Nat.le_trans (hdrop _) hlength, .inr (.inr rfl)⟩
        · obtain ⟨rfl, hw⟩ := length_lt_of_reduce hfirst
          by_cases hi : i < maxHeads
          · refine ⟨v, able, (r.reduce v p).1.renumber r.heads.length v, fun _ => ?_, ?_,
              .inr (.inl ⟨rfl, hi, by omega⟩)⟩
            · simp only [hi, decide_true]
              rfl
            · refine Nat.le_trans (List.length_eraseIdx_le _ _) ?_
              rwa [setHead, List.length_set]
          · refine ⟨next, able, _, fun _ => ?_, Nat.le_trans (hdrop _) hlength, .inr (.inr rfl)⟩
            simp only [hi, decide_false]
            rfl
      · exact ⟨next, true, _, fun _ => rfl, hlength, .inr (.inr rfl)⟩
  · have hlength := length_of_mergeAny hlt hm
    exact ⟨v, able, merged, fun _ => rfl, by omega, .inl ⟨rfl, lt_of_mergeAny hm, by omega⟩⟩

/-- How many turns the loop over all reductions can still take while there are few heads. To
replace a head or to pass on counts for twelve, as it may add ten heads that are merged later. -/
def turnsLeft (i v heads : Nat) : Nat :=
  12 * (maxHeads - i + (maxHeads + headOverflow + 1 - v)) + heads + 1

theorem reduceLoop_eq_of_le : ∀ {fuel fuel' i v : Nat} {able : Bool} {r : Run},
    r.heads.length ≤ maxHeads + headOverflow + 1 → turnsLeft i v r.heads.length ≤ fuel →
    fuel ≤ fuel' → reduceLoop start old wanted fuel' i v able r =
      reduceLoop start old wanted fuel i v able r
  | 0, _, _, _, _, _, _, h, _ => nomatch h
  | fuel + 1, 0, _, _, _, _, _, _, h => nomatch h
  | fuel + 1, fuel' + 1, i, v, able, r, hfew, hfuel, hle => by
    by_cases hlt : v < r.heads.length
    · obtain ⟨v', able', r', hturn, hlength, hcases⟩ :=
        reduceLoop_turn start old wanted i able hlt
      have hmax : maxHeads = 6 ∧ headOverflow = 4 := ⟨rfl, rfl⟩
      have hfew' : r'.heads.length ≤ maxHeads + headOverflow + 1 := by omega
      rw [hturn, hturn]
      refine reduceLoop_eq_of_le hfew' ?_ (Nat.le_of_succ_le_succ hle)
      unfold turnsLeft at hfuel ⊢
      split_ifs at hcases <;> omega
    · simp only [reduceLoop, if_pos (Nat.not_lt.1 hlt)]

/-- Where there are many heads already, reductions add none, and the loop is over at once. -/
theorem reduceLoop_of_many (hmany : maxHeads + headOverflow + 1 ≤ r.heads.length) (fuel : Nat) :
    reduceLoop v r.heads.length wanted (fuel + 2) 0 v false r =
      reduceLoop v r.heads.length wanted 2 0 v false r := by
  by_cases hlt : v < r.heads.length
  · obtain ⟨v', able', r', hturn, hlength, hcases⟩ :=
      reduceLoop_turn v r.heads.length wanted 0 false hlt
    have hover : r'.heads.length ≤ v' := by
      rw [if_pos rfl] at hcases
      omega
    rw [hturn, hturn]
    simp only [reduceLoop, if_pos hover]
  · simp only [reduceLoop, if_pos (Nat.not_lt.1 hlt)]

/-- The loop over all reductions comes to its end before it runs out of turns. -/
theorem reduceLoop_eq_reduceAll (r : Run) (v : Nat) (wanted : Option Terminal) {fuel : Nat}
    (h : 1000 ≤ fuel) :
    reduceLoop v r.heads.length wanted fuel 0 v false r = r.reduceAll v wanted := by
  rcases Nat.le_total r.heads.length (maxHeads + headOverflow + 1) with hfew | hmany
  · refine reduceLoop_eq_of_le hfew ?_ h
    have hmax : maxHeads = 6 ∧ headOverflow = 4 := ⟨rfl, rfl⟩
    unfold turnsLeft
    omega
  · obtain ⟨more, rfl⟩ := Nat.exists_eq_add_of_le' h
    exact (reduceLoop_of_many hmany (more + 998)).trans (reduceLoop_of_many hmany 998).symm

/-! ## Going back -/

/-- Whether runs differ in nothing but what speaks for a head. -/
structure Rebased (input : Scan) (r r' : Run) : Prop where
  sound : r'.Sound input
  graph : r'.graph = r.graph
  tops : r'.tops = r.tops

theorem Rebased.added (h : r.Rebased input r') {P : Prop} : r.Added input P r' :=
  ⟨⟨h.sound, h.graph ▸ .refl _⟩, [], by simp [h.tops], by simp⟩

theorem Sound.outrankedBy {r : Run} (h : r.Sound input) (mine : Standing) (v : Nat) :
    ∀ ws : List Nat, r.Rebased input (Run.outrankedBy mine v ws r).2
  | [] => ⟨h, rfl, rfl⟩
  | w :: ws => by
    have hstep : ∀ r', (r.rebase w).Rebased input r' → r.Rebased input r' := fun r' hr' =>
      ⟨hr'.sound, hr'.graph, hr'.tops.trans tops_rebase⟩
    have hw : (r.rebase w).Rebased input (r.rebase w) := ⟨h.rebase, rfl, rfl⟩
    have ih := hstep _ (h.rebase.outrankedBy mine v ws)
    unfold Run.outrankedBy
    split_ifs
    · exact h.outrankedBy mine v ws
    · simp only []
      split
      · exact hstep _ hw
      · split_ifs
        · exact hstep _ hw
        · exact ih
      · exact ih

theorem Sound.outranked (h : r.Sound input) (cost : Nat) :
    r.Rebased input (r.outranked v cost).2 := by
  unfold Run.outranked
  split_ifs
  · exact ⟨h, rfl, rfl⟩
  · have hr := (h.rebase (v := v)).outrankedBy ⟨cost, (r.rebase v).progress v, false⟩ v
      (List.range (r.rebase v).heads.length)
    exact ⟨hr.sound, hr.graph, hr.tops.trans tops_rebase⟩

theorem Sound.outranked_eq (h : r.Sound input) {cost : Nat} {b : Bool}
    (ho : r.outranked v cost = (b, r')) : r.Rebased input r' := by
  have hr := h.outranked (v := v) cost
  rwa [ho] at hr

end Run

namespace Graph

variable {input : Scan} {g : Graph} {u below : Nat} {ts earlier : List Measured}

/-- Whether trees above a vertex are text that can be put into an error node. -/
structure Spoils (input : Scan) (g : Graph) (u : Nat) (ts : List Measured) : Prop where
  live : g.Live u
  built : ∀ t ∈ ts, t.tree.Built
  file : ∀ t ∈ ts, ¬ t.tree.IsFile
  holds : input.Holds (g.vertex u).read (Tree.leavesAll (Measured.trees ts))

theorem Spoils.mono {g' : Graph} (h : g.Spoils input u ts) (he : g.Extends g') :
    g'.Spoils input u ts :=
  ⟨h.live.mono he, h.built, h.file, (he.same u h.live.1).read ▸ h.holds⟩

theorem Sound.spoils {v : Nat} {w : Way} (h : g.Sound input) (hv : g.Good v)
    (hw : g.Leads v w) : g.Spoils input w.vertex w.trees ∧
      (g.vertex w.vertex).state ≠ .accepting := by
  have hway := h.of_leads hv.1 hw
  obtain ⟨hs, hfile⟩ := h.not_isFile_of_leads hv.1 hw hv.2
  exact ⟨⟨hway.live, hway.built, hfile, hway.holds⟩, hs⟩

/-- Error nodes on the stack leave the state as it is. -/
theorem eq_error_of_moves {t : Tree} {s s' : State} (hb : t.Built) (hm : t.Moves s s')
    (hk : t.kind = .error) : s' = s ∧ ∃ cs, t = .error true cs ∧ (∀ c ∈ cs, c.Built) ∧
      ∀ c ∈ cs, ¬ c.IsFile := by
  cases hb with
  | leaf l =>
    rcases hl : l.kind with a | _ <;> simp only [Tree.kind, hl, reduceCtorEq] at hk
    cases hm <;> simp_all [Tree.symbol?, Tree.isExtra, Tree.kind]
  | error cs _ hcs hfile =>
    cases hm with
    | part _ he => simp [Tree.isExtra] at he
    | extra => exact ⟨rfl, cs, rfl, hcs, hfile⟩
    | skipped hk => simp [Tree.kind] at hk
  | missing | node | skipped => simp [Tree.kind] at hk

/-- An error node on the stack can be opened again. -/
theorem Sound.popError (h : g.Sound input) (hs : g.Spoils input u ts)
    (hp : g.popError? u = some (below, earlier)) :
    g.Spoils input below (earlier ++ ts) ∧ (g.vertex below).state = (g.vertex u).state := by
  obtain ⟨⟨target, tree⟩, hl, htree⟩ := List.exists_of_findSome?_eq_some hp
  obtain ⟨hlive, hfit⟩ := h.links u hs.live _ hl
  split at htree
  swap
  · simp at htree
  rename_i t ht
  split_ifs at htree with hk
  simp only [Option.some.injEq, Prod.mk.injEq] at htree ht
  obtain ⟨rfl, rfl⟩ := htree
  subst ht
  cases hfit with
  | tree hb hm hl hr =>
  obtain ⟨hstate, cs, hcs, hbuilt, hfile⟩ := eq_error_of_moves hb hm hk
  have hleaves : Tree.leavesAll cs = t.tree.leaves := by rw [hcs, Tree.leaves]
  refine ⟨⟨hlive, ?_, ?_, ?_⟩, hstate.symm⟩
  · intro m hmem
    rw [hcs] at hmem
    rcases List.mem_append.1 hmem with hmem | hmem
    · obtain ⟨c, hc, rfl⟩ := List.mem_map.1 hmem
      exact hbuilt c hc
    · exact hs.built m hmem
  · intro m hmem
    rw [hcs] at hmem
    rcases List.mem_append.1 hmem with hmem | hmem
    · obtain ⟨c, hc, rfl⟩ := List.mem_map.1 hmem
      exact hfile c hc
    · exact hs.file m hmem
  · rw [hcs, Measured.trees_append, Tree.leavesAll_append, Tree.children,
      Measured.trees_map_ofTree, hleaves]
    exact Scan.holds_append.2 ⟨hl, hr ▸ hs.holds⟩

/-- Putting text into an error node, and going on in the state below it. -/
theorem Sound.pushAll_error (h : g.Sound input) (hs : g.Spoils input u ts)
    (hne : (g.vertex u).state ≠ .error) :
    let split := Measured.splitExtras ts
    let pushed := if split.1.isEmpty then split.2 else .error true split.1 :: split.2
    Stands input g (g.pushAll u pushed (g.vertex u).state).1
      (g.pushAll u pushed (g.vertex u).state).2 (g.vertex u).state
      ((g.vertex u).read + (Tree.leavesAll (Measured.trees ts)).length) := by
  intro split pushed
  have hsplit : split.1 ++ split.2 = ts := Measured.splitExtras_append ts
  have hextra : ∀ t ∈ split.2, t.tree.isExtra := fun t ht =>
    Measured.isExtra_of_mem_splitExtras ht
  have hbuilt : ∀ t ∈ split.1 ++ split.2, t.tree.Built := hsplit.symm ▸ hs.built
  have hfile : ∀ t ∈ split.1 ++ split.2, ¬ t.tree.IsFile := hsplit.symm ▸ hs.file
  have hleaves : Tree.leavesAll (Measured.trees pushed) =
      Tree.leavesAll (Measured.trees ts) := by
    rw [← hsplit]
    unfold pushed
    split_ifs with hnil
    · rw [List.isEmpty_iff.1 hnil, List.nil_append]
    · simp [Measured.trees_cons, Measured.trees_append, Tree.leavesAll_append, Measured.error,
        Tree.leavesAll, Tree.leaves]
  have hpushed : ∀ t ∈ pushed, t.tree.Built ∧ t.tree.isExtra := by
    intro t ht
    have hback : t ∈ split.2 → t.tree.Built ∧ t.tree.isExtra := fun ht =>
      ⟨hbuilt t (List.mem_append_right _ ht), hextra t ht⟩
    unfold pushed at ht
    split_ifs at ht with hnil
    · exact hback ht
    rcases List.mem_cons.1 ht with rfl | ht
    · refine ⟨.error _ ?_ ?_ ?_, rfl⟩
      · simpa [Measured.trees] using hnil
      · intro c hc
        obtain ⟨m, hm, rfl⟩ := Measured.mem_trees.1 hc
        exact hbuilt m (List.mem_append_left _ hm)
      · intro c hc
        obtain ⟨m, hm, rfl⟩ := Measured.mem_trees.1 hc
        exact hfile m (List.mem_append_left _ hm)
    · exact hback ht
  rw [← hleaves]
  exact h.pushAll_extras hne pushed hs.live rfl (fun t ht => (hpushed t ht).1)
    (fun t ht => (hpushed t ht).2) (hleaves ▸ hs.holds)

end Graph

namespace Run

variable {input : Scan} {r : Run} {v : Nat} {goal : State}

theorem Sound.addReturned (h : r.Sound input) {pop : Graph.Pop} (hgoal : goal ≠ .error)
    (hs : ∀ ts ∈ pop.alternatives, r.graph.Spoils input pop.vertex ts ∧
      (r.graph.vertex pop.vertex).state ≠ .accepting) :
    r.Added input True (addReturned v goal r pop) := by
  unfold Run.addReturned
  split
  · exact h.added
  rename_i trees others halt
  split_ifs with hstate
  · exact h.added
  rw [not_not] at hstate
  obtain ⟨hspoils, hacc⟩ := hs trees (by simp [halt])
  -- The vertex below an error node on top is in the same state.
  obtain ⟨below, earlier, hbelow, hsp, hst⟩ : ∃ below earlier,
      (r.graph.popError? pop.vertex).getD (pop.vertex, []) = (below, earlier) ∧
        r.graph.Spoils input below (earlier ++ trees) ∧ (r.graph.vertex below).state = goal := by
    rcases hp : r.graph.popError? pop.vertex with _ | ⟨below, earlier⟩
    · exact ⟨pop.vertex, [], rfl, hspoils, hstate⟩
    · obtain ⟨hsp, hst⟩ := h.graph.popError hspoils hp
      exact ⟨below, earlier, rfl, hsp, hst.trans hstate⟩
  have hstands := h.graph.pushAll_error hsp (hst ▸ hgoal)
  rw [hst] at hstands
  simp only [hbelow]
  have hgood : Graph.Good _ _ := ⟨hstands.live, by rw [hstands.state, ← hstate]; exact hacc⟩
  have hgrown := h.setGraph hstands.sound hstands.ext
  refine ⟨⟨hgrown.sound.addHead hgood.head, hgrown.ext⟩, _, tops_addHead, fun _ u hu => ?_⟩
  rw [List.mem_singleton.1 hu]
  exact hgood

theorem Sound.addReturned_foldl (hgoal : goal ≠ .error) :
    ∀ (pops : List Graph.Pop) {r : Run}, r.Sound input →
      (∀ pop ∈ pops, ∀ ts ∈ pop.alternatives, r.graph.Spoils input pop.vertex ts ∧
        (r.graph.vertex pop.vertex).state ≠ .accepting) →
      r.Added input True (pops.foldl (Run.addReturned v goal) r)
  | [], _, h, _ => h.added
  | pop :: pops, r, h, hs => by
    have hadd := h.addReturned (v := v) hgoal (hs pop (by simp))
    refine hadd.trans (Sound.addReturned_foldl hgoal pops hadd.grown.sound ?_)
    intro pop' hpop' ts hts
    obtain ⟨hspoils, hacc⟩ := hs pop' (by simp [hpop']) ts hts
    have he := hadd.grown.ext
    exact ⟨hspoils.mono he, (he.same _ hspoils.live.1).state ▸ hacc⟩

/-- A head that others are put behind goes on reading where it stands. -/
theorem Grown.good {r' : Run} (h : r.Grown input r') (htops : r.tops <+: r'.tops)
    (hv : v < r.heads.length) (hg : r.graph.Good (r.head v).top) :
    v < r'.heads.length ∧ r'.graph.Good (r'.head v).top ∧ (r'.top v).read = (r.top v).read := by
  obtain ⟨new, htops⟩ := htops
  have htop : (r'.head v).top = (r.head v).top := by
    rw [top_head, top_head, ← htops, List.getElem?_append_left (by simpa using hv)]
  refine ⟨?_, htop ▸ hg.mono h.ext, ?_⟩
  · rw [← length_tops, ← htops, List.length_append, length_tops]
    omega
  · rw [top, top, htop, (h.ext.same _ hg.1.1).read]

theorem Added.good {P : Prop} {r' : Run} (h : r.Added input P r') (hv : v < r.heads.length)
    (hg : r.graph.Good (r.head v).top) :
    v < r'.heads.length ∧ r'.graph.Good (r'.head v).top ∧ (r'.top v).read = (r.top v).read := by
  obtain ⟨new, htops, -⟩ := h.tops
  exact h.grown.good ⟨new, htops.symm⟩ hv hg

theorem Sound.goBack (cost : Nat) (look : Tree) :
    ∀ (ms : List Graph.Mark) {r : Run}, r.Sound input → v < r.heads.length →
      r.graph.Good (r.head v).top → r.Added input True (goBack v cost look ms r).2
  | [], _, h, _, _ => h.added
  | m :: ms, r, h, hv, hg => by
    unfold Run.goBack
    simp only []
    split
    · exact Sound.goBack cost look ms h hv hg
    rename_i hm
    have hgoal : m.state ≠ .error := by
      intro hs
      simp [hs] at hm
    split
    · exact Sound.goBack cost look ms h hv hg
    split
    · rename_i r' ho
      have hr := h.outranked_eq ho
      exact hr.added
    rename_i r' ho
    have hr : r.Added input True r' := (h.outranked_eq ho).added
    obtain ⟨hv', hg', -⟩ := hr.good hv hg
    split
    swap
    · exact hr.trans (Sound.goBack cost look ms hr.grown.sound hv' hg')
    generalize (if 0 < r.progress v then m.depth + 1 else m.depth) = depth
    -- The head goes back on all ways at once.
    have hback := Sound.addReturned_foldl (v := v) hgoal (r'.graph.pop (r'.head v).top depth)
      hr.grown.sound fun pop hpop ts hts => by
        obtain ⟨d, hw, -⟩ := (Graph.pops_pop _ _ _ pop hpop).2 ts hts
        exact hr.grown.sound.graph.spoils hg' hw
    split
    · exact hr.trans hback
    · obtain ⟨hv'', hg'', -⟩ := hback.good hv' hg'
      exact (hr.trans hback).trans (Sound.goBack cost look ms hback.grown.sound hv'' hg'')

/-! ## Passing over input -/

/-- What a head reads next is the next lexeme, if there is one. -/
theorem lookahead_cases (h : r.Sound input) : (∃ l, r.lookahead v = .leaf l ∧
      input.lexemes[(r.top v).read]? = some l) ∨
    r.lookahead v = .finish input.trailing ∧ input.lexemes.length ≤ (r.top v).read := by
  unfold lookahead
  rw [h.input_eq]
  rcases hl : input.lexemes[(r.top v).read]? with _ | l
  · exact .inr ⟨rfl, List.getElem?_eq_none_iff.1 hl⟩
  · exact .inl ⟨l, rfl, rfl⟩

theorem Sound.skip (h : r.Sound input) (hv : v < r.heads.length)
    (hg : r.graph.Good (r.head v).top) {l : Lexeme}
    (hl : input.lexemes[(r.top v).read]? = some l) (together : Bool) :
    r.Grown input (r.skip v (.leaf l) together) := by
  have hlook : Tree.Built (.skipped [.leaf l]) := .skipped _ (by simp)
    (by simpa using Tree.Built.leaf l)
    (by rcases hk : l.kind <;> simp [Tree.IsFile, Tree.symbol?, hk])
  have hholds : input.Holds (r.top v).read (Tree.skipped [.leaf l]).leaves :=
    Scan.holds_singleton hl
  unfold Run.skip
  simp only []
  split
  · rename_i below trees others pops hpops
    have hmem : ⟨below, trees :: others⟩ ∈ r.graph.pop (r.head v).top 1 := by
      split_ifs at hpops
      rw [hpops]
      simp
    obtain ⟨d, hw, -⟩ := (Graph.pops_pop _ _ _ _ hmem).2 trees (by simp)
    obtain ⟨hspoils, hacc⟩ := h.graph.spoils hg hw
    have hread := (h.graph.of_leads hg.1 hw).read
    simp only [] at hspoils hacc hread
    set hd : Head := { r.head v with top := below, status := .active }
    have hgood : r.graph.Good hd.top := ⟨hspoils.live, hacc⟩
    have hhead : (r.setHead v hd).head v = hd := head_setHead hv
    have hpush := Sound.push (r := r.setHead v hd) (v := v) (s := .error)
      (m := .skipped (trees ++ [.skipped [.ofTree (.leaf l)]])) (h.setHead hgood.head)
      (by rw [hhead]; exact hspoils.live) ?_ (.skipped rfl ?_) ?_ State.error_ne_accepting
    · exact ⟨hpush.1.sound, hpush.1.ext⟩
    · refine .skipped _ (by simp [Measured.trees]) ?_ ?_
      · intro t ht
        rw [Measured.trees_append] at ht
        rcases List.mem_append.1 ht with ht | ht
        · obtain ⟨m, hm, rfl⟩ := Measured.mem_trees.1 ht
          exact hspoils.built m hm
        · rw [List.mem_singleton.1 ht]
          exact hlook
      · intro t ht
        rw [Measured.trees_append] at ht
        rcases List.mem_append.1 ht with ht | ht
        · obtain ⟨m, hm, rfl⟩ := Measured.mem_trees.1 ht
          exact hspoils.file m hm
        · rw [List.mem_singleton.1 ht]
          simp [Tree.IsFile, Measured.skipped, Tree.symbol?]
    · rw [state, top, hhead]
      exact hacc
    · rw [top, hhead]
      simp only [Measured.skipped, Tree.leaves, Measured.trees_append, Tree.leavesAll_append]
      refine Scan.holds_append.2 ⟨hspoils.holds, ?_⟩
      rw [top, hread] at hholds
      exact hholds
  · exact (h.push (m := .skipped [.ofTree (.leaf l)]) hg.1 hlook (.skipped rfl hg.2) hholds
      State.error_ne_accepting).1

theorem Sound.recover (h : r.Sound input) (hv : v < r.heads.length)
    (hg : r.graph.Good (r.head v).top) : r.Grown input (r.recover v) := by
  have hrebase : r.Rebased input (r.rebase v) := ⟨h.rebase, rfl, tops_rebase⟩
  unfold Run.recover
  simp only []
  obtain ⟨hv₁, hg₁, hread₁⟩ := (hrebase.added (P := True)).good hv hg
  generalize hr₁ : r.rebase v = r₁ at hrebase hv₁ hg₁ hread₁
  generalize (if (r.lookahead v).kind = .error then [] else (r₁.head v).marks.getD []) = marks
  rcases hr₂ : Run.goBack v (r₁.cost v) (r.lookahead v) marks r₁ with ⟨returned, r₂⟩
  have hback : r₁.Added input True r₂ := by
    have hr := Sound.goBack (r₁.cost v) (r.lookahead v) marks hrebase.sound hv₁ hg₁
    rwa [hr₂] at hr
  obtain ⟨hv₂, hg₂, hread₂⟩ := hback.good hv₁ hg₁
  have hgrown₂ : r.Grown input r₂ := (hrebase.added (P := True)).grown.trans hback.grown
  split
  · exact ⟨hgrown₂.sound.setStatus_halted, hgrown₂.ext⟩
  rcases lookahead_cases (v := v) h with ⟨l, hlook, hl⟩ | ⟨hlook, hlen⟩
  · rw [hlook]
    have hkind : (Tree.leaf l).kind ≠ .finish := by
      rcases hk : l.kind <;> simp [Tree.kind, hk]
    rw [if_neg hkind]
    split
    · rename_i r₃ ho
      have hr₃ := (hgrown₂.sound.outranked_eq ho).added (P := True)
      exact hgrown₂.trans ⟨hr₃.grown.sound.setStatus_halted, hr₃.grown.ext⟩
    · rename_i r₃ ho
      have hr₃ := (hgrown₂.sound.outranked_eq ho).added (P := True)
      obtain ⟨hv₃, hg₃, hread₃⟩ := hr₃.good hv₂ hg₂
      rw [← hread₁, ← hread₂, ← hread₃] at hl
      exact (hgrown₂.trans hr₃.grown).trans (hr₃.grown.sound.skip hv₃ hg₃ hl _)
  · rw [hlook, if_pos (by rfl)]
    refine hgrown₂.trans (hgrown₂.sound.accept_of_error hv₂ hg₂ ?_)
    have hle := hback.grown.sound.graph.read_le _ hg₂.1
    rw [top] at hread₂ ⊢
    omega

/-! ## Making up tokens -/

theorem ne_comment_of_next {s : State} {t : Terminal} (h : s.next (.terminal t) ≠ .error)
    (hs : s.next (.terminal t) ≠ s) : t ≠ .comment := by
  rintro rfl
  by_cases hse : s = .error
  · subst hse
    exact h (State.next_error _)
  · exact hs (by simp [State.next, State.action_comment hse])

/-- A copy of a head for which a token is made up. -/
theorem Sound.insert (hi : input.Spaced) (h : r.Sound input) {w : Nat}
    (hg : r.graph.Good (r.head w).top) {t : Terminal} {s : State}
    (hs : (r.state w).next (.terminal t) = s) (hne : s ≠ .error) (hsame : s ≠ r.state w)
    {wanted : Option Terminal} {r₁ r₂ : Run}
    (hr₁ : (r.addHead { r.head w with marks := none }).push r.heads.length
      (.ofTree (.missing t)) s = r₁)
    (hr₂ : (r₁.reduceAll r.heads.length wanted).2 = r₂) :
    r.Grown input r₂ ∧ r.tops <+: r₂.tops := by
  set hd : Head := { r.head w with marks := none }
  have hadd : (r.addHead hd).Sound input := h.addHead (Graph.Good.head (h := hd) hg)
  have hhead : (r.addHead hd).head r.heads.length = hd := by simp [Run.addHead, Run.head]
  have ht : t ≠ .comment := ne_comment_of_next (hs ▸ hne) (hs ▸ hsame)
  obtain ⟨hgrown, htops, hgood⟩ := hadd.push (v := r.heads.length) (m := .ofTree (.missing t))
    (s := s) (by rw [hhead]; exact hg.1) (.missing t ht)
    (by
      rw [state, top, hhead, ← hs]
      exact .part (.terminal t) rfl rfl (hs ▸ hne))
    Scan.holds_nil
    (fun hacc => by simpa using (State.eq_of_next_eq_accepting (by simpa using ht)
      (hs.trans hacc)).1)
  rw [hr₁] at hgrown htops hgood
  rw [tops_addHead] at htops
  have htops₁ : r₁.tops = r.tops ++ [r.graph.vertices.size] := by
    rw [htops, ← length_tops, List.set_append_right _ _ (Nat.le_refl _), Nat.sub_self]
    rfl
  have hlen₁ : r₁.heads.length = r.heads.length + 1 := by
    rw [← length_tops, htops₁, List.length_append, length_tops, List.length_singleton]
  have hall := hgrown.sound.reduceAll hi r.heads.length wanted (by
    rw [top_head, htops₁, ← length_tops, List.getElem?_concat_length]
    exact hgood) (fun _ => by omega)
  rw [hr₂, hlen₁] at hall
  refine ⟨⟨hall.grown.sound, hgrown.ext.trans hall.grown.ext⟩, ?_⟩
  refine List.prefix_iff_getElem?.2 fun i hi => ?_
  have hi' : i < r.heads.length := by simpa using hi
  rw [hall.frame i (by omega) (by omega), htops₁, List.getElem?_append_left hi,
    List.getElem?_eq_getElem hi]

theorem Sound.insertMissing (hi : input.Spaced) {look : Tree} {w : Nat} :
    ∀ (ts : List Terminal) {r : Run}, r.Sound input → w < r.heads.length →
      r.graph.Good (r.head w).top →
      r.Grown input (insertMissing w look ts r).2 ∧ r.tops <+: (insertMissing w look ts r).2.tops
  | [], _, h, _, _ => ⟨h.grown, List.prefix_rfl⟩
  | t :: ts, r, h, hw, hg => by
    unfold Run.insertMissing
    simp only []
    split
    · rename_i hne _
      simp only [Bool.or_eq_false_iff, decide_eq_false_iff_not] at hne
      split
      · rename_i r₂ hr₂
        exact h.insert hi hg rfl hne.1 hne.2 rfl (congrArg Prod.snd hr₂)
      · rename_i r₂ hr₂
        obtain ⟨hgrown, htops⟩ := h.insert hi hg rfl hne.1 hne.2 rfl (congrArg Prod.snd hr₂)
        obtain ⟨hw₂, hg₂, -⟩ := hgrown.good htops hw hg
        obtain ⟨hgrown', htops'⟩ := Sound.insertMissing hi ts hgrown.sound hw₂ hg₂
        exact ⟨hgrown.trans hgrown', htops.trans htops'⟩
    · exact Sound.insertMissing hi ts h hw hg

/-- Heads that go on reading, by their places. -/
def Reading (r : Run) (vs : List Nat) : Prop :=
  ∀ v ∈ vs, v < r.heads.length ∧ r.graph.Good (r.head v).top

theorem Reading.mono {r' : Run} {vs : List Nat} (hr : r.Reading vs) (h : r.Grown input r')
    (htops : r.tops <+: r'.tops) : r'.Reading vs := by
  intro v hv
  obtain ⟨hlt, hg⟩ := hr v hv
  obtain ⟨hlt', hg', -⟩ := h.good htops hlt hg
  exact ⟨hlt', hg'⟩

theorem Sound.fall_reading (h : r.Sound input) {vs : List Nat} (hr : r.Reading vs) {w : Nat}
    (hw : w ∈ vs) : r.Grown input (r.fall w) ∧ (r.fall w).Reading vs ∧
      (r.fall w).heads.length = r.heads.length := by
  obtain ⟨hgrown, htops, hgood⟩ := h.fall (hr w hw).2
  have hlen : (r.fall w).heads.length = r.heads.length := by simp [Run.fall]
  refine ⟨hgrown, fun v hv => ?_, hlen⟩
  obtain ⟨hlt, hg⟩ := hr v hv
  refine ⟨hlen ▸ hlt, ?_⟩
  rw [top_head, htops]
  by_cases hvw : w = v
  · subst hvw
    rw [List.getElem?_set_self (by simpa using hlt)]
    exact hgood
  · rw [List.getElem?_set_ne hvw, ← top_head]
    exact hg.mono hgrown.ext

theorem Sound.fallAll (hi : input.Spaced) (look : Tree) {vs : List Nat} :
    ∀ (ws : List Nat) (inserted : Bool) {r : Run}, r.Sound input → r.Reading vs →
      (∀ w ∈ ws, w ∈ vs) →
      r.Grown input (fallAll look ws inserted r) ∧ (fallAll look ws inserted r).Reading vs
  | [], _, _, h, hr, _ => ⟨h.grown, hr⟩
  | w :: ws, inserted, r, h, hr, hws => by
    have hw := hws w (by simp)
    unfold Run.fallAll
    obtain ⟨r₁, hr₁, hgrown₁, htops₁⟩ : ∃ r₁, (if inserted then (true, r)
        else Run.insertMissing w look Terminal.all r).2 = r₁ ∧ r.Grown input r₁ ∧
          r.tops <+: r₁.tops := by
      split_ifs
      · exact ⟨r, rfl, h.grown, List.prefix_rfl⟩
      · obtain ⟨hlt, hg⟩ := hr w hw
        exact ⟨_, rfl, h.insertMissing hi Terminal.all hlt hg⟩
    have hreading₁ := hr.mono hgrown₁ htops₁
    obtain ⟨hgrown₂, hreading₂, -⟩ := hgrown₁.sound.fall_reading hreading₁ hw
    obtain ⟨hgrown₃, hreading₃⟩ := Sound.fallAll hi look ws _ hgrown₂.sound hreading₂
      fun w' hw' => hws w' (by simp [hw'])
    simp only [hr₁]
    exact ⟨(hgrown₁.trans hgrown₂).trans hgrown₃, hreading₃⟩

/-! ## Recovery as a whole -/

/-- Merging heads behind `v` with it. -/
theorem Sound.merge_repeat (hi : input.Spaced) {old : Nat} (hv : v < old) :
    ∀ (n : Nat) {r : Run}, r.Sound input → v < r.heads.length → r.graph.Good (r.head v).top →
      let r' := Nat.repeat (fun r => (r.merge? v old).getD r) n r
      r.Grown input r' ∧ v < r'.heads.length ∧ r'.graph.Good (r'.head v).top
  | 0, _, h, hlt, hg => ⟨h.grown, hlt, hg⟩
  | n + 1, r, h, hlt, hg => by
    obtain ⟨hgrown, hlt', hg'⟩ := Sound.merge_repeat hi hv n h hlt hg
    unfold Nat.repeat
    set r₁ := Nat.repeat (fun r => (r.merge? v old).getD r) n r
    rcases hm : r₁.merge? v old with _ | r₂
    · simp only [Option.getD_none]
      exact ⟨hgrown, hlt', hg'⟩
    · simp only [Option.getD_some]
      obtain ⟨hgrown', htops⟩ := hgrown.sound.merge hi hm
      refine ⟨hgrown.trans hgrown', ?_, ?_⟩
      · have hle := List.length_eraseIdx_le r₁.tops old
        rw [← length_tops, htops, List.length_eraseIdx]
        rw [← length_tops] at hlt'
        split_ifs <;> omega
      · rw [top_head, htops, List.getElem?_eraseIdx_of_lt hv, ← top_head]
        exact hg'.mono hgrown'.ext

theorem Sound.handleError (hi : input.Spaced) (h : r.Sound input) (hv : v < r.heads.length)
    (hg : r.graph.Good (r.head v).top) : r.Grown input (r.handleError v) := by
  have hall := h.reduceAll hi v none hg (by simp)
  unfold Run.handleError
  simp only []
  set r₁ := (r.reduceAll v none).2
  set vs := v :: (List.range (r₁.heads.length - r.heads.length)).map (r.heads.length + ·)
  have hlen : r.heads.length ≤ r₁.heads.length := by
    rcases hall.length with hlen | ⟨hw, -⟩
    · exact hlen
    · simp at hw
  have hreading : r₁.Reading vs := by
    intro w hw
    rcases List.mem_cons.1 hw with rfl | hw
    · exact ⟨by omega, top_head r₁ w ▸ hall.good w (.inl rfl)⟩
    · obtain ⟨i, hi, rfl⟩ := List.mem_map.1 hw
      rw [List.mem_range] at hi
      exact ⟨by omega, top_head r₁ _ ▸ hall.good _ (.inr (by omega))⟩
  obtain ⟨hgrown₂, hreading₂⟩ := hall.grown.sound.fallAll hi (r.lookahead v) vs false
    hreading fun _ hw => hw
  obtain ⟨hlt₂, hg₂⟩ := hreading₂ v (by simp [vs])
  obtain ⟨hgrown₃, hlt₃, hg₃⟩ := Sound.merge_repeat hi hv
    (r₁.heads.length - r.heads.length) hgrown₂.sound hlt₂ hg₂
  set r₃ := Nat.repeat (fun r' => (Run.merge? r' v r.heads.length).getD r')
    (r₁.heads.length - r.heads.length) (Run.fallAll (r.lookahead v) vs false r₁)
  set hd : Head := { r₃.head v with marks := some (r₃.graph.marks (r₃.head v).top) }
  have hset : (r₃.setHead v hd).Sound input := hgrown₃.sound.setHead (Graph.Good.head (h := hd) hg₃)
  have hrecover := hset.recover (v := v) (by simpa [Run.setHead] using hlt₃)
    (by rw [head_setHead hlt₃]; exact hg₃)
  exact ((hall.grown.trans hgrown₂).trans hgrown₃).trans ⟨hrecover.sound, hrecover.ext⟩

end Run

end CalcTree
