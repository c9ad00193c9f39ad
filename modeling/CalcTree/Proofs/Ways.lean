import CalcTree.Proofs.Graph

/-!
# Ways down a sound graph

A walk looks only at ways that lead down from its start along links (`walk_induct`), so what holds
of every such way holds of every pop.

What the trees on a way are depends on where it starts. From any live vertex they are well built
and hold the lexemes read since (`Sound.of_leads`). From a state that reduces by a production the
first so many parts are those of the production (`Sound.parts_of_leads`). From the accepting state
there is one whole file, with extra trees around it (`Sound.file_of_leads`), and from any other
state there is none (`Sound.not_isFile_of_leads`).
-/

namespace CalcTree

namespace Graph

/-- Whether a way down leads from `v` along links. -/
inductive Leads (g : Graph) (v : Nat) : Way → Prop
  | start : Leads g v ⟨v, [], 0⟩
  | follow {w : Way} {l : Link} (hw : Leads g v w) (hl : l ∈ g.linksOf w.vertex) :
      Leads g v (w.follow l)

/-! ## Walks -/

section Walk

variable {g : Graph} {v : Nat} {σ : Type} {visit : σ → Way → σ × Bool} {P : σ → Prop}

theorem walkRound_induct (hvisit : ∀ s w, P s → g.Leads v w → P (visit s w).1) :
    ∀ (ws kept split : List Way) (s : σ), (∀ w ∈ ws, g.Leads v w) → (∀ w ∈ kept, g.Leads v w) →
      (∀ w ∈ split, g.Leads v w) → P s →
      (∀ w ∈ (g.walkRound visit ws kept split s).1, g.Leads v w) ∧
        P (g.walkRound visit ws kept split s).2
  | [], kept, split, s, _, hkept, hsplit, hs => by
    simp only [walkRound, List.mem_append]
    exact ⟨fun w hw => hw.elim (hkept w) (hsplit w), hs⟩
  | w :: ws, kept, split, s, hws, hkept, hsplit, hs => by
    have hw := hws w (by simp)
    have hws' : ∀ w ∈ ws, g.Leads v w := fun w' hw' => hws w' (by simp [hw'])
    have hs' := hvisit s w hs hw
    simp only [walkRound]
    split
    · rename_i s' heq
      rw [heq] at hs'
      exact walkRound_induct hvisit ws kept split s' hws' hkept hsplit hs'
    · rename_i s' heq
      rw [heq] at hs'
      split
      · exact walkRound_induct hvisit ws kept split s' hws' hkept hsplit hs'
      · rename_i l others hlinks
        have hfollow : ∀ l' ∈ l :: others, g.Leads v (w.follow l') := by
          intro l' hl'
          exact .follow hw (by rwa [hlinks])
        refine walkRound_induct hvisit ws _ _ s' hws' ?_ ?_ hs'
        · intro w' hw'
          rcases List.mem_append.1 hw' with hw' | hw'
          · exact hkept w' hw'
          · rw [List.mem_singleton.1 hw']
            exact hfollow l (by simp)
        · intro w' hw'
          rcases List.mem_append.1 hw' with hw' | hw'
          · exact hsplit w' hw'
          · obtain ⟨l', hl', rfl⟩ := List.mem_map.1 hw'
            exact hfollow l' (by simp [List.mem_of_mem_take hl'])

theorem walkFrom_induct (hvisit : ∀ s w, P s → g.Leads v w → P (visit s w).1) :
    ∀ (fuel : Nat) (ws : List Way) (s : σ), (∀ w ∈ ws, g.Leads v w) → P s →
      P (g.walkFrom visit fuel ws s)
  | 0, _, _, _, hs => hs
  | _ + 1, [], _, _, hs => hs
  | fuel + 1, w :: ws, s, hws, hs => by
    obtain ⟨hways, hs'⟩ := walkRound_induct hvisit (w :: ws) [] [] s hws (by simp) (by simp) hs
    exact walkFrom_induct hvisit fuel _ _ hways hs'

theorem walk_induct {s : σ} (hs : P s) (hvisit : ∀ s w, P s → g.Leads v w → P (visit s w).1) :
    P (g.walk v visit s) := by
  refine walkFrom_induct hvisit _ _ _ (fun w hw => ?_) hs
  rw [List.mem_singleton.1 hw]
  exact .start

end Walk

/-- Whether pops are made up of ways that have some property. -/
def Pops (Q : Way → Prop) (pops : List Pop) : Prop :=
  ∀ p ∈ pops, p.alternatives ≠ [] ∧ ∀ ts ∈ p.alternatives, ∃ d, Q ⟨p.vertex, ts, d⟩

theorem pops_addPop {Q : Way → Prop} {w : Way} (hw : Q w) :
    ∀ {pops : List Pop}, Pops Q pops → Pops Q (addPop pops w)
  | [], _ => by
    intro p hp
    rw [List.mem_singleton.1 hp]
    refine ⟨by simp, fun ts hts => ⟨w.depth, ?_⟩⟩
    rw [List.mem_singleton.1 hts]
    exact hw
  | q :: qs, h => by
    have hq := h q (by simp)
    have hqs : Pops Q qs := fun p hp => h p (by simp [hp])
    simp only [addPop]
    split_ifs with heq
    · intro p hp
      rcases List.mem_cons.1 hp with rfl | hp
      · refine ⟨by simp, fun ts hts => ?_⟩
        rcases List.mem_append.1 hts with hts | hts
        · exact hq.2 ts hts
        · rw [List.mem_singleton.1 hts, heq]
          exact ⟨w.depth, hw⟩
      · exact hqs p hp
    · intro p hp
      rcases List.mem_cons.1 hp with rfl | hp
      · exact hq
      · exact pops_addPop hw hqs p hp

theorem pops_pop (g : Graph) (v n : Nat) :
    Pops (fun w => g.Leads v w ∧ w.depth = n) (g.pop v n) := by
  refine walk_induct (P := Pops _) (by simp [Pops]) fun pops w hpops hw => ?_
  split_ifs with hd
  · exact pops_addPop ⟨hw, hd⟩ hpops
  · exact hpops

theorem pops_popAll (g : Graph) (v : Nat) :
    Pops (fun w => g.Leads v w ∧ g.linksOf w.vertex = []) (g.popAll v) := by
  refine walk_induct (P := Pops _) (by simp [Pops]) fun pops w hpops hw => ?_
  simp only []
  split_ifs with he
  · exact pops_addPop ⟨hw, by simpa using he⟩ hpops
  · exact hpops

/-! ## Trees on the way -/

section Trees

variable {g : Graph} {input : Scan} {v : Nat} {w : Way}

/-- What is known of a way wherever it starts. -/
structure Passes (input : Scan) (g : Graph) (v : Nat) (w : Way) : Prop where
  live : g.Live w.vertex
  built : ∀ t ∈ w.trees, t.tree.Built
  holds : input.Holds (g.vertex w.vertex).read (Tree.leavesAll (Measured.trees w.trees))
  read : (g.vertex v).read =
    (g.vertex w.vertex).read + (Tree.leavesAll (Measured.trees w.trees)).length

theorem Sound.of_leads (h : g.Sound input) (hv : g.Live v) (hw : g.Leads v w) :
    g.Passes input v w := by
  induction hw with
  | start => exact ⟨hv, by simp, Scan.holds_nil, by simp [Measured.trees, Tree.leavesAll]⟩
  | @follow w l _ hl ih =>
    obtain ⟨hlive, hfit⟩ := h.links _ ih.live l hl
    obtain ⟨u, t⟩ := l
    cases hfit with
    | fallen _ _ hr =>
      refine ⟨hlive, ih.built, ?_, ?_⟩
      · rw [Way.follow, ← hr]
        exact ih.holds
      · rw [Way.follow, ← hr]
        exact ih.read
    | @tree m _ hb _ hl hr =>
      refine ⟨hlive, ?_, ?_, ?_⟩
      · simpa [Way.follow] using ⟨hb, ih.built⟩
      · simp only [Way.follow, Measured.trees_cons, Tree.leavesAll]
        exact Scan.holds_append.2 ⟨hl, hr ▸ ih.holds⟩
      · simp only [Way.follow, Measured.trees_cons, Tree.leavesAll, List.length_append]
        have := ih.read
        simp only [] at hr this ⊢
        omega

/-- The first parts under a state that reduces by a production are those of the production. -/
theorem Sound.parts_of_leads (h : g.Sound input) (hv : g.Live v) (hw : g.Leads v w)
    {p : Production} (hs : (g.vertex v).state ≠ .error)
    (hp : (g.vertex v).state.row.reduction = some p) (hd : w.depth ≤ p.rhs.length) :
    (g.vertex w.vertex).state ≠ .error ∧
      State.completes p (p.rhs.length - w.depth) (g.vertex w.vertex).state ∧
      (Tree.parts (Measured.trees w.trees)).map Tree.symbol? =
        (p.rhs.drop (p.rhs.length - w.depth)).map some := by
  induction hw with
  | start =>
    refine ⟨hs, State.completes_length.2 hp, ?_⟩
    simp [Measured.trees, Tree.parts]
  | @follow w l hw hl ih =>
    obtain ⟨-, hfit⟩ := h.links _ (h.of_leads hv hw).live l hl
    obtain ⟨u, t⟩ := l
    have hle : w.depth ≤ p.rhs.length := by
      refine Nat.le_trans ?_ hd
      unfold Way.follow
      split <;> [split_ifs; skip] <;> simp
    obtain ⟨ihs, ihc, ihp⟩ := ih hle
    cases hfit with
    | fallen hv => exact absurd hv ihs
    | @tree m _ hb hm =>
      generalize hx : (g.vertex w.vertex).state = x at hm ihs ihc
      cases hm with
      | part X he hX hne =>
        have hd' : w.depth + 1 ≤ p.rhs.length := by
          simpa [Way.follow, Measured.isExtra, he] using hd
        obtain ⟨k, hk⟩ : ∃ k, p.rhs.length - w.depth = k + 1 :=
          ⟨p.rhs.length - w.depth - 1, by omega⟩
        rw [hk] at ihc ihp
        have hkl : k < p.rhs.length := by omega
        obtain ⟨hrhs, hck⟩ :=
          State.symbol_of_completes hkl (Tree.symbol?_ne_comment hb he hX) hne ihc
        have hkd : p.rhs.length - (w.depth + 1) = k := by omega
        obtain ⟨hk', rfl⟩ := List.getElem?_eq_some_iff.1 hrhs
        simp only [Way.follow, Measured.isExtra, he, Bool.false_eq_true, ↓reduceIte, hkd]
        refine ⟨State.ne_error_of_next hne, hck, ?_⟩
        rw [Measured.trees_cons, List.drop_eq_getElem_cons hkl, List.map_cons, ← ihp, ← hX]
        simp [Tree.parts, he]
      | extra he hne =>
        simp only [Way.follow, Measured.isExtra, he, ↓reduceIte]
        refine ⟨ihs, ihc, ?_⟩
        rw [Measured.trees_cons, ← ihp]
        simp [Tree.parts, he]
      | skipped => exact absurd rfl ihs

/-- Under any state but the accepting one there is no whole file. -/
theorem Sound.not_isFile_of_leads (h : g.Sound input) (hv : g.Live v) (hw : g.Leads v w)
    (hs : (g.vertex v).state ≠ .accepting) :
    (g.vertex w.vertex).state ≠ .accepting ∧ ∀ t ∈ w.trees, ¬ t.tree.IsFile := by
  induction hw with
  | start => exact ⟨hs, by simp⟩
  | @follow w l hw hl ih =>
    obtain ⟨ihs, iht⟩ := ih
    obtain ⟨-, hfit⟩ := h.links _ (h.of_leads hv hw).live l hl
    obtain ⟨u, t⟩ := l
    cases hfit with
    | fallen _ hu => exact ⟨hu, iht⟩
    | @tree m _ hb hm =>
      suffices hnew : (g.vertex u).state ≠ .accepting ∧ ¬ m.tree.IsFile by
        simpa [Way.follow] using ⟨hnew.1, hnew.2, iht⟩
      generalize (g.vertex w.vertex).state = x at hm ihs
      cases hm with
      | part X he hX hne =>
        refine ⟨State.ne_accepting_of_next (Tree.symbol?_ne_comment hb he hX) hne, fun hf => ?_⟩
        obtain rfl := Option.some.inj (hX.symm.trans hf)
        exact ihs (State.next_sourceFile hne)
      | extra he hne => exact ⟨ihs, Tree.not_isFile_of_isExtra he⟩
      | skipped hk hs =>
        obtain ⟨cs, hcs⟩ := Tree.eq_skipped_of_kind hk
        exact ⟨hs, by simp [Tree.IsFile, hcs, Tree.symbol?]⟩

/-- Under the accepting state there is a whole file, with extra trees around it. -/
theorem Sound.file_of_leads (h : g.Sound input) (hv : g.Live v) (hw : g.Leads v w)
    (hs : (g.vertex v).state = .accepting) :
    (g.vertex w.vertex).state = .accepting ∨
      (g.vertex w.vertex).state = .start ∧ ∃ before file behind,
        w.trees = before ++ file :: behind ∧ file.tree.IsFile ∧
          ∀ t ∈ before ++ behind, t.tree.isExtra := by
  suffices hstrong : (g.vertex w.vertex).state = .accepting ∧ (∀ t ∈ w.trees, t.tree.isExtra) ∨
      (g.vertex w.vertex).state = .start ∧ ∃ before file behind,
        w.trees = before ++ file :: behind ∧ file.tree.IsFile ∧
          ∀ t ∈ before ++ behind, t.tree.isExtra by
    exact hstrong.imp_left And.left
  induction hw with
  | start => exact .inl ⟨hs, by simp⟩
  | @follow w l hw hl ih =>
    obtain ⟨-, hfit⟩ := h.links _ (h.of_leads hv hw).live l hl
    obtain ⟨u, t⟩ := l
    have hne : (g.vertex w.vertex).state ≠ .error := by
      rcases ih with ⟨ih, -⟩ | ⟨ih, -⟩ <;> rw [ih] <;> decide
    cases hfit with
    | fallen hv => exact absurd hv hne
    | @tree m _ hb hm =>
      generalize (g.vertex w.vertex).state = x at hm hne ih
      cases hm with
      | part X he hX hs =>
        have hXc := Tree.symbol?_ne_comment hb he hX
        rcases ih with ⟨hacc, hextra⟩ | ⟨hstart, -⟩
        · obtain ⟨rfl, hu⟩ := State.eq_of_next_eq_accepting hXc hacc
          refine .inr ⟨hu, [], m, w.trees, rfl, hX, ?_⟩
          simpa using hextra
        · exact absurd hstart (State.next_ne_start hXc)
      | extra he _ =>
        rcases ih with ⟨hacc, hextra⟩ | ⟨hstart, before, file, behind, htrees, hfile, hextra⟩
        · refine .inl ⟨hacc, ?_⟩
          simpa [Way.follow] using ⟨he, hextra⟩
        · refine .inr ⟨hstart, m :: before, file, behind, ?_, hfile, ?_⟩
          · simp [Way.follow, htrees]
          · simpa [he] using hextra
      | skipped => exact absurd rfl hne

end Trees

end Graph

end CalcTree
