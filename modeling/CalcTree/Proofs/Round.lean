import CalcTree.Document
import CalcTree.Proofs.Recovery
import CalcTree.Proofs.Scan

/-!
# Every parse holds the whole source

The parser's step keeps runs sound (`Sound.step`), so whatever tree it ends with, however it came
by it, holds all lexemes of the source in order, and is well built (`Tree.whole_of_ofScan?`).

A source is parsed if the parser comes to an end in some number of steps
(`Document.parse_eq_ok_iff_exists`), so what a parse gives can be evaluated with the steps counted.
-/

namespace CalcTree

namespace Run

variable {input : Scan} {r r' : Run} {v : Nat}

theorem sound_graph_start (input : Scan) : Graph.start.Sound input := by
  have hvertex : ∀ v, Graph.start.Live v →
      Graph.start.vertex v = ⟨.start, [], 0, 0, 0, 0⟩ := by
    intro v hv
    obtain rfl : v = 0 := Nat.lt_one_iff.1 hv.1
    rfl
  refine ⟨⟨Nat.zero_lt_one, rfl⟩, rfl, ?_, ?_, ?_, ?_⟩
  · intro v hv
    rw [hvertex v hv]
    exact Nat.zero_le _
  · intro v hv
    rw [hvertex v hv]
    rfl
  · intro v hv _
    rw [hvertex v hv]
    exact ⟨rfl, rfl⟩
  · intro v hv l hl
    rw [Graph.linksOf, hvertex v hv] at hl
    simp at hl

theorem sound_start (input : Scan) : (start input).Sound input := by
  have hgraph := sound_graph_start input
  refine ⟨rfl, hgraph, fun hd hmem => ?_, by simp [start]⟩
  rw [List.mem_singleton.1 hmem]
  exact hgraph.good_bottom.head

/-! ## Actions -/

/-- In the accepting state a head has come to the end, and ends. -/
theorem Sound.actionOn_accepting (h : r.Sound input) (hv : (r.head v).status ≠ .halted)
    (hs : r.state v = .accepting) : actionOn (r.state v) (r.lookahead v) = some .accept := by
  obtain ⟨-, hacc⟩ := h.head v hv
  rw [lookahead_of_read h.input_eq (hacc hs).2, hs]
  rfl

theorem Sound.pause (h : r.Sound input) (hg : r.graph.Good (r.head v).top) :
    (r.pause v).Sound input :=
  h.setHead (Graph.Good.head (h := { r.head v with status := .paused, base := _ }) hg)

theorem symbol?_lookahead (h : r.Sound input) {a : Lookahead}
    (ha : symbol? (r.lookahead v) = some a) :
    (∃ l t, r.lookahead v = .leaf l ∧ l.kind = .token t ∧ a = .token t ∧
      input.lexemes[(r.top v).read]? = some l) ∨
    r.lookahead v = .finish input.trailing ∧ a = .finish ∧
      input.lexemes.length ≤ (r.top v).read := by
  rcases lookahead_cases (v := v) h with ⟨l, hlook, hl⟩ | ⟨hlook, hlen⟩
  · rw [hlook] at ha
    rcases hk : l.kind with t | _
    · simp only [symbol?, hk, Option.some.injEq] at ha
      exact .inl ⟨l, t, hlook, hk, ha.symm, hl⟩
    · simp [symbol?, hk] at ha
  · rw [hlook] at ha
    simp only [symbol?, Option.some.injEq] at ha
    exact .inr ⟨hlook, ha.symm, hlen⟩

theorem Sound.act_shift (h : r.Sound input) (hg : r.graph.Good (r.head v).top) {s : State}
    (ha : actionOn (r.state v) (r.lookahead v) = some (.shift s)) :
    (r.push v (.ofTree (r.lookahead v)) s).Sound input := by
  obtain ⟨a, hsym, hact⟩ := Option.bind_eq_some_iff.1 ha
  obtain ⟨-, hne, t, rfl, ht, hs⟩ := State.shift_of_action hact
  rcases symbol?_lookahead h hsym with ⟨l, t', hlook, hk, ht', hl⟩ | ⟨-, hfin, -⟩
  · obtain rfl := Lookahead.token.inj ht'
    rw [hlook]
    refine (h.push (m := .ofTree (.leaf l)) hg.1 (.leaf l) ?_ (Scan.holds_singleton hl) ?_).1.sound
    · rw [← hs]
      exact .part (.terminal t) (by simpa [Measured.ofTree, Tree.isExtra, hk] using ht)
        (by simp [Measured.ofTree, Tree.symbol?, hk]) (hs ▸ hne)
    · rintro rfl
      simpa using (State.eq_of_next_eq_accepting (by simpa using ht) hs).1
  · simp at hfin

theorem Sound.act_shiftExtra (h : r.Sound input) (hg : r.graph.Good (r.head v).top)
    (ha : actionOn (r.state v) (r.lookahead v) = some .shiftExtra) :
    (r.push v (.ofTree (r.lookahead v)) (r.state v)).Sound input := by
  obtain ⟨a, hsym, hact⟩ := Option.bind_eq_some_iff.1 ha
  obtain ⟨hne, rfl⟩ := State.extra_of_action hact
  rcases symbol?_lookahead h hsym with ⟨l, t', hlook, hk, ht', hl⟩ | ⟨-, hfin, -⟩
  · obtain rfl := Lookahead.token.inj ht'
    rw [hlook]
    refine (h.push (m := .ofTree (.leaf l)) hg.1 (.leaf l) (.extra ?_ hne)
      (Scan.holds_singleton hl) hg.2).1.sound
    simp [Measured.ofTree, Tree.isExtra, hk]
  · simp at hfin

theorem Sound.act_reduce (hi : input.Spaced) (h : r.Sound input)
    (hg : r.graph.Good (r.head v).top) {p : Production}
    (ha : actionOn (r.state v) (r.lookahead v) = some (.reduce p)) :
    r.Added input (p.lhs ≠ .sourceFile) (r.reduce v p).1 := by
  obtain ⟨a, hsym, hact⟩ := Option.bind_eq_some_iff.1 ha
  obtain ⟨hne, hred, hfollow⟩ := State.reduction_of_action hact
  refine h.reduce hi hg.1 hne hred fun hlhs => ?_
  rw [(State.row_facts _).2.2 p hred hlhs, List.mem_singleton] at hfollow
  subst hfollow
  rcases symbol?_lookahead h hsym with ⟨l, t', -, -, ht', -⟩ | ⟨-, -, hlen⟩
  · simp at ht'
  · have := h.graph.read_le _ hg.1
    rw [top] at hlen ⊢
    omega

theorem Sound.act (hi : input.Spaced) (h : r.Sound input) (hv : v < r.heads.length)
    (hs : (r.head v).status = .active) : (r.act v).2.Sound input := by
  have hnh : (r.head v).status ≠ .halted := by simp [hs]
  have hlive := h.live hnh
  have hgood : actionOn (r.state v) (r.lookahead v) ≠ some .accept →
      r.graph.Good (r.head v).top := fun hna =>
    ⟨hlive, fun hacc => hna (h.actionOn_accepting hnh hacc)⟩
  unfold Run.act
  simp only []
  split
  · rename_i s ha
    exact h.act_shift (hgood (by simp [ha])) ha
  · rename_i ha
    exact h.act_shiftExtra (hgood (by simp [ha])) ha
  · rename_i ha
    obtain ⟨a, -, hact⟩ := Option.bind_eq_some_iff.1 ha
    have hacc := (State.accepting_of_action hact).1
    exact (h.accept_of_accepting hv hlive hacc ((h.head v hnh).2 hacc).2).sound
  · rename_i ha
    exact (h.recover hv (hgood (by simp [ha]))).sound
  · rename_i p ha
    have hadd := h.act_reduce hi (hgood (by simp [ha])) ha
    split
    · rename_i r' w hr
      rw [hr] at hadd
      exact hadd.grown.sound.renumber
    · rename_i r' hr
      rw [hr] at hadd
      exact hadd.grown.sound.pause (hadd.good hv (hgood (by simp [ha]))).2.1
  · rename_i ha
    split_ifs
    · exact (h.recover hv (hgood (by simp [ha]))).sound
    · exact h.pause (hgood (by simp [ha]))

/-! ## Contests -/

theorem Sound.contestFrom (hi : input.Spaced) (mine : Standing) :
    ∀ (n j : Nat) {r : Run}, r.Sound input → (Run.contestFrom mine n j r).Sound input
  | 0, _, _, h => h
  | n + 1, j, r, h => by
    have hj := h.rebase (v := j)
    unfold Run.contestFrom
    simp only []
    split
    · exact hj.remove
    · exact Sound.contestFrom hi mine n j hj.remove
    · split
      · rename_i hm
        exact (hj.merge hi hm).1.sound
      · refine Sound.contestFrom hi mine n (j + 1) ?_
        exact (hj.setHead (hj.head j)).setHead (hj.head _)
    · split
      · rename_i hm
        exact (hj.merge hi hm).1.sound
      · exact Sound.contestFrom hi mine n (j + 1) hj

theorem Sound.contestAll (hi : input.Spaced) :
    ∀ (n low : Nat) {r : Run}, r.Sound input → (Run.contestAll n low r).2.Sound input
  | 0, _, _, h => h
  | n + 1, low, r, h => by
    unfold Run.contestAll
    simp only []
    split
    · exact Sound.contestAll hi n low h.remove
    · exact Sound.contestAll hi n _ (h.rebase.contestFrom hi _ _ _)

theorem lt_length_of_paused (h : (r.head v).status = .paused) : v < r.heads.length := by
  by_contra hlt
  rw [Run.head, List.getElem?_eq_none_iff.2 (by omega)] at h
  cases h

theorem Sound.resume (hi : input.Spaced) :
    ∀ (n i : Nat) (running : Bool) (low : Nat) {r : Run}, r.Sound input →
      (Run.resume n i running low r).2.Sound input
  | 0, _, _, _, _, h => h
  | n + 1, i, running, low, r, h => by
    unfold Run.resume
    split_ifs with hp hr
    · have hlt := lt_length_of_paused hp
      obtain ⟨hlive, hacc⟩ := h.head i (by simp [hp])
      have hgood : r.graph.Good (r.head i).top := by
        refine ⟨hlive, fun ha => ?_⟩
        have := (hacc ha).1
        simp [hp] at this
      have hset : (r.setStatus i .active).Sound input :=
        h.setHead (Graph.Good.head (h := { r.head i with status := .active }) hgood)
      refine Sound.resume hi n (i + 1) true _ (hset.handleError hi ?_ ?_).sound
      · simpa [setStatus, Run.setHead] using hlt
      · rw [setStatus, head_setHead hlt]
        exact hgood
    · exact Sound.resume hi n i running low h.remove
    · exact Sound.resume hi n (i + 1) true low h

theorem Sound.condense (hi : input.Spaced) (h : r.Sound input) : r.condense.2.Sound input := by
  have hall := h.contestAll hi r.heads.length noCost
  unfold Run.condense
  simp only []
  refine Sound.resume hi _ _ _ _ ?_
  exact hall.of_heads rfl rfl rfl fun hd hmem => hall.heads hd (List.mem_of_mem_take hmem)

/-! ## Runs -/

/-- One step keeps a run sound, and a finished parse gives the tree of the source. -/
theorem Sound.step (hi : input.Spaced) (h : r.Sound input) :
    match r.step with
    | .inl tree => ∀ t ∈ tree, t.Whole input
    | .inr r' => r'.Sound input := by
  have hmove : ∀ {r : Run} {turn frontier : Nat}, r.Sound input →
      ({ r with turn := turn, frontier := frontier } : Run).Sound input :=
    fun h => ⟨h.input_eq, h.graph, h.heads, h.best⟩
  unfold Run.step
  simp only []
  split_ifs with hv hs
  · have hact := h.act hi hv hs
    rcases hr : r.act r.turn with ⟨done, r'⟩
    rw [hr] at hact
    cases done
    · exact hact
    · simp only []
      split_ifs
      · exact hmove hact
      · exact hact
  · exact hmove h
  · intro t ht
    obtain ⟨m, hm, rfl⟩ := Option.mem_map.1 ht
    exact (h.condense hi).best m hm
  · exact hmove (h.condense hi)

theorem Sound.run (hi : input.Spaced) :
    ∀ (fuel : Nat) {r : Run}, r.Sound input → ∀ t ∈ r.run fuel, t.Whole input
  | 0, _, _ => by simp [Run.run]
  | fuel + 1, r, h => by
    have hkept := h.step hi
    rcases hstep : r.step with tree | r' <;> rw [hstep] at hkept
    · rw [run_of_done hstep]
      exact hkept
    · rw [run_of_step hstep]
      exact Sound.run hi fuel hkept

end Run

theorem Tree.whole_of_ofScan? {input : Scan} {t : Tree} (hi : input.Spaced)
    (h : Tree.ofScan? input = some t) : t.Whole input :=
  have ⟨fuel, hrun⟩ := Run.toEnd?_eq_some_iff.1 h
  (Run.sound_start input).run hi fuel t hrun

/-! ## Documents -/

namespace Document

variable {source : String} {d : Document}

theorem value_prepare : prepare.value = .ok () := by
  rfl

theorem value_parse (source : String) :
    (parse source).value = (ofSource? source).elim (.error .cancelled) .ok := by
  rcases h : ofSource? source with _ | d
  · simp only [parse, bind, value_prepare, h]
    rfl
  · simp only [parse, bind, value_prepare, h]
    rfl

theorem parse_eq_ok_iff : (parse source).value = .ok d ↔ ofSource? source = some d := by
  rw [value_parse]
  rcases ofSource? source with _ | d' <;> simp

/-- The document of a source, if the parser comes to an end with a tree in so many steps. Unlike
`ofSource?`, it can be evaluated in proofs. -/
def ofSourceWithin? (fuel : Nat) (source : String) : Option Document :=
  ((Run.start (.ofChars source.toList)).run fuel).map fun t => ⟨source, .root t⟩

/-- A source is parsed if some number of steps is enough. -/
theorem parse_eq_ok_iff_exists :
    (parse source).value = .ok d ↔ ∃ fuel, ofSourceWithin? fuel source = some d := by
  simp only [parse_eq_ok_iff, ofSource?, Tree.ofChars?, Tree.ofScan?, ofSourceWithin?,
    Option.map_eq_some_iff, Run.toEnd?_eq_some_iff]
  constructor
  · rintro ⟨t, ⟨fuel, hrun⟩, hd⟩
    exact ⟨fuel, t, hrun, hd⟩
  · rintro ⟨fuel, t, hrun, hd⟩
    exact ⟨t, ⟨fuel, hrun⟩, hd⟩

theorem parse_of_within {fuel : Nat} (h : ofSourceWithin? fuel source = some d) :
    (parse source).value = .ok d :=
  parse_eq_ok_iff_exists.2 ⟨fuel, h⟩

/-- What is seen of the document of a source after some steps. -/
theorem exists_of_within (fuel : Nat) (source : String) (p : Document → Prop) [DecidablePred p]
    (h : (ofSourceWithin? fuel source).any (p ·)) : ∃ d, (parse source).value = .ok d ∧ p d := by
  obtain ⟨d, hd, hp⟩ := (Option.any_eq_true _ _).1 h
  exact ⟨d, parse_of_within hd, of_decide_eq_true hp⟩

theorem exists_of_isSome (fuel : Nat) (source : String)
    (h : (ofSourceWithin? fuel source).isSome) : ∃ d, (parse source).value = .ok d := by
  obtain ⟨d, hd⟩ := Option.isSome_iff_exists.1 h
  exact ⟨d, parse_of_within hd⟩

/-- A source passes the check if its tree has no damage. -/
theorem check_eq_ok_iff : (check source).value = .ok d ↔
    (parse source).value = .ok d ∧ d.root.isDamaged = false := by
  rcases h : (parse source).value with e | d'
  · have hcheck : (check source).value = .error e := by
      simp only [check, bind, h]
      rfl
    simp [hcheck]
  · rcases hd : d'.root.isDamaged with _ | _
    · have hcheck : (check source).value = .ok d' := by
        simp only [check, bind, h, hd]
        rfl
      rw [hcheck, Except.ok.injEq]
      exact ⟨fun heq => ⟨heq, heq ▸ hd⟩, And.left⟩
    · obtain ⟨e, hcheck⟩ : ∃ e, (check source).value = .error e := by
        simp only [check, bind, h, hd]
        exact ⟨_, rfl⟩
      rw [hcheck, Except.ok.injEq]
      constructor
      · intro heq
        cases heq
      · rintro ⟨rfl, hsound⟩
        rw [hd] at hsound
        cases hsound

theorem whole_of_parse (h : (parse source).value = .ok d) :
    ∃ t, Tree.ofChars? source.toList = some t ∧ d.root = .root t ∧
      t.Whole (.ofChars source.toList) := by
  obtain ⟨t, ht, rfl⟩ := Option.map_eq_some_iff.1 (parse_eq_ok_iff.1 h)
  exact ⟨t, ht, rfl, Tree.whole_of_ofScan? (Scan.spaced_ofChars _) ht⟩

end Document

end CalcTree
