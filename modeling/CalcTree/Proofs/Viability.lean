import CalcTree.Proofs.Machine
import CalcTree.Proofs.Regrouping
import CalcTree.Proofs.Scan

/-!
# Wrong tokens are never shifted

The automaton on its own: a stack of states, and tokens that are read one after the other. Before
it reads a token it performs the reductions which the table calls for on that token, and some of
these may turn out to be in vain. Still it reads a token exactly if what was read so far can go on
with it (`Consumes.continues_iff`).

Whatever the automaton has read is derived from symbols that lead through the states on its stack
(`Spells`). From every such stack there is a way to a whole file (`Spells.exists_sentence`), so what
was read is the beginning of a sentence. In the other direction, the shift-reduce machine reads
every sentence, and the automaton does what the machine does (`Follows.steps`).
-/

namespace CalcTree

namespace Derivation

theorem nodesAll_append (ds es : List Derivation) :
    nodesAll (ds ++ es) = nodesAll ds + nodesAll es := by
  induction ds with
  | nil => simp [nodesAll]
  | cons d ds ih => simp only [List.cons_append, nodesAll, ih, Nat.add_assoc]

theorem nodesAll_reverse (ds : List Derivation) : nodesAll ds.reverse = nodesAll ds := by
  induction ds with
  | nil => rfl
  | cons d ds ih =>
    rw [List.reverse_cons, nodesAll_append, ih, nodesAll, nodesAll, nodesAll]
    omega

theorem worthAll_append (Xs Ys : List Symbol) :
    worthAll (Xs ++ Ys) = worthAll Xs + worthAll Ys := by
  induction Xs with
  | nil => simp [worthAll]
  | cons X Xs ih => simp only [List.cons_append, worthAll, ih, Nat.add_assoc]

theorem worthAll_reverse (Xs : List Symbol) : worthAll Xs.reverse = worthAll Xs := by
  induction Xs with
  | nil => rfl
  | cons X Xs ih =>
    rw [List.reverse_cons, worthAll_append, ih, worthAll, worthAll, worthAll]
    omega

/-! ## Something can be derived from every symbol -/

/-- Whether something can be derived from a symbol. -/
def Productive (X : Symbol) : Prop :=
  ∃ d : Derivation, d.Valid ∧ d.symbol = X

theorem exists_validAll : ∀ (Xs : List Symbol), (∀ X ∈ Xs, Productive X) →
    ∃ ds, ValidAll ds ∧ ds.map symbol = Xs
  | [], _ => ⟨[], trivial, rfl⟩
  | X :: Xs, h => by
    obtain ⟨d, hd, rfl⟩ := h X (by simp)
    obtain ⟨ds, hds, rfl⟩ := exists_validAll Xs fun Y hY => h Y (by simp [hY])
    exact ⟨d :: ds, ⟨hd, hds⟩, rfl⟩

theorem productive_terminal (t : Terminal) : Productive (.terminal t) :=
  ⟨.token t, trivial, rfl⟩

theorem productive_lhs {p : Production} (h : ∀ X ∈ p.rhs, Productive X) :
    Productive (.nonterminal p.lhs) := by
  obtain ⟨ds, hds, hrhs⟩ := exists_validAll _ h
  exact ⟨.node p ds, ⟨hrhs, hds⟩, rfl⟩

/-- A production from which each construct can be built of constructs with a lower `height`. -/
def simplest : Nonterminal → Production
  | .sourceFile => .emptyFile
  | .statement => .expressionStatement
  | .assignment => .assignExpression
  | .expression => .expression
  | .sum => .sumOfProduct
  | .additive => .addition
  | .product => .productOfSigned
  | .multiplicative => .multiplication
  | .signed => .signedOfRaised
  | .unary => .negation
  | .raised => .raisedOfSuffixed
  | .power => .power
  | .suffixed => .suffixedOfPrimary
  | .factorial => .factorial
  | .primary => .numberPrimary
  | .functionCall => .emptyCall
  | .argumentList => .oneArgument
  | .functionBody => .plainBody
  | .parameterList => .noParameters
  | .statements => .firstStatement
  | .moreArguments => .secondArgument
  | .moreParameters => .secondParameter

def height : Symbol → Nat
  | .terminal _ => 0
  | .nonterminal n =>
    match n with
    | .sourceFile | .primary | .functionCall | .parameterList | .moreParameters => 1
    | .suffixed => 2
    | .raised | .factorial => 3
    | .signed => 4
    | .product | .unary | .power => 5
    | .sum | .multiplicative => 6
    | .expression | .additive => 7
    | _ => 8 + if n = .statements then 1 else 0

theorem height_lt_of_simplest : ∀ n ∈ Nonterminal.all, (simplest n).lhs = n ∧
    ∀ X ∈ (simplest n).rhs, height X < height (.nonterminal n) := by
  decide

theorem productive (X : Symbol) : Productive X := by
  induction hn : height X using Nat.strong_induction_on generalizing X with
  | _ n ih =>
    rcases X with t | m
    · exact productive_terminal t
    · obtain ⟨hlhs, hlt⟩ := height_lt_of_simplest m m.mem_all
      rw [← hlhs]
      exact productive_lhs fun Y hY => ih _ (hn ▸ hlt Y hY) Y rfl

end Derivation

namespace State

/-- Every state that is neither the first nor the last lies within some production: what comes
before its place in the production weighs more than the construct. -/
theorem exists_completes : ∀ s : State, s ≠ error → s ≠ start → s ≠ accepting →
    ∃ p ∈ Production.all, ∃ k ∈ List.range (p.rhs.length + 1),
      s.completes p k ∧ Derivation.slack p.lhs < Derivation.worthAll (p.rhs.take k) := by
  decide +kernel

theorem entry_start : entry start = none := by
  decide +kernel

theorem action_accepting : accepting.action .finish = some .accept := by
  decide

end State

namespace Automaton

open CalcTree.Derivation (ValidAll yieldAll nodesAll worthAll Productive)

/-! ## Stacks of states -/

/-- The stack after one reduction that the table calls for. -/
def reduce? (a : Lookahead) : List State → Option (List State)
  | [] => none
  | s :: ss =>
    match s.action a with
    | some (.reduce p) =>
      match (s :: ss).drop p.rhs.length with
      | [] => none
      | b :: bs => some (b.next (.nonterminal p.lhs) :: b :: bs)
    | _ => none

/-- Whether reductions on a lookahead lead from one stack to another. -/
def Reduces (a : Lookahead) : List State → List State → Prop :=
  Relation.ReflTransGen fun stk stk' => reduce? a stk = some stk'

/-- The stack after at most so many reductions. -/
def reductions (a : Lookahead) : Nat → List State → List State
  | 0, stk => stk
  | n + 1, stk => (reduce? a stk).elim stk (reductions a n)

theorem reduces_reductions {a : Lookahead} : ∀ (n : Nat) {stk : List State},
    Reduces a stk (reductions a n stk)
  | 0, _ => .refl
  | n + 1, stk => by
    rcases h : reduce? a stk with _ | stk'
    · rw [reductions, h]
      exact .refl
    · rw [reductions, h]
      exact .head h (reduces_reductions n)

/-- Whether the reductions on a lookahead end in a stack: there the table calls for none. -/
structure Settles (a : Lookahead) (stk : List State) (s : State) (ss : List State) : Prop where
  reduces : Reduces a stk (s :: ss)
  stops : ∀ p, s.action a ≠ some (.reduce p)

/-- Whether the automaton comes to a stack by reading tokens. -/
inductive Consumes : List Terminal → List State → Prop
  | start : Consumes [] [.start]
  | shift {w : List Terminal} {stk ss : List State} {s s' : State} {t : Terminal}
      (h : Consumes w stk) (hr : Reduces (.token t) stk (s :: ss))
      (ha : s.action (.token t) = some (.shift s')) : Consumes (w ++ [t]) (s' :: s :: ss)

/-- Whether derived symbols lead through the states of a stack, both with the last first. -/
inductive Spells : List State → List Derivation → Prop
  | bottom : Spells [.start] []
  | push {s : State} {ss : List State} {d : Derivation} {ds : List Derivation}
      (h : Spells (s :: ss) ds) (hv : d.Valid) (hX : d.symbol ≠ .terminal .comment)
      (hs : s.next d.symbol ≠ .error) : Spells (s.next d.symbol :: s :: ss) (d :: ds)

variable {stk stk' ss : List State} {s s' : State} {ds : List Derivation} {a : Lookahead}
  {p : Production} {w : List Terminal} {t : Terminal}

theorem Spells.validAll (h : Spells stk ds) : ValidAll ds.reverse := by
  induction h with
  | bottom => trivial
  | push _ hv _ _ ih =>
    rw [List.reverse_cons]
    exact (Derivation.validAll_append _ _).2 ⟨ih, hv, trivial⟩

theorem Spells.ne_error (h : Spells (s :: ss) ds) : s ≠ .error := by
  cases h with
  | bottom => decide
  | push _ _ _ hs => exact hs

theorem Spells.eq_nil_of_start (h : Spells (.start :: ss) ds) : ds = [] := by
  generalize hstk : State.start :: ss = stk at h
  cases h with
  | bottom => rfl
  | push _ _ hX _ => exact absurd (List.cons.inj hstk).1.symm (State.next_ne_start hX)

/-- Only a whole file leads to the accepting state. -/
theorem Spells.eq_file_of_accepting (h : Spells (.accepting :: ss) ds) :
    ∃ d : Derivation, ds = [d] ∧ d.symbol = .nonterminal .sourceFile ∧ d.Valid := by
  generalize hstk : State.accepting :: ss = stk at h
  cases h with
  | bottom => exact absurd (List.cons.inj hstk).1 (by decide)
  | @push s ss' d ds h hv hX _ =>
    obtain ⟨hsymbol, rfl⟩ := State.eq_of_next_eq_accepting hX (List.cons.inj hstk).1.symm
    rw [h.eq_nil_of_start]
    exact ⟨d, rfl, hsymbol, hv⟩

/-- What lies on a stack below a place in a production are the parts before that place. -/
theorem Spells.pop : ∀ {k : Nat} {s : State} {ss : List State} {ds : List Derivation},
    Spells (s :: ss) ds → k ≤ p.rhs.length → s.completes p k →
    ∃ parts rest b bs, ds = parts.reverse ++ rest ∧ ValidAll parts ∧
      parts.map Derivation.symbol = p.rhs.take k ∧ (s :: ss).drop k = b :: bs ∧
      Spells (b :: bs) rest ∧ b.completes p 0
  | 0, s, ss, ds, h, _, hc => ⟨[], ds, s, ss, by simp, trivial, by simp, rfl, h, hc⟩
  | k + 1, s, ss, ds, h, hk, hc => by
    cases h with
    | bottom =>
      have hentry := State.entry_of_completes _ p p.mem_all k hk hc
      rw [State.entry_start] at hentry
      simp at hentry
      omega
    | @push s ss d ds h hv hX hs =>
      obtain ⟨hget, hbelow⟩ := State.symbol_of_completes hk hX hs hc
      obtain ⟨parts, rest, b, bs, rfl, hvalid, hsymbols, hdrop, hspells, hb⟩ :=
        h.pop (by omega) hbelow
      refine ⟨parts ++ [d], rest, b, bs, by simp, ?_, ?_, by simpa using hdrop, hspells, hb⟩
      · exact (Derivation.validAll_append _ _).2 ⟨hvalid, hv, trivial⟩
      · rw [List.take_add_one, hget, List.map_append, hsymbols]
        rfl

/-- A construct takes the place of its parts. -/
theorem Spells.construct {b : State} {bs : List State} (h : Spells (b :: bs) ds)
    (hb : b.completes p 0) (parts : List Derivation) (hp : parts.map Derivation.symbol = p.rhs)
    (hv : ValidAll parts) :
    Spells (b.next (.nonterminal p.lhs) :: b :: bs) (.node p parts :: ds) :=
  .push (d := .node p parts) h ⟨hp, hv⟩ (by simp [Derivation.symbol])
    (State.next_of_completes b p p.mem_all hb)

/-! ## What was read is the beginning of a sentence -/

theorem Spells.exists_sentence (h : Spells stk ds) :
    ∃ v, yieldAll ds.reverse ++ v ∈ grammar.language := by
  -- A construct weighs less than its parts, so in the end there is a whole file.
  induction hn : worthAll (ds.map Derivation.symbol) using Nat.strong_induction_on
    generalizing stk ds with
  | _ n ih =>
    rcases stk with _ | ⟨s, ss⟩
    · cases h
    by_cases hstart : s = .start
    · subst hstart
      rw [h.eq_nil_of_start]
      refine ⟨[], Derivation.mem_language_iff.2 ⟨.node .emptyFile [], rfl, rfl, rfl, trivial⟩⟩
    by_cases haccept : s = .accepting
    · subst haccept
      obtain ⟨d, rfl, hsymbol, hv⟩ := h.eq_file_of_accepting
      refine ⟨[], Derivation.mem_language_iff.2 ⟨d, hsymbol, ?_, hv⟩⟩
      simp [yieldAll]
    obtain ⟨p, -, k, hk, hc, hlt⟩ := State.exists_completes s h.ne_error hstart haccept
    obtain ⟨parts, rest, b, bs, rfl, hvalid, hsymbols, -, hspells, hb⟩ :=
      h.pop (Nat.le_of_lt_succ (List.mem_range.1 hk)) hc
    obtain ⟨more, hmore, hmore'⟩ := Derivation.exists_validAll (p.rhs.drop k)
      fun X _ => Derivation.productive X
    have hnew := hspells.construct hb (parts ++ more)
      (by rw [List.map_append, hsymbols, hmore', List.take_append_drop])
      ((Derivation.validAll_append _ _).2 ⟨hvalid, hmore⟩)
    obtain ⟨v, hv⟩ := ih _ (by
      rw [← hn, List.map_cons, worthAll, List.map_append, Derivation.worthAll_append,
        List.map_reverse, Derivation.worthAll_reverse, hsymbols]
      simp only [Derivation.symbol, Derivation.worth]
      omega) hnew rfl
    refine ⟨yieldAll more ++ v, ?_⟩
    simpa [Derivation.yieldAll_append, yieldAll, Derivation.yield] using hv

/-! ## Reductions -/

/-- A reduction that the table calls for is possible, and only builds one more construct. -/
theorem Spells.reduce (h : Spells (s :: ss) ds) (ha : s.action a = some (.reduce p)) :
    ∃ stk' ds', reduce? a (s :: ss) = some stk' ∧ Spells stk' ds' ∧
      yieldAll ds'.reverse = yieldAll ds.reverse ∧ nodesAll ds' = nodesAll ds + 1 := by
  obtain ⟨-, hred, -⟩ := State.reduction_of_action ha
  obtain ⟨parts, rest, b, bs, rfl, hvalid, hsymbols, hdrop, hspells, hb⟩ :=
    h.pop (Nat.le_refl _) (State.completes_length.2 hred)
  rw [List.take_length] at hsymbols
  refine ⟨_, _, ?_, hspells.construct hb parts hsymbols hvalid, ?_, ?_⟩
  · simp only [reduce?, ha, hdrop]
  · simp [Derivation.yieldAll_append, yieldAll, Derivation.yield]
  · rw [Derivation.nodesAll_append, Derivation.nodesAll_reverse, nodesAll, Derivation.nodes]
    omega

theorem action_of_reduce? (h : reduce? a (s :: ss) = some stk') :
    ∃ p, s.action a = some (.reduce p) := by
  simp only [reduce?] at h
  split at h
  · exact ⟨_, ‹_›⟩
  · simp at h

theorem Spells.reduces (h : Spells stk ds) (hr : Reduces a stk stk') :
    ∃ ds', Spells stk' ds' ∧ yieldAll ds'.reverse = yieldAll ds.reverse := by
  induction hr with
  | refl => exact ⟨ds, h, rfl⟩
  | @tail stk₁ stk₂ _ hstep ih =>
    obtain ⟨ds₁, h₁, hyield⟩ := ih
    rcases stk₁ with _ | ⟨s, ss⟩
    · simp [reduce?] at hstep
    obtain ⟨p, ha⟩ := action_of_reduce? hstep
    obtain ⟨stk', ds', hstep', h', hyield', -⟩ := h₁.reduce ha
    obtain rfl : stk' = stk₂ := Option.some.inj (hstep'.symm.trans hstep)
    exact ⟨ds', h', hyield'.trans hyield⟩

theorem Spells.symbol_ne_sourceFile (h : Spells (s :: ss) ds) (hs : s ≠ .accepting) :
    ∀ d ∈ ds, d.symbol ≠ .nonterminal .sourceFile := by
  generalize hstk : s :: ss = stk at h
  induction h generalizing s ss with
  | bottom => simp
  | @push s' ss' d ds h hv hX hnext ih =>
    obtain ⟨rfl, rfl⟩ := List.cons.inj hstk
    refine List.forall_mem_cons.2 ⟨fun hd => ?_, ih (State.ne_accepting_of_next hX hnext) rfl⟩
    rw [hd] at hnext hs
    exact hs (State.next_sourceFile hnext)

/-- There are not many more constructs on a stack than tokens. -/
theorem Spells.nodesAll_le (h : Spells stk ds) :
    nodesAll ds ≤ 12 * (yieldAll ds.reverse).length + 1 := by
  rcases stk with _ | ⟨s, ss⟩
  · cases h
  by_cases hs : s = .accepting
  · subst hs
    obtain ⟨d, rfl, -, hv⟩ := h.eq_file_of_accepting
    simpa [nodesAll, yieldAll] using d.nodes_le hv
  · have hle := Derivation.nodesAll_add_le ds.reverse h.validAll (by
      simpa using h.symbol_ne_sourceFile hs)
    rw [Derivation.nodesAll_reverse] at hle
    omega

/-- The reductions that the table calls for come to an end. -/
theorem Spells.exists_settled (h : Spells stk ds) (a : Lookahead) :
    ∃ s ss, Settles a stk s ss := by
  induction hn : 12 * (yieldAll ds.reverse).length + 1 - nodesAll ds using
    Nat.strong_induction_on generalizing stk ds with
  | _ n ih =>
    rcases stk with _ | ⟨s, ss⟩
    · cases h
    by_cases hp : ∃ p, s.action a = some (.reduce p)
    · obtain ⟨p, hp⟩ := hp
      obtain ⟨stk', ds', hstep, h', hyield, hnodes⟩ := h.reduce hp
      have hle := h'.nodesAll_le
      rw [hyield] at hle
      obtain ⟨s', ss', hr, hs'⟩ := ih _ (by rw [hyield]; omega) h' rfl
      exact ⟨s', ss', .head hstep hr, hs'⟩
    · exact ⟨s, ss, .refl, fun p hp' => hp ⟨p, hp'⟩⟩

/-! ## What the automaton reads -/

theorem Consumes.spells (h : Consumes w stk) : ∃ ds, Spells stk ds ∧ yieldAll ds.reverse = w := by
  induction h with
  | start => exact ⟨[], .bottom, rfl⟩
  | @shift w stk ss s s' t _ hr ha ih =>
    obtain ⟨ds, hspells, rfl⟩ := ih
    obtain ⟨ds', hspells', hyield⟩ := hspells.reduces hr
    obtain ⟨-, hs', t', ht, hne, hnext⟩ := State.shift_of_action ha
    obtain rfl : t = t' := by simpa using ht
    refine ⟨.token t :: ds', ?_, ?_⟩
    · rw [← hnext]
      exact .push (d := .token t) hspells' trivial (by simpa [Derivation.symbol] using hne)
        (by rwa [Derivation.symbol, hnext])
    · rw [List.reverse_cons, Derivation.yieldAll_append, hyield]
      rfl

theorem Settles.of_shift (hr : Reduces (.token t) stk (s :: ss))
    (ha : s.action (.token t) = some (.shift s')) : Settles (.token t) stk s ss :=
  ⟨hr, by simp [ha]⟩

/-- The reductions on a lookahead end in one stack only. -/
theorem Settles.unique {s₁ s₂ : State} {ss₁ ss₂ : List State} (h₁ : Settles a stk s₁ ss₁)
    (h₂ : Settles a stk s₂ ss₂) : s₁ = s₂ ∧ ss₁ = ss₂ := by
  have hstop : ∀ {s : State} {ss stk : List State}, (∀ p, s.action a ≠ some (.reduce p)) →
      Reduces a (s :: ss) stk → s :: ss = stk := by
    intro s ss stk hs hr
    rcases Relation.ReflTransGen.cases_head hr with heq | ⟨stk', hstep, -⟩
    · exact heq
    · obtain ⟨p, hp⟩ := action_of_reduce? hstep
      exact absurd hp (hs p)
  rcases Relation.ReflTransGen.total_of_right_unique
    (fun _ _ _ h h' => Option.some.inj (h.symm.trans h')) h₁.reduces h₂.reduces with h | h
  · exact List.cons.inj (hstop h₁.stops h)
  · exact List.cons.inj (hstop h₂.stops h).symm

theorem Consumes.unique (h : Consumes w stk) : ∀ {stk' : List State}, Consumes w stk' →
    stk = stk' := by
  induction h with
  | start =>
    intro stk' h'
    generalize hw : [] = w at h'
    cases h' with
    | start => rfl
    | shift => simp at hw
  | @shift w stk ss s s₁ t _ hr ha ih =>
    intro stk' h'
    generalize hw : w ++ [t] = w' at h'
    cases h' with
    | start => simp at hw
    | @shift w' stk' ss' s' s₁' t' h' hr' ha' =>
      obtain ⟨rfl, ht⟩ := List.append_inj' hw rfl
      obtain rfl : t = t' := by simpa using ht
      obtain rfl := ih h'
      obtain ⟨rfl, rfl⟩ := (Settles.of_shift hr ha).unique (.of_shift hr' ha')
      rw [ha, Option.some.injEq, Action.shift.injEq] at ha'
      rw [ha']

/-- What is read first is read in the same way, whatever comes after. -/
theorem Consumes.of_append (h : Consumes w stk) : ∀ {u v : List Terminal} {t : Terminal},
    w = u ++ t :: v → ∃ stk' s ss s', Consumes u stk' ∧ Reduces (.token t) stk' (s :: ss) ∧
      s.action (.token t) = some (.shift s') := by
  induction h with
  | start => simp
  | @shift w stk ss s s' t h hr ha ih =>
    intro u v t' hw
    rcases List.eq_nil_or_concat v with rfl | ⟨v, x, rfl⟩
    · obtain ⟨rfl, ht⟩ := List.append_inj' hw rfl
      obtain rfl : t = t' := by simpa using ht
      exact ⟨stk, s, ss, s', h, hr, ha⟩
    · rw [List.concat_eq_append, ← List.cons_append, ← List.append_assoc] at hw
      exact ih (List.append_inj' hw rfl).1

/-! ## The automaton follows the machine -/

open Machine (stateOf)

/-- The states that count on the machine's stack: extra trees leave the state as it is. -/
def bones : List Frame → List State
  | [] => [.start]
  | f :: fs => if f.tree.isExtra then bones fs else f.state :: bones fs

/-- Whether extra trees on a stack leave the state as it is. -/
inductive Neat : List Frame → Prop
  | nil : Neat []
  | part {f : Frame} {fs : List Frame} (he : f.tree.isExtra = false) (h : Neat fs) :
      Neat (f :: fs)
  | extra {f : Frame} {fs : List Frame} (he : f.tree.isExtra) (hs : f.state = stateOf fs)
      (h : Neat fs) : Neat (f :: fs)

theorem Neat.exists_bones {fs : List Frame} (h : Neat fs) :
    ∃ ss, bones fs = stateOf fs :: ss := by
  induction h with
  | nil => exact ⟨[], rfl⟩
  | part he _ _ => exact ⟨_, by rw [bones, he]; rfl⟩
  | extra he hs _ ih =>
    obtain ⟨ss, hss⟩ := ih
    exact ⟨ss, by rw [bones, if_pos he, hss, stateOf, hs]⟩

theorem Neat.off {n : Nat} {fs base : List Frame} {ts : List Measured}
    (ho : Machine.Off n fs ts base) (h : Neat fs) :
    Neat base ∧ (bones fs).drop n = bones base := by
  induction ho with
  | done => exact ⟨h, rfl⟩
  | part he _ ih =>
    cases h with
    | part _ h =>
      obtain ⟨hbase, hdrop⟩ := ih h
      exact ⟨hbase, by rw [bones, he]; exact hdrop⟩
    | extra he' => simp [he] at he'
  | extra he _ ih =>
    cases h with
    | part he' => simp [he] at he'
    | extra _ _ h =>
      obtain ⟨hbase, hdrop⟩ := ih h
      exact ⟨hbase, by rw [bones, if_pos he]; exact hdrop⟩

theorem Neat.extras {fs : List Frame} (h : Neat fs) : ∀ es : List Measured,
    (∀ e ∈ es, e.isExtra) → Neat (es.map (Frame.mk (stateOf fs)) ++ fs) ∧
      bones (es.map (Frame.mk (stateOf fs)) ++ fs) = bones fs
  | [], _ => ⟨h, rfl⟩
  | e :: es, hes => by
    obtain ⟨ih, hbones⟩ := h.extras es fun e he => hes e (List.mem_cons_of_mem _ he)
    have he : e.isExtra := hes e (by simp)
    refine ⟨.extra he ?_ ih, ?_⟩
    · rcases es with _ | ⟨e', es⟩ <;> rfl
    · rw [List.map_cons, List.cons_append, bones, if_pos he, hbones]

theorem Neat.heap {base : List Frame} (h : Neat base) (p : Production) (ts : List Measured) :
    Neat (Machine.heap base p ts) ∧
      bones (Machine.heap base p ts) =
        (stateOf base).next (.nonterminal p.lhs) :: bones base := by
  set s := (stateOf base).next (.nonterminal p.lhs)
  have hpart : Neat (⟨s, (Run.construct p ts).1⟩ :: base) := .part rfl h
  obtain ⟨hneat, hbones⟩ := hpart.extras (Run.construct p ts).2.reverse fun e he =>
    Measured.isExtra_of_mem_splitExtras (List.mem_reverse.1 he)
  exact ⟨hneat, hbones.trans rfl⟩

/-- Whether the automaton has done what the machine has, in reading `w`. -/
structure Follows (w : List Terminal) (m : Machine) : Prop where
  neat : Neat m.stack
  consumes : ∃ u stk, Consumes u stk ∧ u ++ Lexeme.terminals m.rest = w ∧
    Reduces (Machine.lookOf (Lexeme.terminals m.rest)) stk (bones m.stack)

theorem lookOf_of_sight {ls : List Lexeme} (h : Machine.sight ls = some a)
    (ha : a ≠ .token .comment) : Machine.lookOf (Lexeme.terminals ls) = a := by
  rcases ls with _ | ⟨l, ls⟩
  · simpa [Machine.sight, Lexeme.terminals, Machine.lookOf] using h
  · rcases hl : l.kind with t | _ <;> simp only [Machine.sight, hl, Option.some.injEq,
      reduceCtorEq] at h
    subst h
    rw [Machine.terminals_cons_of_ne hl (by simpa using ha), Machine.lookOf]

theorem Follows.step {m m' : Machine} (h : Follows w m) (hs : Machine.Step m m') :
    Follows w m' := by
  obtain ⟨hneat, u, stk, hu, hw, hr⟩ := h
  cases hs with
  | @shift fs l rest t s hl ha =>
    obtain ⟨-, -, t', ht, hne, -⟩ := State.shift_of_action ha
    obtain rfl : t = t' := by simpa using ht
    obtain ⟨ss, hss⟩ := hneat.exists_bones
    have hextra : (Measured.ofTree (.leaf l)).isExtra = false := by
      simp [Measured.isExtra, Measured.ofTree, Tree.isExtra, hl, hne]
    simp only [Machine.terminals_cons_of_ne hl hne, Machine.lookOf, hss] at hw hr
    refine ⟨.part hextra hneat, u ++ [t], s :: stateOf fs :: ss, .shift hu hr ha,
      by simpa using hw, ?_⟩
    rw [bones, hextra, hss]
    exact .refl
  | @extra fs l rest hl hne =>
    have hextra : (Measured.ofTree (.leaf l)).isExtra := by
      simp [Measured.isExtra, Measured.ofTree, Tree.isExtra, hl]
    rw [Machine.terminals_cons_of_comment hl] at hw hr
    refine ⟨.extra hextra rfl hneat, u, stk, hu, hw, ?_⟩
    rw [bones, if_pos hextra]
    exact hr
  | @reduce fs base rest a p ts hsight ha ho =>
    have hne : a ≠ .token .comment := by
      rintro rfl
      rw [State.action_comment (State.reduction_of_action ha).1] at ha
      cases ha
    obtain ⟨hbase, hdrop⟩ := hneat.off ho
    obtain ⟨hheap, hbones⟩ := hbase.heap p ts
    obtain ⟨ss, hss⟩ := hneat.exists_bones
    obtain ⟨bs, hbs⟩ := hbase.exists_bones
    refine ⟨hheap, u, stk, hu, hw, hr.tail ?_⟩
    rw [hss, hbs] at hdrop
    simp only [lookOf_of_sight hsight hne, hss, hbones, hbs, reduce?, ha, hdrop]

theorem Follows.steps {n : Nat} {m m' : Machine} (hs : Machine.Steps n m m')
    (h : Follows w m) : Follows w m' := by
  induction hs with
  | refl => exact h
  | cons hs _ ih => exact ih (h.step hs)

/-- The automaton reads every sentence, and then accepts. -/
theorem exists_accepts (h : w ∈ grammar.language) :
    ∃ stk ss, Consumes w stk ∧ Settles .finish stk .accepting ss := by
  obtain ⟨P, hP, rfl⟩ := Program.mem_language_iff.1 h
  obtain ⟨source, hknown, htokens⟩ := Scan.exists_source P.tokens fun t ht h => by
    rw [h] at ht
    exact P.comment_not_mem_tokens ht
  obtain ⟨fs, es, hsteps, hpiece, hes⟩ := Machine.read_file hknown P.valid_derivation
    P.symbol_derivation (P.yield_derivation.trans htokens.symm) hP.settled
  have hstart : Follows P.tokens ⟨[], (Scan.ofChars source.toList).lexemes⟩ :=
    ⟨.nil, [], [.start], .start, by rw [List.nil_append, htokens], .refl⟩
  obtain ⟨hneat, u, stk, hu, hw, hr⟩ := hstart.steps hsteps
  obtain ⟨ss, hss⟩ := hneat.exists_bones
  rw [hpiece.stateOf_eq] at hss
  obtain rfl : u = P.tokens := by simpa [Lexeme.terminals] using hw
  exact ⟨stk, ss, hu, hss ▸ hr, fun p => by rw [State.action_accepting]; simp⟩

/-- Whatever token comes next, the reductions that the table calls for on it come to an end. Then
the token is read exactly if it can follow what was read. At the end of the tokens they are
accepted exactly if they are a sentence. -/
theorem Consumes.continues_iff (h : Consumes w stk) :
    (∀ t, ∃ s ss, Settles (.token t) stk s ss ∧
      ((∃ s', s.action (.token t) = some (.shift s')) ↔ ∃ v, w ++ t :: v ∈ grammar.language)) ∧
    ∃ s ss, Settles .finish stk s ss ∧
      (s.action .finish = some .accept ↔ w ∈ grammar.language) := by
  obtain ⟨ds, hspells, hyield⟩ := h.spells
  constructor
  · intro t
    obtain ⟨s, ss, hs⟩ := hspells.exists_settled (.token t)
    refine ⟨s, ss, hs, ?_, ?_⟩
    · rintro ⟨s', ha⟩
      obtain ⟨es, hes, hyield'⟩ := (Consumes.shift h hs.reduces ha).spells
      obtain ⟨v, hv⟩ := hes.exists_sentence
      refine ⟨v, ?_⟩
      rwa [hyield', List.append_assoc] at hv
    · rintro ⟨v, hv⟩
      obtain ⟨stk', -, hw, -⟩ := exists_accepts hv
      obtain ⟨stk₁, s₁, ss₁, s', h₁, hr₁, ha⟩ := hw.of_append rfl
      obtain rfl := h.unique h₁
      obtain ⟨rfl, -⟩ := hs.unique (.of_shift hr₁ ha)
      exact ⟨s', ha⟩
  · obtain ⟨s, ss, hs⟩ := hspells.exists_settled .finish
    refine ⟨s, ss, hs, fun ha => ?_, fun hw => ?_⟩
    · obtain ⟨rfl, -⟩ := State.accepting_of_action ha
      obtain ⟨es, hes, hyield'⟩ := hspells.reduces hs.reduces
      obtain ⟨d, rfl, hd, hv⟩ := hes.eq_file_of_accepting
      refine Derivation.mem_language_iff.2 ⟨d, hd, ?_, hv⟩
      rw [← hyield, ← hyield']
      simp [yieldAll]
    · obtain ⟨stk', ss', hw', hs'⟩ := exists_accepts hw
      obtain rfl := h.unique hw'
      obtain ⟨rfl, -⟩ := hs.unique hs'
      exact State.action_accepting

/-- A bracket after a number calls for seven reductions, up to an expression, but is not read. -/
theorem not_continues_bracket : Consumes [.number] [18, .start] ∧
    Settles (.token .rightParen) [18, .start] 6 [.start] ∧
    (¬ ∃ v, [.number] ++ .rightParen :: v ∈ grammar.language) ∧
    ∃ v, [.number] ++ .plus :: v ∈ grammar.language := by
  have h : Consumes [.number] [18, .start] := .shift (w := []) .start .refl (by decide)
  have hbracket : Settles (.token .rightParen) [18, .start] 6 [.start] := by
    refine ⟨reduces_reductions 7, fun p hp => ?_⟩
    rw [show (6 : State).action _ = none by decide] at hp
    cases hp
  have hplus : Settles (.token .plus) [18, .start] 7 [.start] :=
    .of_shift (reduces_reductions 6) (show State.action 7 _ = some (.shift 24) by decide)
  refine ⟨h, hbracket, fun hv => ?_, ?_⟩
  · obtain ⟨s, ss, hs, hiff⟩ := h.continues_iff.1 .rightParen
    obtain ⟨rfl, -⟩ := hs.unique hbracket
    obtain ⟨s', hs'⟩ := hiff.2 hv
    rw [show (6 : State).action _ = none by decide] at hs'
    cases hs'
  · obtain ⟨s, ss, hs, hiff⟩ := h.continues_iff.1 .plus
    obtain ⟨rfl, -⟩ := hs.unique hplus
    exact hiff.1 ⟨24, by decide⟩

end Automaton

end CalcTree
