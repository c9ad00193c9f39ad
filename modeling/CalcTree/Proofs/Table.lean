import CalcTree.Proofs.Derivation
import CalcTree.Grammar.Automaton

/-!
# What the automaton's table guarantees

Facts about all seventy states, each checked state by state.

A state that reduces by a production is reached over the parts of that production and no others
(`symbol_of_completes`), and the state before them has a place for the construct
(`next_of_completes`). So a stack whose states follow the table never comes off wrong.

In the other direction, a state that is ready for a construct can read it whatever production it
is built by (`reads_of_ready`): the parts one by one, each followed by a token that may follow it,
and at last the reduction. There is one exception. After an expression a minus is taken for a
subtraction, so an expression is not completed before a minus.
-/

namespace CalcTree

namespace Symbol

def all : List Symbol :=
  Terminal.all.map .terminal ++ Nonterminal.all.map .nonterminal

theorem mem_all (X : Symbol) : X ∈ all := by
  cases X <;> simp [all, Terminal.mem_all, Nonterminal.mem_all]

end Symbol

namespace State

/-- The state after a whole file. -/
def accepting : State :=
  start.next (.nonterminal .sourceFile)

theorem error_ne_accepting : error ≠ accepting := by
  decide

/-! ## Shifts and gotos -/

theorem next_facts : ∀ s : State, ∀ X ∈ Symbol.all, X ≠ .terminal .comment →
    s.next X ≠ start ∧ (s.next X = accepting → X = .nonterminal .sourceFile ∧ s = start) ∧
      (X = .nonterminal .sourceFile → s.next X = error ∨ s.next X = accepting) ∧
      (s = accepting → s.next X = error) := by
  decide +kernel

variable {s : State} {X : Symbol} {a : Lookahead} {p : Production} {t : Terminal}

theorem next_ne_start (hX : X ≠ .terminal .comment) : s.next X ≠ start :=
  (next_facts s X X.mem_all hX).1

theorem eq_of_next_eq_accepting (hX : X ≠ .terminal .comment) (h : s.next X = accepting) :
    X = .nonterminal .sourceFile ∧ s = start :=
  (next_facts s X X.mem_all hX).2.1 h

theorem next_sourceFile (h : s.next (.nonterminal .sourceFile) ≠ error) :
    s.next (.nonterminal .sourceFile) = accepting :=
  ((next_facts s _ (Symbol.mem_all _) (by simp)).2.2.1 rfl).resolve_left h

theorem ne_accepting_of_next (hX : X ≠ .terminal .comment) (h : s.next X ≠ error) :
    s ≠ accepting :=
  fun hs => h ((next_facts s X X.mem_all hX).2.2.2 hs)

theorem next_error (X : Symbol) : error.next X = error := by
  cases X with
  | terminal t => simp [next, action]
  | nonterminal n => rfl

theorem ne_error_of_next (h : s.next X ≠ error) : s ≠ error := by
  rintro rfl
  exact h (next_error X)

theorem row_facts : ∀ s : State,
    (∀ e ∈ s.row.shifts, e.2 ≠ error) ∧ (s.row.accepts → s = accepting) ∧
      ∀ p ∈ s.row.reduction, p.lhs = .sourceFile → s.row.follow = [.finish] := by
  decide +kernel

/-- All that the table can say. -/
theorem action_cases {act : Action} (h : s.action a = some act) :
    s = error ∧ act = .recover
      ∨ s ≠ error ∧ a = .token .comment ∧ act = .shiftExtra
      ∨ s ≠ error ∧ (∃ t s', a = .token t ∧ t ≠ .comment ∧ (t, s') ∈ s.row.shifts
          ∧ act = .shift s')
      ∨ s ≠ error ∧ (∃ p, s.row.reduction = some p ∧ a ∈ s.row.follow ∧ act = .reduce p)
      ∨ s ≠ error ∧ a = .finish ∧ s.row.accepts ∧ act = .accept := by
  by_cases hs : s = error
  · subst hs
    simp only [action, ↓reduceIte, Option.some.injEq] at h
    exact .inl ⟨rfl, h.symm⟩
  rcases a with t | _
  · by_cases ht : t = .comment
    · subst ht
      simp only [action, hs, ↓reduceIte, Option.some.injEq] at h
      exact .inr (.inl ⟨hs, rfl, h.symm⟩)
    · rcases hl : s.row.shifts.lookup t with _ | next
      · simp only [action, hs, ↓reduceIte, hl, Option.ite_none_right_eq_some,
          Option.map_eq_some_iff] at h
        obtain ⟨hf, p, hp, rfl⟩ := h
        exact .inr (.inr (.inr (.inl ⟨hs, p, hp, hf, rfl⟩)))
      · simp only [action, hs, ↓reduceIte, hl, Option.some.injEq] at h
        obtain ⟨l₁, l₂, hl, -⟩ := List.lookup_eq_some_iff.1 hl
        refine .inr (.inr (.inl ⟨hs, t, next, rfl, ht, ?_, h.symm⟩))
        rw [hl]
        simp
  · simp only [action, hs, ↓reduceIte] at h
    split_ifs at h with ha hf
    · exact .inr (.inr (.inr (.inr ⟨hs, rfl, ha, (Option.some.inj h).symm⟩)))
    · obtain ⟨p, hp, rfl⟩ := Option.map_eq_some_iff.1 h
      exact .inr (.inr (.inr (.inl ⟨hs, p, hp, hf, rfl⟩)))

theorem reduction_of_action (h : s.action a = some (.reduce p)) :
    s ≠ error ∧ s.row.reduction = some p ∧ a ∈ s.row.follow := by
  rcases action_cases h with ⟨-, h⟩ | ⟨-, -, h⟩ | ⟨-, _, _, -, -, -, h⟩ | ⟨hs, q, hq, hf, h⟩
    | ⟨-, -, -, h⟩ <;> cases h
  exact ⟨hs, hq, hf⟩

theorem lhs_ne_sourceFile (h : s.action (.token t) = some (.reduce p)) : p.lhs ≠ .sourceFile := by
  obtain ⟨-, hp, hf⟩ := reduction_of_action h
  intro hl
  rw [(row_facts s).2.2 p hp hl] at hf
  simp at hf

theorem shift_of_action {s' : State} (h : s.action a = some (.shift s')) :
    s ≠ error ∧ s' ≠ error ∧ ∃ t, a = .token t ∧ t ≠ .comment ∧ s.next (.terminal t) = s' := by
  rcases action_cases h with ⟨-, h'⟩ | ⟨-, -, h'⟩ | ⟨hs, t, s'', rfl, ht, hm, h'⟩
    | ⟨-, _, -, -, h'⟩ | ⟨-, -, -, h'⟩ <;> cases h'
  exact ⟨hs, (row_facts s).1 _ hm, t, rfl, ht, by simp [next, h]⟩

theorem accepting_of_action (h : s.action a = some .accept) : s = accepting ∧ a = .finish := by
  rcases action_cases h with ⟨-, h⟩ | ⟨-, -, h⟩ | ⟨-, _, _, -, -, -, h⟩ | ⟨-, _, -, -, h⟩
    | ⟨-, ha, hr, -⟩ <;> try cases h
  exact ⟨(row_facts s).2.1 hr, ha⟩

theorem extra_of_action (h : s.action a = some .shiftExtra) :
    s ≠ error ∧ a = .token .comment := by
  rcases action_cases h with ⟨-, h⟩ | ⟨hs, ha, -⟩ | ⟨-, _, _, -, -, -, h⟩ | ⟨-, _, -, -, h⟩
    | ⟨-, -, -, h⟩ <;> try cases h
  exact ⟨hs, ha⟩

theorem action_comment (hs : s ≠ error) : s.action (.token .comment) = some .shiftExtra := by
  simp [action, hs]

/-! ## Reductions -/

/-- The state after some symbols. -/
def after : State → List Symbol → State
  | s, [] => s
  | s, X :: Xs => after (s.next X) Xs

/-- Whether the parts of a production from the `k`th on lead from a state to its reduction. -/
def completes (p : Production) (k : Nat) (s : State) : Bool :=
  (s.after (p.rhs.drop k)).row.reduction == some p

/-- All steps from one state to another. -/
def edges : List (State × Symbol × State) :=
  (List.finRange 70).flatMap fun (s : State) =>
    s.row.shifts.map (fun (t, s') => (s, .terminal t, s')) ++
      s.row.gotos.map (fun (n, s') => (s, .nonterminal n, s'))

/-- The symbol that leads into a state. -/
def entry (s : State) : Option Symbol :=
  (edges.find? fun e => e.2.2 = s).map (·.2.1)

theorem entry_of_mem_edges : ∀ e ∈ edges, entry e.2.2 = some e.2.1 := by
  decide +kernel

theorem mem_edges (hX : X ≠ .terminal .comment) (h : s.next X ≠ error) :
    (s, X, s.next X) ∈ edges := by
  refine List.mem_flatMap.2 ⟨s, List.mem_finRange s, List.mem_append.2 ?_⟩
  rcases X with t | n
  · refine .inl (List.mem_map.2 ?_)
    rcases ha : s.action (.token t) with _ | act
    · simp [next, ha] at h
    rcases action_cases ha with ⟨-, rfl⟩ | ⟨-, ht, -⟩ | ⟨-, t', s', ht, -, hm, rfl⟩
      | ⟨-, _, -, -, rfl⟩ | ⟨-, ht, -⟩
    · simp [next, ha] at h
    · cases ht
      exact absurd rfl hX
    · cases ht
      exact ⟨_, hm, by simp [next, ha]⟩
    · simp [next, ha] at h
    · cases ht
  · refine .inr (List.mem_map.2 ?_)
    rcases hg : s.goto? n with _ | s'
    · simp [next, hg] at h
    obtain ⟨l₁, l₂, hl, -⟩ := List.lookup_eq_some_iff.1 hg
    exact ⟨(n, s'), by rw [hl]; simp, by simp [next, hg]⟩

theorem entry_of_completes : ∀ s : State, ∀ p ∈ Production.all, ∀ k < p.rhs.length,
    completes p (k + 1) s → p.rhs[k]? = entry s := by
  decide +kernel

theorem next_of_completes : ∀ s : State, ∀ p ∈ Production.all,
    completes p 0 s → s.next (.nonterminal p.lhs) ≠ error := by
  decide +kernel

theorem completes_length : completes p p.rhs.length s ↔ s.row.reduction = some p := by
  simp [completes, after]

/-- What led into a state that completes a production was the part before. -/
theorem symbol_of_completes {k : Nat} (hk : k < p.rhs.length) (hX : X ≠ .terminal .comment)
    (hs : s.next X ≠ error) (h : completes p (k + 1) (s.next X)) :
    p.rhs[k]? = some X ∧ completes p k s := by
  have hX : p.rhs[k]? = some X := by
    rw [entry_of_completes _ p p.mem_all k hk h, entry_of_mem_edges _ (mem_edges hX hs)]
  refine ⟨hX, ?_⟩
  obtain ⟨hk', rfl⟩ := List.getElem?_eq_some_iff.1 hX
  rw [completes, List.drop_eq_getElem_cons hk]
  exact h

/-! ## Reading -/

/-- The tokens that a construct can start with. -/
def starters : Nonterminal → List Terminal
  | .raised | .power | .suffixed | .factorial | .primary => [.identifier, .leftParen, .number]
  | .assignment | .functionCall => [.identifier]
  | .unary => [.minus]
  | .functionBody => [.leftBrace]
  | .parameterList => [.leftBracket]
  | .moreArguments | .moreParameters => [.semicolon]
  | _ => [.identifier, .minus, .leftParen, .number]

/-- Whether symbols start with what a construct can start with. -/
def startsAs (n : Nonterminal) : List Symbol → Bool
  | [] => false
  | .terminal t :: _ => t ∈ starters n
  | .nonterminal m :: _ => m != .sourceFile && (starters m).all (· ∈ starters n)

theorem startsAs_rhs : ∀ p ∈ Production.all, p.lhs ≠ .sourceFile → startsAs p.lhs p.rhs := by
  decide

/-- What may follow a construct. -/
def followers : Nonterminal → List Lookahead
  | .sourceFile => [.finish]
  | .statements | .statement | .assignment | .functionBody => afterStatement
  | .expression => .token .minus :: afterExpression
  | .sum | .additive => afterSum
  | .product | .multiplicative | .signed | .unary | .raised | .power => afterProduct
  | .suffixed | .factorial | .primary | .functionCall => afterSuffixed
  | .argumentList => [.token .rightBracket]
  | .moreArguments | .moreParameters => afterItem
  | .parameterList => afterParameters

/-- Where a statement may start nothing is open that could be closed. -/
def startsStatement (s : State) : Bool :=
  s == start || s == start.next (.nonterminal .statements)

/-- Whether a symbol can be read in a state if `a` comes after it. -/
def ready (s : State) (a : Lookahead) : Symbol → Bool
  | .terminal _ => true
  | .nonterminal n => a ∈ followers n && !(s.startsStatement && a ∈ closers)

/-- What comes next if some symbols are followed by `a`. -/
def upcoming (a : Lookahead) : List Symbol → List Lookahead
  | [] => [a]
  | .terminal t :: _ => [.token t]
  | .nonterminal n :: _ => (starters n).map .token

/-- Whether a state can read the given last parts of a production and then reduce. -/
def reads (p : Production) (a : Lookahead) : List Symbol → State → Bool
  | [], s => s.action a == some (.reduce p)
  | X :: Xs, s =>
    s.next X != error && ((upcoming a Xs).all fun b => s.ready b X) && reads p a Xs (s.next X)

theorem reads_of_followers : ∀ s : State, ∀ p ∈ Production.all,
    s.next (.nonterminal p.lhs) ≠ error → ∀ a ∈ followers p.lhs,
      s.ready a (.nonterminal p.lhs) → (p = .expression → a ≠ .token .minus) →
        reads p a p.rhs s := by
  decide +kernel

theorem reads_of_ready (hs : s.next (.nonterminal p.lhs) ≠ error)
    (ha : s.ready a (.nonterminal p.lhs)) (hm : p = .expression → a ≠ .token .minus) :
    reads p a p.rhs s := by
  refine reads_of_followers s p p.mem_all hs a ?_ ha hm
  simp only [ready, Bool.and_eq_true, decide_eq_true_eq] at ha
  exact ha.1

end State

end CalcTree
