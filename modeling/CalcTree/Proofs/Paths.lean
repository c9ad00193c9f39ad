import CalcTree.Proofs.Calm
import CalcTree.Proofs.Round
import CalcTree.Proofs.Viability

/-!
# Stacks that follow the table

A stack is a path through the table if every entry on it can be read in the state below: a token
that is shifted, a construct for which there is a goto, or an extra tree, which leaves the state as
it is. Whatever the parser does, its stacks are such paths as long as they are not in the error
state (`Run.Orderly`).

On every path a reduction that the table calls for is possible: the parts of the production lie on
top, and the state below them has a place for the construct (`Path.reducible`). And on every path
reductions come to an end whatever comes next (`Path.reductions_end`), because a construct is worth
less than its parts.
-/

namespace CalcTree

namespace Production

/-- A production is known by its construct and its parts. -/
theorem eq_of_lhs_of_rhs {p q : Production} (hl : p.lhs = q.lhs) (hr : p.rhs = q.rhs) : p = q := by
  have h : ∀ p ∈ all, ∀ q ∈ all, p.lhs = q.lhs → p.rhs = q.rhs → p = q := by decide +kernel
  exact h p p.mem_all q q.mem_all hl hr

end Production

namespace State

variable {s s' : State} {n : Nonterminal} {t : Terminal} {p : Production} {a : Lookahead}

theorem goto?_ne_error (h : s.goto? n = some s') : s' ≠ error := by
  have hrow : ∀ s : State, ∀ e ∈ s.row.gotos, e.2 ≠ error := by decide +kernel
  obtain ⟨l₁, l₂, hl, -⟩ := List.lookup_eq_some_iff.1 h
  exact hrow s (n, s') (by rw [hl]; simp)

theorem goto?_of_next (h : s.next (.nonterminal n) ≠ error) :
    s.goto? n = some (s.next (.nonterminal n)) := by
  rcases hg : s.goto? n with _ | s'
  · simp [next, hg] at h
  · simp [next, hg]

theorem ne_accepting_of_reduce (h : s.action a = some (.reduce p)) : s ≠ accepting := by
  rintro rfl
  have hred := (reduction_of_action h).2.1
  rw [show accepting.row.reduction = none by decide] at hred
  cases hred

end State

/-- A place on a stack: the symbol that was read, none for an extra tree, and the state after it. -/
structure Entry where
  symbol : Option Symbol
  state : State
deriving DecidableEq, Repr

namespace Stack

/-- The state on top of a stack. -/
def top : List Entry → State
  | [] => .start
  | e :: _ => e.state

/-- The symbols on a stack, the first that was read first. -/
def symbols (es : List Entry) : List Symbol :=
  (es.filterMap Entry.symbol).reverse

/-- Whether a stack follows the table. -/
inductive Path : List Entry → Prop
  | bottom : Path []
  | shift {es : List Entry} {t : Terminal} {s : State} (h : Path es)
      (ha : (top es).action (.token t) = some (.shift s)) : Path (⟨some (.terminal t), s⟩ :: es)
  | goto {es : List Entry} {n : Nonterminal} {s : State} (h : Path es)
      (hg : (top es).goto? n = some s) : Path (⟨some (.nonterminal n), s⟩ :: es)
  | extra {es : List Entry} (h : Path es) : Path (⟨none, top es⟩ :: es)

/-- Takes `n` parts off a stack, with the extra entries on them: what came off, and what is left.
There is nothing to take off below the last entry. -/
def pop? : Nat → List Entry → Option (List Entry × List Entry)
  | 0, es => some ([], es)
  | _ + 1, [] => none
  | n + 1, e :: es =>
    (pop? (if e.symbol.isSome then n else n + 1) es).map fun (off, rest) => (e :: off, rest)

/-- Whether a production can be reduced on a stack: its parts, and those of no other production of
the construct, come off, and the state below has a place for the construct. -/
def Reducible (p : Production) (es : List Entry) : Prop :=
  ∃ off rest s, pop? p.rhs.length es = some (off, rest) ∧ symbols off = p.rhs ∧
    (∀ q : Production, q.lhs = p.lhs → symbols off = q.rhs → q = p) ∧
    (top rest).goto? p.lhs = some s ∧ s ≠ .error

/-- The stack after one reduction that the table calls for. Extra entries that come off on top of
the last part stay on top. -/
def reduce? (a : Lookahead) (es : List Entry) : Option (List Entry) :=
  match (top es).action a with
  | some (.reduce p) =>
    (pop? p.rhs.length es).bind fun (off, rest) =>
      ((top rest).goto? p.lhs).map fun s =>
        (off.takeWhile (·.symbol.isNone)).map (fun _ => ⟨none, s⟩) ++
          ⟨some (.nonterminal p.lhs), s⟩ :: rest
  | _ => none

/-- The stack after `n` reductions. -/
def reduceTimes? (a : Lookahead) : Nat → List Entry → Option (List Entry)
  | 0, es => some es
  | n + 1, es => (reduce? a es).bind (reduceTimes? a n)

variable {es off rest : List Entry} {s : State} {X : Symbol} {a : Lookahead} {p : Production}

/-! ## Paths -/

theorem path_some_iff : Path (⟨some X, s⟩ :: es) ↔
    Path es ∧ X ≠ .terminal .comment ∧ (top es).next X = s ∧ s ≠ .error := by
  constructor
  · intro h
    cases h with
    | @shift _ t _ h ha =>
      obtain ⟨-, hs, t', ht, hne, hnext⟩ := State.shift_of_action ha
      obtain rfl : t = t' := by simpa using ht
      exact ⟨h, by simpa using hne, hnext, hs⟩
    | goto h hg => exact ⟨h, by simp, by simp [State.next, hg], State.goto?_ne_error hg⟩
  · rintro ⟨h, hX, rfl, hs⟩
    cases X with
    | terminal t => exact .shift h (Machine.action_of_next (by simpa using hX) hs)
    | nonterminal n => exact .goto h (State.goto?_of_next hs)

theorem path_none_iff : Path (⟨none, s⟩ :: es) ↔ Path es ∧ s = top es := by
  constructor
  · intro h
    cases h with
    | extra h => exact ⟨h, rfl⟩
  · rintro ⟨h, rfl⟩
    exact .extra h

theorem Path.ne_error : ∀ {es : List Entry}, Path es → top es ≠ .error
  | [], _ => by decide
  | ⟨none, s⟩ :: es, h => by
    obtain ⟨hes, hs⟩ := path_none_iff.1 h
    rw [top, hs]
    exact hes.ne_error
  | ⟨some X, s⟩ :: es, h => (path_some_iff.1 h).2.2.2

/-! ## Taking parts off -/

theorem symbols_append (es es' : List Entry) : symbols (es ++ es') = symbols es' ++ symbols es := by
  simp [symbols]

theorem symbols_cons (e : Entry) (es : List Entry) :
    symbols (e :: es) = symbols es ++ e.symbol.toList := by
  rcases e with ⟨_ | X, s⟩ <;> simp [symbols]

theorem append_of_pop? : ∀ {n : Nat} {es off rest : List Entry},
    pop? n es = some (off, rest) → es = off ++ rest
  | 0, es, off, rest, h => by
    simp only [pop?, Option.some.injEq, Prod.mk.injEq] at h
    obtain ⟨rfl, rfl⟩ := h
    rfl
  | n + 1, [], off, rest, h => by simp [pop?] at h
  | n + 1, e :: es, off, rest, h => by
    simp only [pop?, Option.map_eq_some_iff, Prod.mk.injEq, Prod.exists] at h
    obtain ⟨off, rest', hpop, rfl, rfl⟩ := h
    rw [append_of_pop? hpop, List.cons_append]

/-- The part of a path that lies below a place in a production spells what comes before that place.
Extra entries in between make no difference. -/
theorem Path.pop : ∀ {es : List Entry} {k : Nat}, Path es → k ≤ p.rhs.length →
    (top es).completes p k → ∃ off rest, pop? k es = some (off, rest) ∧
      symbols off = p.rhs.take k ∧ Path rest ∧ (top rest).completes p 0
  | es, 0, h, _, hc => ⟨[], es, by simp [pop?], by simp [symbols], h, hc⟩
  | [], k + 1, _, hk, hc => by
    have hentry := State.entry_of_completes _ p p.mem_all k hk hc
    rw [top, State.entry_start, List.getElem?_eq_none_iff] at hentry
    omega
  | ⟨none, s⟩ :: es, k + 1, h, hk, hc => by
    obtain ⟨hes, hs⟩ := path_none_iff.1 h
    rw [top, hs] at hc
    obtain ⟨off, rest, hpop, hsymbols, hrest⟩ := hes.pop hk hc
    refine ⟨⟨none, s⟩ :: off, rest, by simp [pop?, hpop], ?_, hrest⟩
    rw [symbols_cons, hsymbols]
    simp
  | ⟨some X, s⟩ :: es, k + 1, h, hk, hc => by
    obtain ⟨hes, hX, hnext, hs⟩ := path_some_iff.1 h
    rw [top, ← hnext] at hc
    obtain ⟨hget, hbelow⟩ := State.symbol_of_completes hk hX (hnext ▸ hs) hc
    obtain ⟨off, rest, hpop, hsymbols, hrest⟩ := hes.pop (by omega) hbelow
    refine ⟨⟨some X, s⟩ :: off, rest, by simp [pop?, hpop], ?_, hrest⟩
    rw [symbols_cons, hsymbols, List.take_add_one, hget]

/-- What a reduction takes off a path, and what it finds below. -/
theorem Path.pop_of_reduce (h : Path es) (ha : (top es).action a = some (.reduce p)) :
    ∃ off rest s, pop? p.rhs.length es = some (off, rest) ∧ symbols off = p.rhs ∧ Path rest ∧
      (top rest).goto? p.lhs = some s := by
  obtain ⟨-, hred, -⟩ := State.reduction_of_action ha
  obtain ⟨off, rest, hpop, hsymbols, hrest, hc⟩ :=
    h.pop (Nat.le_refl _) (State.completes_length.2 hred)
  rw [List.take_length] at hsymbols
  exact ⟨off, rest, _, hpop, hsymbols, hrest,
    State.goto?_of_next (State.next_of_completes _ p p.mem_all hc)⟩

theorem Path.reducible (h : Path es) (ha : (top es).action a = some (.reduce p)) :
    Reducible p es := by
  obtain ⟨off, rest, s, hpop, hsymbols, -, hgoto⟩ := h.pop_of_reduce ha
  refine ⟨off, rest, s, hpop, hsymbols, fun q hq hrhs => ?_, hgoto, State.goto?_ne_error hgoto⟩
  exact Production.eq_of_lhs_of_rhs hq (hrhs.symm.trans hsymbols)

/-! ## The end of reductions -/

/-- More reductions than this are not possible on a stack: each makes a construct of parts that are
worth more, but for the empty file, after which there are none. -/
def reserve (es : List Entry) : Nat :=
  Derivation.worthAll (symbols es) + if top es = .accepting then 0 else 1

theorem worthAll_le : ∀ Xs : List Symbol, Derivation.worthAll Xs ≤ 12 * Xs.length
  | [] => Nat.le_refl _
  | X :: Xs => by
    have hX : Derivation.worth X ≤ 12 := by
      rcases X with t | n
      · exact Nat.le_refl 12
      · cases n <;> decide
    have := worthAll_le Xs
    rw [Derivation.worthAll, List.length_cons]
    omega

/-- Extra entries on top of a path change nothing. -/
theorem Path.extras (h : Path es) (hs : top es = s) : ∀ off : List Entry,
    let new := off.map (fun _ => ⟨none, s⟩) ++ es
    Path new ∧ top new = s ∧ symbols new = symbols es
  | [] => ⟨h, hs, rfl⟩
  | e :: off => by
    obtain ⟨hpath, htop, hsymbols⟩ := h.extras hs off
    refine ⟨path_none_iff.2 ⟨hpath, htop.symm⟩, rfl, ?_⟩
    rw [List.map_cons, List.cons_append, symbols_cons, hsymbols]
    exact List.append_nil _

/-- A construct with its place in the table is worth less than its parts. -/
theorem worth_lt (hs : (top rest).goto? p.lhs = some s) :
    Derivation.worth (.nonterminal p.lhs) + (if s = .accepting then 0 else 1) <
      Derivation.worthAll p.rhs + 1 := by
  by_cases hp : p = .emptyFile
  · subst hp
    have hnext : (top rest).next (.nonterminal .sourceFile) = s := by
      rw [State.next]
      exact congrArg (Option.getD · _) hs
    have hacc := State.next_sourceFile (hnext ▸ State.goto?_ne_error hs)
    rw [if_pos (hnext.symm.trans hacc)]
    decide
  · have hlt := Derivation.slack_lt p hp
    rw [Derivation.worth]
    split_ifs <;> omega

/-- A reduction makes a path of a path, and uses up some of what can be reduced. -/
theorem Path.reduce (h : Path es) (ha : (top es).action a = some (.reduce p)) :
    ∃ es', reduce? a es = some es' ∧ Path es' ∧ reserve es' < reserve es := by
  obtain ⟨off, rest, s, hpop, hsymbols, hrest, hgoto⟩ := h.pop_of_reduce ha
  obtain ⟨hpath, htop, hsame⟩ :=
    (Path.goto hrest hgoto).extras (s := s) rfl (off.takeWhile (·.symbol.isNone))
  refine ⟨_, by simp only [reduce?, ha, hpop, hgoto, Option.bind_some, Option.map_some],
    hpath, ?_⟩
  have hlt := worth_lt hgoto
  have hes : symbols es = symbols rest ++ p.rhs := by
    rw [append_of_pop? hpop, symbols_append, hsymbols]
  rw [reserve, reserve, htop, hsame, hes, symbols_cons, Derivation.worthAll_append,
    Derivation.worthAll_append, if_neg (State.ne_accepting_of_reduce ha)]
  simp only [Option.toList_some, Derivation.worthAll]
  omega

/-- Whether the table calls for no reduction on a stack, but for a shift, the end, or nothing. -/
def Rests (a : Lookahead) (es : List Entry) : Prop :=
  (∃ s, (top es).action a = some (.shift s)) ∨ (top es).action a = some .shiftExtra ∨
    (top es).action a = some .accept ∨ (top es).action a = none

theorem Path.rests_or_reduces (h : Path es) (a : Lookahead) :
    Rests a es ∨ ∃ p, (top es).action a = some (.reduce p) := by
  rcases ha : (top es).action a with _ | act
  · exact .inl (.inr (.inr (.inr ha)))
  rcases State.action_cases ha with ⟨hs, -⟩ | ⟨-, -, rfl⟩ | ⟨-, _, s, -, -, -, rfl⟩
    | ⟨-, p, -, -, rfl⟩ | ⟨-, -, -, rfl⟩
  · exact absurd hs h.ne_error
  · exact .inl (.inr (.inl ha))
  · exact .inl (.inl ⟨s, ha⟩)
  · exact .inr ⟨p, rfl⟩
  · exact .inl (.inr (.inr (.inl ha)))

theorem Path.exists_rests (a : Lookahead) : ∀ (k : Nat) {es : List Entry}, Path es →
    reserve es ≤ k → ∃ n es', n ≤ k ∧ reduceTimes? a n es = some es' ∧ Path es' ∧ Rests a es'
  | 0, es, h, hk => by
    rcases h.rests_or_reduces a with hrests | ⟨p, ha⟩
    · exact ⟨0, es, Nat.le_refl 0, rfl, h, hrests⟩
    · obtain ⟨es', -, -, hlt⟩ := h.reduce ha
      omega
  | k + 1, es, h, hk => by
    rcases h.rests_or_reduces a with hrests | ⟨p, ha⟩
    · exact ⟨0, es, Nat.zero_le _, rfl, h, hrests⟩
    · obtain ⟨es₁, hstep, h₁, hlt⟩ := h.reduce ha
      obtain ⟨n, es', hn, htimes, hrests⟩ := h₁.exists_rests a k (by omega)
      exact ⟨n + 1, es', by omega, by rw [reduceTimes?, hstep, Option.bind_some, htimes], hrests⟩

/-- Whatever comes next, the reductions that the table calls for on it come to an end, after no more
of them than twelve for each symbol on the stack and one. -/
theorem Path.reductions_end (h : Path es) (a : Lookahead) :
    ∃ n es', n ≤ 12 * (symbols es).length + 1 ∧ reduceTimes? a n es = some es' ∧ Path es' ∧
      Rests a es' := by
  refine h.exists_rests a _ ?_
  have := worthAll_le (symbols es)
  rw [reserve]
  split_ifs <;> omega

/-- Before a bracket a number at the start of a source is reduced to an expression in seven steps,
and then there is nothing to do. The comment after the number stays on top. -/
theorem reductions_end_at_bracket :
    let es : List Entry := [⟨none, 18⟩, ⟨some (.terminal .number), 18⟩]
    Path es ∧
    (∃ n es', n ≤ 13 ∧ reduceTimes? (.token .rightParen) n es = some es' ∧ Path es' ∧
      Rests (.token .rightParen) es') ∧
    reduceTimes? (.token .rightParen) 7 es =
      some [⟨none, 6⟩, ⟨some (.nonterminal .expression), 6⟩] := by
  intro es
  have h : Path es := .extra (.shift .bottom (by decide))
  exact ⟨h, h.reductions_end (.token .rightParen), by decide⟩

end Stack

/-! ## Stacks of the parser -/

open Stack

/-- What a link puts on a stack. -/
def Link.entry (l : Link) (s : State) : Entry :=
  ⟨l.tree.bind fun t => if t.isExtra then none else t.tree.symbol?, s⟩

namespace Graph

variable {g : Graph} {input : Scan} {v : Nat} {p : Production} {a : Lookahead}

/-- The stacks that lead down from a vertex to the bottom, of at most the given height. -/
def stacksOf (g : Graph) : Nat → Nat → List (List Entry)
  | 0, v => if (g.linksOf v).isEmpty then [[]] else []
  | height + 1, v =>
    if (g.linksOf v).isEmpty then [[]]
    else (g.linksOf v).flatMap fun l =>
      (g.stacksOf height l.target).map (l.entry (g.vertex v).state :: ·)

theorem mem_stacksOf : ∀ {height v : Nat} {es : List Entry}, es ∈ g.stacksOf height v →
    g.linksOf v = [] ∧ es = [] ∨ ∃ n, n < height ∧ ∃ l ∈ g.linksOf v,
      ∃ below ∈ g.stacksOf n l.target, es = l.entry (g.vertex v).state :: below
  | 0, v, es, h => by
    unfold stacksOf at h
    split_ifs at h with hnil
    · exact .inl ⟨by simpa using hnil, by simpa using h⟩
    · cases h
  | height + 1, v, es, h => by
    unfold stacksOf at h
    split_ifs at h with hnil
    · exact .inl ⟨by simpa using hnil, by simpa using h⟩
    · obtain ⟨l, hl, hes⟩ := List.mem_flatMap.1 h
      obtain ⟨below, hbelow, rfl⟩ := List.mem_map.1 hes
      exact .inr ⟨height, Nat.lt_succ_self _, l, hl, below, hbelow, rfl⟩

/-- What lies on top of a live vertex is a path if the vertex is. -/
theorem path_cons {u w : Vertex} {l : Link} {es : List Entry} (hf : Link.Fits input u l.tree w)
    (hw : w.state ≠ .error) (hes : u.state ≠ .error → Path es ∧ top es = u.state) :
    Path (l.entry w.state :: es) := by
  obtain ⟨target, t⟩ := l
  cases hf with
  | fallen hs => exact absurd hs hw
  | @tree m _ hb hm =>
    generalize hs : w.state = s at hm hw
    cases hm with
    | part X he hX hne =>
      obtain ⟨hpath, htop⟩ := hes (State.ne_error_of_next hne)
      rw [Link.entry, Option.bind_some, Measured.isExtra, he, hX, ← htop]
      exact path_some_iff.2 ⟨hpath, Tree.symbol?_ne_comment hb he hX, rfl, htop ▸ hne⟩
    | extra he hne =>
      obtain ⟨hpath, htop⟩ := hes hne
      rw [Link.entry, Option.bind_some, Measured.isExtra, he, ← htop]
      exact .extra hpath
    | skipped => exact absurd rfl hw

theorem Sound.path_of_stacksOf (h : g.Sound input) : ∀ (height : Nat) {v : Nat} {es : List Entry},
    g.Live v → (g.vertex v).state ≠ .error → es ∈ g.stacksOf height v →
    Path es ∧ top es = (g.vertex v).state := by
  intro height
  induction height using Nat.strong_induction_on with
  | _ height ih =>
    intro v es hv hs hes
    rcases mem_stacksOf hes with ⟨hnil, rfl⟩ | ⟨n, hn, l, hl, below, hbelow, rfl⟩
    · exact ⟨.bottom, (h.unlinked v hv hnil).1.symm⟩
    · obtain ⟨hlive, hfit⟩ := h.links v hv l hl
      exact ⟨path_cons hfit hs fun hne => ih n hn hlive hne hbelow, rfl⟩

/-- What the parser takes off a live vertex for a reduction are the parts of the production. -/
theorem Sound.pop_of_reduce (h : g.Sound input) (hv : g.Live v)
    (ha : (g.vertex v).state.action a = some (.reduce p)) :
    ∀ pop ∈ g.pop v p.rhs.length, ∀ ts ∈ pop.alternatives,
      (Tree.parts (Measured.trees ts)).map Tree.symbol? = p.rhs.map some ∧
        ∃ s, (g.vertex pop.vertex).state.goto? p.lhs = some s ∧ s ≠ .error := by
  obtain ⟨hs, hred, -⟩ := State.reduction_of_action ha
  intro pop hpop ts hts
  have hyields := (h.yields hv hs hred pop hpop).2 ts hts
  exact ⟨hyields.parts, _, State.goto?_of_next hyields.goto, hyields.goto⟩

end Graph

namespace Run

variable {input : Scan} {r : Run}

/-- Whether the stacks of a run are in order: all heads that can go on stand on live vertices, the
stacks down from live vertices follow the table unless they are in the error state, and what is
taken off them for a reduction are the parts of the production. -/
structure Orderly (r : Run) : Prop where
  heads : ∀ v, (r.head v).status ≠ .halted → r.graph.Live (r.head v).top
  paths : ∀ v, r.graph.Live v → (r.graph.vertex v).state ≠ .error →
    ∀ height, ∀ es ∈ r.graph.stacksOf height v, Path es ∧ Stack.top es = (r.graph.vertex v).state
  pops : ∀ v, r.graph.Live v → ∀ a p, (r.graph.vertex v).state.action a = some (.reduce p) →
    ∀ pop ∈ r.graph.pop v p.rhs.length, ∀ ts ∈ pop.alternatives,
      (Tree.parts (Measured.trees ts)).map Tree.symbol? = p.rhs.map some ∧
        ∃ s, (r.graph.vertex pop.vertex).state.goto? p.lhs = some s ∧ s ≠ .error

theorem Sound.orderly (h : r.Sound input) : r.Orderly :=
  ⟨fun _ hv => h.live hv, fun _ hv hs height _ hes => h.graph.path_of_stacksOf height hv hs hes,
    fun _ hv _ _ ha => h.graph.pop_of_reduce hv ha⟩

theorem Sound.of_reaches (hi : input.Spaced) (h : r.Sound input) {r' : Run} (hr : r.Reaches r') :
    r'.Sound input := by
  induction hr with
  | refl => exact h
  | step _ hs ih =>
    have hstep := ih.step hi
    rwa [hs] at hstep

end Run

namespace Stack

/-- Reductions never go wrong. Where the table calls for one, on any stack that follows it, the
parts are there and the construct has a place. The stacks of the parser are such stacks: vertices
and links are never taken out of its graph, so this takes in all that it tries on the way, and
the last round with which it ends. -/
theorem reductions_fit :
    (∀ es, Path es → ∀ a p, (top es).action a = some (.reduce p) → Reducible p es) ∧
    ∀ (source : String) (r : Run), (Run.start (.ofChars source.toList)).Reaches r →
      r.Orderly ∧ r.condense.2.Orderly := by
  refine ⟨fun es h a p ha => h.reducible ha, fun source r hr => ?_⟩
  have hi := Scan.spaced_ofChars source.toList
  have hsound := (Run.sound_start _).of_reaches hi hr
  exact ⟨hsound.orderly, (hsound.condense hi).orderly⟩

end Stack

/-- The run after so many steps, or before the step with which it ends. -/
def Run.later : Nat → Run → Run
  | 0, r => r
  | n + 1, r =>
    match r.step with
    | .inl _ => r
    | .inr r' => later n r'

theorem Run.reaches_later {r₀ : Run} : ∀ (n : Nat) {r : Run}, r₀.Reaches r → r₀.Reaches (r.later n)
  | 0, _, h => h
  | n + 1, r, h => by
    unfold Run.later
    split
    · exact h
    · rename_i r' hr
      exact Run.reaches_later n (.step h hr)

namespace Stack

/-- After a colon that does not fit the parser goes back to the minus before it and reads on, with
the colon as an extra tree on the stack. -/
theorem reductions_fit_after_return : ∃ r v, (Run.start (.ofChars "-:1".toList)).Reaches r ∧
    r.graph.Live v ∧
    [⟨some (.terminal .number), 18⟩, ⟨none, 22⟩, ⟨some (.terminal .minus), 22⟩] ∈
      r.graph.stacksOf 3 v ∧
    Reducible .numberPrimary
      [⟨some (.terminal .number), 18⟩, ⟨none, 22⟩, ⟨some (.terminal .minus), 22⟩] := by
  have hreaches := Run.reaches_later 7 (.refl : (Run.start (.ofChars "-:1".toList)).Reaches _)
  have hlive : (Run.later 7 (Run.start (.ofChars "-:1".toList))).graph.Live 6 := by
    refine ⟨?_, ?_⟩ <;> decide +kernel
  have hmem : [⟨some (.terminal .number), 18⟩, ⟨none, 22⟩, ⟨some (.terminal .minus), 22⟩] ∈
      (Run.later 7 (Run.start (.ofChars "-:1".toList))).graph.stacksOf 3 6 := by
    decide +kernel
  obtain ⟨hpath, htop⟩ := (reductions_fit.2 "-:1" _ hreaches).1.paths 6 hlive (by decide +kernel) 3
    _ hmem
  exact ⟨_, 6, hreaches, hlive, hmem, reductions_fit.1 _ hpath .finish _ (by decide)⟩

end Stack

end CalcTree
