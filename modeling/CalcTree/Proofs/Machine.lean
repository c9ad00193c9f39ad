import CalcTree.Proofs.Built
import CalcTree.Proofs.Table
import CalcTree.Run.Reduce

/-!
# The shift-reduce machine

A single parse without errors: a stack of states and trees, and the lexemes left to read. Comments
are read as soon as they come into sight. When parts come off the stack, the comments after the
last of them are put back on top of the construct.

The machine reads every valid derivation in which no expression is completed before a minus
(`read`), and leaves a tree that stands for it. It takes a step for each lexeme and one for each
production (`read_file`).
-/

namespace CalcTree

/-- Whether every construct in a tree starts and ends with one of its parts. -/
inductive Tree.Snug : Tree → Prop
  | leaf (l : Lexeme) (t : Terminal) (hl : l.kind = .token t) : Snug (.leaf l)
  | finish (blank : List Char) : Snug (.finish blank)
  | node (p : Production) (cs : List Tree) (hfirst : ∀ c ∈ cs.head?, c.isExtra = false)
      (hlast : ∀ c ∈ cs.getLast?, c.isExtra = false) (hcs : ∀ c ∈ cs, Snug c) : Snug (.node p cs)

theorem Tree.IsComment.snug {t : Tree} (h : t.IsComment) : t.Snug := by
  obtain ⟨l, rfl, hl⟩ := h
  exact .leaf l _ hl

structure Frame where
  state : State
  tree : Measured

/-- The top of the stack comes first. -/
structure Machine where
  stack : List Frame
  rest : List Lexeme

namespace Machine

def stateOf : List Frame → State
  | [] => .start
  | f :: _ => f.state

/-- What the automaton sees of lexemes. -/
def sight : List Lexeme → Option Lookahead
  | [] => some .finish
  | l :: _ =>
    match l.kind with
    | .token t => some (.token t)
    | .unknown => none

/-- Taking `n` parts off the stack, with the extra trees on them. -/
inductive Off : Nat → List Frame → List Measured → List Frame → Prop
  | done {stk : List Frame} : Off 0 stk [] stk
  | part {n : Nat} {f : Frame} {stk base : List Frame} {ts : List Measured}
      (he : f.tree.isExtra = false) (h : Off n stk ts base) :
      Off (n + 1) (f :: stk) (ts ++ [f.tree]) base
  | extra {n : Nat} {f : Frame} {stk base : List Frame} {ts : List Measured}
      (he : f.tree.isExtra) (h : Off (n + 1) stk ts base) :
      Off (n + 1) (f :: stk) (ts ++ [f.tree]) base

/-- A construct and the extra trees after it, put on the stack. -/
def heap (base : List Frame) (p : Production) (ts : List Measured) : List Frame :=
  let c := Run.construct p ts
  let s := (stateOf base).next (.nonterminal p.lhs)
  c.2.reverse.map (Frame.mk s) ++ ⟨s, c.1⟩ :: base

inductive Step : Machine → Machine → Prop
  | shift {stk : List Frame} {l : Lexeme} {rest : List Lexeme} {t : Terminal} {s : State}
      (hl : l.kind = .token t) (ha : (stateOf stk).action (.token t) = some (.shift s)) :
      Step ⟨stk, l :: rest⟩ ⟨⟨s, .ofTree (.leaf l)⟩ :: stk, rest⟩
  | extra {stk : List Frame} {l : Lexeme} {rest : List Lexeme}
      (hl : l.kind = .token .comment) (hs : stateOf stk ≠ .error) :
      Step ⟨stk, l :: rest⟩ ⟨⟨stateOf stk, .ofTree (.leaf l)⟩ :: stk, rest⟩
  | reduce {stk base : List Frame} {rest : List Lexeme} {a : Lookahead} {p : Production}
      {ts : List Measured} (hs : sight rest = some a)
      (ha : (stateOf stk).action a = some (.reduce p)) (ho : Off p.rhs.length stk ts base) :
      Step ⟨stk, rest⟩ ⟨heap base p ts, rest⟩

inductive Steps : Nat → Machine → Machine → Prop
  | refl (m : Machine) : Steps 0 m m
  | cons {n : Nat} {m m' m'' : Machine} (h : Step m m') (h' : Steps n m' m'') :
      Steps (n + 1) m m''

theorem Steps.trans {n k : Nat} {m m' m'' : Machine} (h : Steps n m m') (h' : Steps k m' m'') :
    Steps (n + k) m m'' := by
  induction h with
  | refl => simpa using h'
  | @cons n m m₁ _ hs _ ih =>
    have := Steps.cons hs (ih h')
    rwa [Nat.add_right_comm] at this

/-! ## Parts on the stack -/

theorem Off.trans {m n : Nat} {stk mid base : List Frame} {ts us : List Measured}
    (h : Off m stk ts mid) (h' : Off n mid us base) : Off (n + m) stk (us ++ ts) base := by
  induction h with
  | done => simpa using h'
  | part he _ ih =>
    rw [← List.append_assoc]
    exact .part he (ih h')
  | extra he _ ih =>
    rw [← List.append_assoc]
    exact .extra he (ih h')

/-- The frames for a part of a construct: its tree, and the comments after it. -/
def Piece (s : State) (d : Derivation) (fs : List Frame) : Prop :=
  ∃ es t, fs = es ++ [⟨s, t⟩] ∧ (∀ f ∈ es, f.state = s ∧ f.tree.tree.IsComment) ∧
    t.tree.isExtra = false ∧ t.tree.bare = [d] ∧ t.tree.isDamaged = false ∧ t.tree.Snug

theorem Piece.stateOf_eq {s : State} {d : Derivation} {fs : List Frame} (h : Piece s d fs)
    (stk : List Frame) : stateOf (fs ++ stk) = s := by
  obtain ⟨es, t, rfl, hes, -⟩ := h
  rcases es with _ | ⟨e, es⟩
  · rfl
  · exact (hes e (by simp)).1

theorem isComment_of_frames {es : List Frame} (hes : ∀ f ∈ es, f.tree.tree.IsComment) :
    ∀ t ∈ Measured.trees (es.reverse.map Frame.tree), t.IsComment := by
  intro t ht
  obtain ⟨m, hm, rfl⟩ := Measured.mem_trees.1 ht
  obtain ⟨f, hf, rfl⟩ := List.mem_map.1 hm
  exact hes f (List.mem_reverse.1 hf)

theorem off_comments {n : Nat} {stk base : List Frame} {ts : List Measured}
    (h : Off (n + 1) stk ts base) : ∀ es : List Frame, (∀ f ∈ es, f.tree.tree.IsComment) →
      Off (n + 1) (es ++ stk) (ts ++ (es.reverse.map Frame.tree)) base
  | [], _ => by simpa using h
  | e :: es, hes => by
    rw [List.reverse_cons, List.map_append, ← List.append_assoc]
    exact .extra (hes e (by simp)).isExtra (off_comments h es fun f hf => hes f (by simp [hf]))

theorem Piece.off {s : State} {d : Derivation} {fs : List Frame} (h : Piece s d fs)
    (stk : List Frame) : Off 1 (fs ++ stk) (fs.reverse.map Frame.tree) stk := by
  obtain ⟨es, t, rfl, hes, hextra, -⟩ := h
  have hpart : Off 1 (⟨s, t⟩ :: stk) ([] ++ [t]) stk := .part hextra .done
  simpa using off_comments hpart es fun f hf => (hes f hf).2

/-- The frames for parts in a row, the last on top. -/
inductive Pile : List Derivation → List Frame → Prop
  | nil : Pile [] []
  | cons {s : State} {d : Derivation} {ds : List Derivation} {fs fs' : List Frame}
      (h : Piece s d fs) (h' : Pile ds fs') : Pile (d :: ds) (fs' ++ fs)

variable {ds : List Derivation} {fs : List Frame}

theorem Pile.off (h : Pile ds fs) : ∀ stk : List Frame,
    Off ds.length (fs ++ stk) (fs.reverse.map Frame.tree) stk := by
  induction h with
  | nil =>
    intro stk
    exact .done
  | @cons s d ds fs fs' hp h ih =>
    intro stk
    have hoff := (ih (fs ++ stk)).trans (hp.off stk)
    rw [Nat.add_comm] at hoff
    simpa using hoff

/-- What is known of the trees on a pile, leftmost first. -/
theorem Pile.trees (h : Pile ds fs) :
    Tree.bareAll (Measured.trees (fs.reverse.map Frame.tree)) = ds ∧
      ∀ f ∈ fs, f.tree.tree.isDamaged = false ∧ (f.tree.isExtra → f.tree.tree.IsComment) := by
  induction h with
  | nil => exact ⟨rfl, by simp⟩
  | @cons s d ds fs fs' hp h ih =>
    obtain ⟨ihb, ihd⟩ := ih
    obtain ⟨es, t, rfl, hes, hextra, hbare, hd, -⟩ := hp
    constructor
    · have hes' := Tree.bareAll_of_comments (isComment_of_frames fun f hf => (hes f hf).2)
      simp only [List.reverse_append, List.reverse_singleton, List.map_append,
        Measured.trees_append, Tree.bareAll_append, ihb, hes', List.append_nil]
      simp [Measured.trees, Tree.bareAll, hbare]
    · intro f hf
      simp only [List.mem_append, List.mem_singleton] at hf
      rcases hf with hf | hf | rfl
      · exact ihd f hf
      · exact ⟨(hes f hf).2.isDamaged, fun _ => (hes f hf).2⟩
      · refine ⟨hd, fun he => ?_⟩
        simp [Measured.isExtra, hextra] at he

/-- The leftmost tree on a pile is a part. -/
theorem Pile.snug (h : Pile ds fs) : (∀ f ∈ fs, f.tree.tree.Snug) ∧
    ∀ m ∈ (fs.reverse.map Frame.tree).head?, m.isExtra = false := by
  induction h with
  | nil => simp
  | @cons s d ds fs fs' hp h ih =>
    obtain ⟨es, t, rfl, hes, hextra, -, -, hsnug⟩ := hp
    constructor
    · intro f hf
      simp only [List.mem_append, List.mem_singleton] at hf
      rcases hf with hf | hf | rfl
      · exact ih.1 f hf
      · exact (hes f hf).2.snug
      · exact hsnug
    · simpa [Measured.isExtra] using hextra

theorem Pile.snug_construct (h : Pile ds fs) (p : Production) :
    (Run.construct p (fs.reverse.map Frame.tree)).1.tree.Snug := by
  obtain ⟨hsnug, hfirst⟩ := h.snug
  set ts := fs.reverse.map Frame.tree with hts
  have hsplit := Measured.splitExtras_append ts
  refine .node p (Measured.trees (Measured.splitExtras ts).1) (fun t ht => ?_) (fun t ht => ?_)
    fun t ht => ?_
  · rw [Measured.trees, List.head?_map] at ht
    obtain ⟨m, hm, rfl⟩ := Option.map_eq_some_iff.1 ht
    refine hfirst m ?_
    rw [← hsplit, List.head?_append, hm]
    rfl
  · rw [Measured.trees, List.getLast?_map] at ht
    obtain ⟨m, hm, rfl⟩ := Option.map_eq_some_iff.1 ht
    exact Measured.isExtra_of_mem_getLast? m hm
  · obtain ⟨m, hm, rfl⟩ := Measured.mem_trees.1 ht
    obtain ⟨f, hf, rfl⟩ := List.mem_map.1 (hsplit ▸ List.mem_append_left _ hm : m ∈ ts)
    exact hsnug f (List.mem_reverse.1 hf)

/-- A construct of the parts on a pile. -/
theorem Pile.piece (h : Pile ds fs) (p : Production) (s : State) :
    let c := Run.construct p (fs.reverse.map Frame.tree)
    Piece s (.node p ds) (c.2.reverse.map (Frame.mk s) ++ [⟨s, c.1⟩]) := by
  intro c
  obtain ⟨hbare, hframes⟩ := h.trees
  set ts := fs.reverse.map Frame.tree with hts
  have hsplit : (Measured.splitExtras ts).1 ++ (Measured.splitExtras ts).2 = ts :=
    Measured.splitExtras_append ts
  have hmem : ∀ m ∈ ts, m.tree.isDamaged = false ∧
      (m.isExtra → m.tree.IsComment) := by
    intro m hm
    obtain ⟨f, hf, rfl⟩ := List.mem_map.1 hm
    exact hframes f (by simpa using hf)
  have hextra : ∀ m ∈ (Measured.splitExtras ts).2, m.tree.IsComment := by
    intro m hm
    refine (hmem m ?_).2 (Measured.isExtra_of_mem_splitExtras hm)
    rw [← hsplit]
    exact List.mem_append_right _ hm
  refine ⟨_, c.1, rfl, ?_, rfl, ?_, ?_, h.snug_construct p⟩
  · intro f hf
    obtain ⟨m, hm, rfl⟩ := List.mem_map.1 hf
    exact ⟨rfl, hextra m (List.mem_reverse.1 hm)⟩
  · have hnil : Tree.bareAll (Measured.trees (Measured.splitExtras ts).2) = [] := by
      refine Tree.bareAll_of_comments fun t ht => ?_
      obtain ⟨m, hm, rfl⟩ := Measured.mem_trees.1 ht
      exact hextra m hm
    rw [← hsplit, Measured.trees_append, Tree.bareAll_append, hnil,
      List.append_nil] at hbare
    rw [← hbare]
    rfl
  · refine Tree.anyDamaged_of_forall fun t ht => ?_
    obtain ⟨m, hm, rfl⟩ := Measured.mem_trees.1 ht
    refine (hmem m ?_).1
    rw [← hsplit]
    exact List.mem_append_left _ hm

/-! ## Reading -/

/-- What comes first of tokens. -/
def lookOf : List Terminal → Lookahead
  | [] => .finish
  | t :: _ => .token t

/-- Whether the automaton sees of lexemes what the grammar sees: no comment comes first. -/
def Clear (ls : List Lexeme) : Prop :=
  Lexeme.Known ls ∧ sight ls = some (lookOf (Lexeme.terminals ls))

theorem terminals_cons_of_comment {l : Lexeme} {ls : List Lexeme}
    (hl : l.kind = .token .comment) : Lexeme.terminals (l :: ls) = Lexeme.terminals ls := by
  simp [Lexeme.terminals, Lexeme.terminal?, hl, Terminal.isExtra]

theorem terminals_cons_of_ne {l : Lexeme} {ls : List Lexeme} {t : Terminal}
    (hl : l.kind = .token t) (ht : t ≠ .comment) :
    Lexeme.terminals (l :: ls) = t :: Lexeme.terminals ls := by
  simp [Lexeme.terminals, Lexeme.terminal?, hl, Terminal.isExtra, ht]

theorem Clear.cons {ls : List Lexeme} {t : Terminal} {w : List Terminal} (h : Clear ls)
    (hw : Lexeme.terminals ls = t :: w) : ∃ l rest, ls = l :: rest ∧ l.kind = .token t ∧
      t ≠ .comment ∧ Lexeme.terminals rest = w ∧ Lexeme.Known rest := by
  obtain ⟨hk, hs⟩ := h
  rcases ls with _ | ⟨l, rest⟩
  · simp [Lexeme.terminals] at hw
  · rw [hw] at hs
    rcases hl : l.kind with a | _ <;> simp only [sight, hl, lookOf, Option.some.injEq,
      Lookahead.token.injEq, reduceCtorEq] at hs
    subst hs
    have ht : a ≠ .comment := by
      rintro rfl
      have hmem : Terminal.comment ∈ Lexeme.terminals (l :: rest) := by simp [hw]
      obtain ⟨l', -, hl'⟩ := List.mem_filterMap.1 hmem
      simp only [Lexeme.terminal?] at hl'
      split at hl'
      · split_ifs at hl' with he
        obtain rfl := Option.some.inj hl'
        exact he rfl
      · simp at hl'
    rw [terminals_cons_of_ne hl ht, List.cons.injEq] at hw
    exact ⟨l, rest, rfl, hl, ht, hw.2, fun l' hl' => hk l' (by simp [hl'])⟩

/-- Comments that come first are read. -/
theorem absorb (stk : List Frame) (hs : stateOf stk ≠ .error) :
    ∀ {ls : List Lexeme}, Lexeme.Known ls → ∃ n es ls', Steps n ⟨stk, ls⟩ ⟨es ++ stk, ls'⟩ ∧
      (∀ f ∈ es, f.state = stateOf stk ∧ f.tree.tree.IsComment) ∧ Clear ls' ∧
      Lexeme.terminals ls' = Lexeme.terminals ls ∧ n + ls'.length = ls.length := by
  intro ls hk
  induction ls generalizing stk with
  | nil => exact ⟨0, [], [], .refl _, by simp, ⟨hk, rfl⟩, rfl, rfl⟩
  | cons l ls ih =>
    have hk' : Lexeme.Known ls := fun l' hl' => hk l' (by simp [hl'])
    rcases hl : l.kind with t | _
    · by_cases ht : t = .comment
      · subst ht
        set f : Frame := ⟨stateOf stk, .ofTree (.leaf l)⟩
        have hf : f.tree.tree.IsComment := ⟨l, rfl, hl⟩
        obtain ⟨n, es, ls', hsteps, hes, hclear, hterm, hlen⟩ := ih (f :: stk) hs hk'
        refine ⟨n + 1, es ++ [f], ls', ?_, ?_, hclear, ?_, ?_⟩
        · rw [List.append_assoc, List.singleton_append]
          exact .cons (.extra hl hs) hsteps
        · intro e he
          rcases List.mem_append.1 he with he | he
          · exact hes e he
          · rw [List.mem_singleton.1 he]
            exact ⟨rfl, hf⟩
        · rw [hterm, terminals_cons_of_comment hl]
        · rw [List.length_cons]
          omega
      · refine ⟨0, [], l :: ls, .refl _, by simp, ⟨hk, ?_⟩, rfl, by simp⟩
        rw [terminals_cons_of_ne hl ht]
        simp [sight, hl, lookOf]
    · exact absurd hl (hk l (by simp))

end Machine

namespace Derivation

open Machine (lookOf)

mutual

/-- Whether no expression is completed before a minus, if `w` comes after the derivation. -/
def Settled : Derivation → List Terminal → Prop
  | token _, _ => True
  | node p ds, w => (p = .expression → lookOf w ≠ .token .minus) ∧ SettledAll ds w

def SettledAll : List Derivation → List Terminal → Prop
  | [], _ => True
  | d :: ds, w => Settled d (yieldAll ds ++ w) ∧ SettledAll ds w

end

/-- A construct starts with one of the tokens that it can start with. -/
theorem exists_starter : ∀ {d : Derivation}, d.Valid → ∀ {n : Nonterminal},
    d.symbol = .nonterminal n → n ≠ .sourceFile →
      ∃ t w, d.yield = t :: w ∧ t ∈ State.starters n
  | token _, _, _, hn, _ => by simp [symbol] at hn
  | node p ds, hv, n, hn, hf => by
    obtain rfl : p.lhs = n := by simpa [symbol] using hn
    have hp := State.startsAs_rhs p p.mem_all hf
    rw [← hv.1] at hp
    rcases ds with _ | ⟨d, ds⟩
    · simp [State.startsAs] at hp
    rw [List.map_cons] at hp
    rcases hd : d.symbol with t | m <;> rw [hd] at hp
    · cases d with
      | token t' =>
        obtain rfl : t' = t := by simpa [symbol] using hd
        exact ⟨t', yieldAll ds, by simp [yield, yieldAll], by simpa [State.startsAs] using hp⟩
      | node => simp [symbol] at hd
    · simp only [State.startsAs, Bool.and_eq_true, bne_iff_ne, List.all_eq_true,
        decide_eq_true_eq] at hp
      obtain ⟨t, w, hw, ht⟩ := exists_starter hv.2.1 hd hp.1
      exact ⟨t, w ++ yieldAll ds, by simp [yield, yieldAll, hw], hp.2 t ht⟩

/-- What comes next after some parts have been read. -/
theorem lookOf_mem_upcoming {ds : List Derivation} (hv : ValidAll ds)
    (hf : ∀ X ∈ ds.map symbol, X ≠ .nonterminal .sourceFile) (w : List Terminal) :
    lookOf (yieldAll ds ++ w) ∈ State.upcoming (lookOf w) (ds.map symbol) := by
  rcases ds with _ | ⟨d, ds⟩
  · simp [yieldAll, State.upcoming]
  · rcases hd : d.symbol with t | n
    · cases d with
      | token t' =>
        obtain rfl : t' = t := by simpa [symbol] using hd
        simp [yieldAll, yield, lookOf, State.upcoming, symbol]
      | node => simp [symbol] at hd
    · obtain ⟨t, u, hu, ht⟩ := exists_starter hv.1 hd (by
        rintro rfl
        exact hf d.symbol (by simp) hd)
      simpa [yieldAll, hu, lookOf, State.upcoming, hd] using ht

end Derivation

namespace Machine

open CalcTree.Derivation

theorem action_of_next {s : State} {t : Terminal} (ht : t ≠ .comment)
    (h : s.next (.terminal t) ≠ .error) :
    s.action (.token t) = some (.shift (s.next (.terminal t))) := by
  rcases ha : s.action (.token t) with _ | act
  · simp [State.next, ha] at h
  · rcases act with s' | _ | p | _ | _ <;> simp only [State.next, ha] at h ⊢
    · have := (State.extra_of_action ha).2
      simp [ht] at this
    all_goals exact absurd rfl h

theorem sourceFile_not_mem {ds : List Derivation} {p : Production} {k : Nat}
    (h : ds.map symbol = p.rhs.drop k) :
    ∀ X ∈ ds.map symbol, X ≠ .nonterminal .sourceFile := by
  rintro X hX rfl
  rw [h] at hX
  exact Tree.sourceFile_not_mem_rhs p (List.mem_of_mem_drop hX)

mutual

/-- The machine reads a derivation, and leaves a tree for it on the stack. -/
theorem read : ∀ (d : Derivation), d.Valid → ∀ (stk : List Frame) (ls : List Lexeme)
    (w : List Terminal), (stateOf stk).next d.symbol ≠ .error →
    (stateOf stk).ready (lookOf w) d.symbol → d.Settled w → Clear ls →
    Lexeme.terminals ls = d.yield ++ w →
    ∃ n fs ls', Steps n ⟨stk, ls⟩ ⟨fs ++ stk, ls'⟩ ∧ Piece ((stateOf stk).next d.symbol) d fs ∧
      Clear ls' ∧ Lexeme.terminals ls' = w ∧ n + ls'.length = d.nodes + ls.length
  | token t, _, stk, ls, w, hnext, _, _, hclear, hw => by
    obtain ⟨l, rest, rfl, hl, ht, hrest, hk⟩ := hclear.cons hw
    set s := (stateOf stk).next (.terminal t)
    set f : Frame := ⟨s, .ofTree (.leaf l)⟩
    obtain ⟨n, es, ls', hsteps, hes, hclear', hterm, hlen⟩ := absorb (f :: stk) hnext hk
    refine ⟨n + 1, es ++ [f], ls', ?_, ⟨es, _, rfl, hes, ?_, ?_, rfl, .leaf l _ hl⟩, hclear',
      hterm.trans hrest, ?_⟩
    · rw [List.append_assoc, List.singleton_append]
      exact .cons (.shift hl (action_of_next ht hnext)) hsteps
    · simp [Measured.ofTree, Tree.isExtra, hl, ht]
    · simp [Measured.ofTree, Tree.bare, Lexeme.terminal?, hl, Terminal.isExtra, ht]
    · rw [List.length_cons, nodes]
      omega
  | node p ds, hv, stk, ls, w, hnext, hready, hset, hclear, hw => by
    have hreads := State.reads_of_ready hnext hready fun hp => hset.1 hp
    rw [← hv.1] at hreads
    obtain ⟨n, fs, ls', hsteps, hpile, hclear', hterm, hlen, hact⟩ :=
      readAll ds hv.2 p stk ls w (k := 0) (by simpa using hv.1) hreads hset.2 hclear hw
    have hoff := hpile.off stk
    have hlength : ds.length = p.rhs.length := by rw [← hv.1, List.length_map]
    rw [hlength] at hoff
    refine ⟨n + 1, _, ls', hsteps.trans (.cons (.reduce (hterm ▸ hclear'.2) hact hoff) ?_),
      hpile.piece p _, hclear', hterm, ?_⟩
    · rw [heap, List.append_assoc, List.singleton_append]
      exact .refl _
    · rw [nodes]
      omega

theorem readAll : ∀ (ds : List Derivation), ValidAll ds → ∀ (p : Production) (stk : List Frame)
    (ls : List Lexeme) (w : List Terminal) {k : Nat}, ds.map symbol = p.rhs.drop k →
    State.reads p (lookOf w) (ds.map symbol) (stateOf stk) → SettledAll ds w → Clear ls →
    Lexeme.terminals ls = yieldAll ds ++ w →
    ∃ n fs ls', Steps n ⟨stk, ls⟩ ⟨fs ++ stk, ls'⟩ ∧ Pile ds fs ∧ Clear ls' ∧
      Lexeme.terminals ls' = w ∧ n + ls'.length = nodesAll ds + ls.length ∧
      (stateOf (fs ++ stk)).action (lookOf w) = some (.reduce p)
  | [], _, p, stk, ls, w, _, _, hreads, _, hclear, hw => by
    refine ⟨0, [], ls, .refl _, .nil, hclear, hw, by simp [nodesAll], ?_⟩
    simpa [State.reads] using hreads
  | d :: ds, hv, p, stk, ls, w, k, hrhs, hreads, hset, hclear, hw => by
    simp only [List.map_cons, State.reads, Bool.and_eq_true, bne_iff_ne, List.all_eq_true] at hreads
    obtain ⟨⟨hnext, hready⟩, hreads⟩ := hreads
    have hrhs' : ds.map symbol = p.rhs.drop (k + 1) := by
      rw [← List.tail_drop, ← hrhs, List.map_cons, List.tail_cons]
    have hup := lookOf_mem_upcoming hv.2 (sourceFile_not_mem hrhs') w
    rw [yieldAll, List.append_assoc] at hw
    obtain ⟨n, fs, ls', hsteps, hpiece, hclear', hterm, hlen⟩ :=
      read d hv.1 stk ls (yieldAll ds ++ w) hnext (hready _ hup) hset.1 hclear hw
    have hstate := hpiece.stateOf_eq stk
    obtain ⟨n', fs', ls'', hsteps', hpile, hclear'', hterm', hlen', hact⟩ :=
      readAll ds hv.2 p (fs ++ stk) ls' w hrhs' (hstate ▸ hreads) hset.2 hclear' hterm
    refine ⟨n + n', fs' ++ fs, ls'', ?_, .cons hpiece hpile, hclear'', hterm', ?_, ?_⟩
    · rw [List.append_assoc]
      exact hsteps.trans hsteps'
    · rw [nodesAll]
      omega
    · rw [List.append_assoc]
      exact hact

end

/-- The machine reads a whole file. -/
theorem read_file {d : Derivation} {ls : List Lexeme} (hk : Lexeme.Known ls) (hv : d.Valid)
    (hd : d.symbol = .nonterminal .sourceFile) (hy : d.yield = Lexeme.terminals ls)
    (hs : d.Settled []) :
    ∃ fs es, Steps (d.nodes + ls.length) ⟨[], ls⟩ ⟨fs ++ es, []⟩ ∧ Piece .accepting d fs ∧
      ∀ f ∈ es, f.tree.tree.IsComment := by
  obtain ⟨n, es, ls', hsteps, hes, hclear, hterm, hlen⟩ := absorb [] (by decide) hk
  rw [List.append_nil] at hsteps
  have hstate : stateOf es = .start := by
    rcases es with _ | ⟨e, es⟩
    · rfl
    · exact (hes e (by simp)).1
  obtain ⟨k, fs, rest, hsteps', hpiece, hclear', hterm', hlen'⟩ :=
    read d hv es ls' [] (by rw [hstate, hd]; decide) (by rw [hstate, hd]; decide) hs hclear
      (by rw [hterm, hy, List.append_nil])
  -- Nothing is left to read.
  obtain rfl : rest = [] := by
    rcases rest with _ | ⟨l, rest⟩
    · rfl
    · have hsight := hclear'.2
      rw [hterm'] at hsight
      rcases hl : l.kind <;> simp [sight, hl, lookOf] at hsight
  rw [List.length_nil] at hlen'
  rw [hstate, hd] at hpiece
  have hsum : n + k = d.nodes + ls.length := by omega
  exact ⟨fs, es, hsum ▸ hsteps.trans hsteps', hpiece, fun f hf => (hes f hf).2⟩

end Machine

end CalcTree
