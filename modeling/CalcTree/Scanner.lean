import CalcTree.Grammar.Symbol

/-!
# The scanner

How the next token of a text is found. The first character of a token decides which token it is,
and the token takes every further character that can continue it. The scanner goes from character
to character: it skips blanks until a token starts, and stays in the token as long as that goes on.
Whenever it can stop with what it has, it marks where it is. It finds what it has marked last.

Past the end of a text the scanner sees a NUL, which continues nothing. Only while it looks for a
token does it ask whether it is at the end or at a NUL of the text.

The scanner stops for every text (`stepsLeft_lt`): at the end of the text, after the token that
comes first, or in front of a character that starts none (`scan_of_blank`, `scan_of_starts`,
`scan_of_unknown`).
-/

namespace CalcTree

/-! ## Characters -/

namespace Lexeme

def isBlank (c : Char) : Bool :=
  c == ' ' || ('\t' ≤ c && c ≤ '\r')

def isDigit (c : Char) : Bool :=
  '0' ≤ c && c ≤ '9'

def isLetter (c : Char) : Bool :=
  ('a' ≤ c && c ≤ 'z') || ('A' ≤ c && c ≤ 'Z') || c == '_'

/-- The token that starts with a character. -/
def starts? (c : Char) : Option Terminal :=
  if isLetter c then some .identifier
  else if isDigit c then some .number
  else if c = '\\' then some .comment
  else Terminal.ofChar? c

/-- Whether a token that has begun goes on over a character. -/
def continues : Terminal → Char → Bool
  | .identifier, c => isLetter c || isDigit c
  | .number, c => isDigit c
  | .comment, c => c != '\n' && c != '\x00'
  | _, _ => false

theorem continues_nul (t : Terminal) : continues t '\x00' = false := by
  cases t <;> decide

end Lexeme

/-! ## States and steps -/

namespace Scanner

inductive Mode where
  /-- In front of a token. -/
  | seeking
  /-- Past the end of the text, with no token left. -/
  | ended
  | within (t : Terminal)
deriving DecidableEq, Repr

/-- What there is if the scanner stops. -/
def Mode.accepts : Mode → Option Lookahead
  | seeking => none
  | ended => some .finish
  | within t => some (.token t)

inductive Move where
  | advance (m : Mode)
  | skip
  | stop
deriving DecidableEq, Repr

end Scanner

/-- A scanner in a text. Places are counted in characters, from where it set out. -/
structure Scanner where
  mode : Scanner.Mode
  /-- Where the token starts. -/
  start : Nat
  position : Nat
  /-- The text from the position on. -/
  rest : List Char
  /-- What was marked last, and where. -/
  found : Option (Lookahead × Nat)
deriving DecidableEq, Repr

namespace Scanner

open Lexeme (isBlank starts? continues)

def ofText (cs : List Char) : Scanner :=
  ⟨.seeking, 0, 0, cs, none⟩

/-- What the scanner sees; past the end of the text that is a NUL. -/
def sight (s : Scanner) : Char :=
  s.rest.headD '\x00'

def move (s : Scanner) : Move :=
  match s.mode with
  | .seeking =>
    if s.rest.isEmpty then .advance .ended
    else if isBlank s.sight then .skip
    else
      match starts? s.sight with
      | some t => .advance (.within t)
      | none => .stop
  | .ended => .stop
  | .within t => if continues t s.sight then .advance (.within t) else .stop

/-- Goes over a character, if there is one. -/
def forward (s : Scanner) : Scanner :=
  match s.rest with
  | [] => s
  | _ :: cs => { s with position := s.position + 1, rest := cs }

/-- Changes the mode, and marks the position if the scanner can stop there. -/
def enter (m : Mode) (s : Scanner) : Scanner :=
  { s with
    mode := m
    found := (m.accepts.map (·, s.position)).or s.found }

/-- A step; `none` if the scanner stops. -/
def step (s : Scanner) : Option Scanner :=
  match s.move with
  | .advance m => some (s.forward.enter m)
  | .skip => some { s.forward with start := s.forward.position }
  | .stop => none

/-- What a step can do. -/
theorem step_cases {s s' : Scanner} (h : step s = some s') :
    (s.mode = .seeking ∧ s.rest = [] ∧
      s' = { s with mode := .ended, found := some (.finish, s.position) }) ∨
    ∃ c cs, s.rest = c :: cs ∧
      (s.mode = .seeking ∧ isBlank c ∧
          s' = { s with start := s.position + 1, position := s.position + 1, rest := cs } ∨
        ∃ t, (s.mode = .seeking ∧ isBlank c = false ∧ starts? c = some t ∨
            s.mode = .within t ∧ continues t c) ∧
          s' = ⟨.within t, s.start, s.position + 1, cs, some (.token t, s.position + 1)⟩) := by
  obtain ⟨m, start, position, rest, found⟩ := s
  rcases m with _ | _ | t <;> rcases rest with _ | ⟨c, cs⟩
  · exact .inl ⟨rfl, rfl, (Option.some.inj h).symm⟩
  · refine .inr ⟨c, cs, rfl, ?_⟩
    simp only [step, move, sight, List.isEmpty_cons, List.headD_cons] at h
    by_cases hb : isBlank c
    · simp only [hb, if_true] at h
      exact .inl ⟨rfl, hb, (Option.some.inj h).symm⟩
    · rcases hs : starts? c with _ | t
      · simp [hb, hs] at h
      · simp only [hb, hs] at h
        exact .inr ⟨t, .inl ⟨rfl, by simpa using hb, rfl⟩, (Option.some.inj h).symm⟩
  · cases h
  · cases h
  · simp [step, move, sight, Lexeme.continues_nul] at h
  · refine .inr ⟨c, cs, rfl, .inr ⟨t, ?_⟩⟩
    simp only [step, move, sight, List.headD_cons] at h
    by_cases hc : continues t c
    · simp only [hc, if_true] at h
      exact ⟨.inr ⟨rfl, hc⟩, (Option.some.inj h).symm⟩
    · simp [hc] at h

/-- A bound on the steps that are left: each goes over a character, or else is the last one, at the
end of the text. -/
def stepsLeft (s : Scanner) : Nat :=
  s.rest.length + if s.mode = .seeking then 1 else 0

theorem stepsLeft_lt {s s' : Scanner} (h : step s = some s') : s'.stepsLeft < s.stepsLeft := by
  rcases step_cases h with ⟨hm, -, rfl⟩ | ⟨c, cs, hrest, ⟨hm, -, rfl⟩ | ⟨t, -, rfl⟩⟩
  · simp [stepsLeft, hm]
  · simp [stepsLeft, hm, hrest]
  · simp only [stepsLeft, hrest, List.length_cons, reduceCtorEq, if_false]
    omega

/-- Goes on until the scanner stops. -/
def run (s : Scanner) : Scanner :=
  match h : step s with
  | some s' =>
    have := stepsLeft_lt h
    run s'
  | none => s
termination_by s.stepsLeft

/-- Finds the next token of a text. -/
def scan (cs : List Char) : Scanner :=
  (ofText cs).run

/-! ## What is found -/

theorem run_of_some {s s' : Scanner} (h : step s = some s') : s.run = s'.run := by
  rw [run.eq_def]
  split <;> simp_all

theorem run_of_none {s : Scanner} (h : step s = none) : s.run = s := by
  rw [run.eq_def]
  split <;> simp_all

/-- Within a token the scanner goes on over all that continues it. -/
theorem run_within (t : Terminal) : ∀ (cs : List Char) (start position : Nat),
    run ⟨.within t, start, position, cs, some (.token t, position)⟩ =
      ⟨.within t, start, position + (cs.takeWhile (continues t)).length,
        cs.dropWhile (continues t),
        some (.token t, position + (cs.takeWhile (continues t)).length)⟩
  | [], start, position => by
    rw [run_of_none (by simp [step, move, sight, Lexeme.continues_nul])]
    rfl
  | c :: cs, start, position => by
    by_cases hc : continues t c
    · have hstep : step ⟨.within t, start, position, c :: cs, some (.token t, position)⟩ =
          some ⟨.within t, start, position + 1, cs, some (.token t, position + 1)⟩ := by
        simp only [step, move, sight, List.headD_cons, hc, if_true]
        rfl
      rw [run_of_some hstep, run_within t cs, List.takeWhile_cons_of_pos hc,
        List.dropWhile_cons_of_pos hc, List.length_cons, Nat.add_right_comm, Nat.add_assoc]
    · rw [run_of_none (by simp [step, move, sight, hc]), List.takeWhile_cons_of_neg hc,
        List.dropWhile_cons_of_neg hc]
      rfl

/-- In front of a token the scanner skips blanks. -/
theorem run_blank : ∀ {blank : List Char} (cs : List Char) (position : Nat),
    (∀ c ∈ blank, isBlank c) → run ⟨.seeking, position, position, blank ++ cs, none⟩ =
      run ⟨.seeking, position + blank.length, position + blank.length, cs, none⟩
  | [], _, _, _ => rfl
  | c :: blank, cs, position, h => by
    have hstep : step ⟨.seeking, position, position, c :: (blank ++ cs), none⟩ =
        some ⟨.seeking, position + 1, position + 1, blank ++ cs, none⟩ := by
      simp only [step, move, sight, List.isEmpty_cons, List.headD_cons, h c (by simp), if_true]
      rfl
    rw [List.cons_append, run_of_some hstep, run_blank cs _ fun x hx => h x (by simp [hx]),
      List.length_cons, Nat.add_right_comm, Nat.add_assoc]

variable {blank : List Char} {c : Char} (cs : List Char)

/-- After blanks that end a text the scanner finds that there is no token left. -/
theorem scan_of_blank (hblank : ∀ c ∈ blank, isBlank c) :
    scan blank = ⟨.ended, blank.length, blank.length, [], some (.finish, blank.length)⟩ := by
  have hstep : step ⟨.seeking, blank.length, blank.length, [], none⟩ =
      some ⟨.ended, blank.length, blank.length, [], some (.finish, blank.length)⟩ := rfl
  have hrun := run_blank [] 0 hblank
  rw [List.append_nil, Nat.zero_add] at hrun
  rw [scan, ofText, hrun, run_of_some hstep, run_of_none rfl]

/-- After blanks the scanner finds the token that starts there, with all that continues it. -/
theorem scan_of_starts {t : Terminal} (hblank : ∀ c ∈ blank, isBlank c) (hc : isBlank c = false)
    (hs : starts? c = some t) :
    let stop := blank.length + 1 + (cs.takeWhile (continues t)).length
    scan (blank ++ c :: cs) =
      ⟨.within t, blank.length, stop, cs.dropWhile (continues t), some (.token t, stop)⟩ := by
  have hstep : step ⟨.seeking, blank.length, blank.length, c :: cs, none⟩ =
      some ⟨.within t, blank.length, blank.length + 1, cs,
        some (.token t, blank.length + 1)⟩ := by
    simp only [step, move, sight, List.isEmpty_cons, List.headD_cons, hc, hs]
    rfl
  have hrun := run_blank (c :: cs) 0 hblank
  rw [Nat.zero_add] at hrun
  rw [scan, ofText, hrun, run_of_some hstep, run_within]

/-- In front of a character that starts no token the scanner finds nothing. -/
theorem scan_of_unknown (hblank : ∀ c ∈ blank, isBlank c) (hc : isBlank c = false)
    (hs : starts? c = none) :
    scan (blank ++ c :: cs) = ⟨.seeking, blank.length, blank.length, c :: cs, none⟩ := by
  have hstep : step ⟨.seeking, blank.length, blank.length, c :: cs, none⟩ = none := by
    simp [step, move, sight, hc, hs]
  have hrun := run_blank (c :: cs) 0 hblank
  rw [Nat.zero_add] at hrun
  rw [scan, ofText, hrun, run_of_none hstep]

end Scanner

end CalcTree
