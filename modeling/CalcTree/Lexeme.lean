import CalcTree.Scanner
import CalcTree.Text.Extent

/-!
# Lexemes

A source is cut into lexemes from left to right, each with the blanks in front of it. The scanner
finds those that are tokens. Characters that start no token form lexemes of their own: a run of
them, with any blanks in between, is one lexeme. A byte order mark counts as a blank at the very
start.

Nothing is lost on the way: blanks and texts of all lexemes, with the blanks at the end, spell
the source. What the next lexeme is can be read off the first character that is no blank
(`Scan.after_of_first`).
-/

namespace CalcTree

/-- What a lexeme stands for: a token, or characters that start none. -/
inductive Lexeme.Kind where
  | token (t : Terminal)
  | unknown
deriving DecidableEq, Repr

structure Lexeme where
  kind : Lexeme.Kind
  /-- The blanks in front. -/
  blank : List Char
  text : List Char
deriving DecidableEq, Repr

/-- A source, cut up. -/
structure Scan where
  lexemes : List Lexeme
  /-- The blanks after the last lexeme. -/
  trailing : List Char
deriving DecidableEq, Repr

namespace Lexeme

def pad (l : Lexeme) : Extent :=
  .ofChars l.blank

def size (l : Lexeme) : Extent :=
  .ofChars l.text

def byteOrderMark : Char := '\ufeff'

def isUnknown (c : Char) : Bool :=
  !isBlank c && (starts? c).isNone

/-- The run of unknown characters at the start of a text: it may hold blanks but ends in none. -/
def unknownRun (cs : List Char) : List Char :=
  ((cs.takeWhile fun c => isBlank c || isUnknown c).reverse.dropWhile isBlank).reverse

/-- Kind and text of the lexeme at the start of a text whose first character is no blank. -/
def first (c : Char) (cs : List Char) : Kind × List Char :=
  match starts? c with
  | some t => (.token t, c :: cs.takeWhile (continues t))
  | none => (.unknown, unknownRun (c :: cs))

end Lexeme

namespace Scan

/-- Cuts up a text after blanks already read. There are fewer lexemes than `fuel` if there are
fewer characters than that. -/
def after : Nat → List Char → List Char → Scan
  | 0, read, cs => ⟨[], read ++ cs⟩
  | fuel + 1, read, cs =>
    let s := Scanner.scan cs
    let blank := read ++ cs.take s.start
    let rest := cs.drop s.start
    match s.found with
    | some (.finish, _) => ⟨[], blank⟩
    | some (.token t, stop) =>
      let later := after fuel [] (cs.drop stop)
      ⟨⟨.token t, blank, rest.take (stop - s.start)⟩ :: later.lexemes, later.trailing⟩
    | none =>
      let text := Lexeme.unknownRun rest
      let later := after fuel [] (rest.drop text.length)
      ⟨⟨.unknown, blank, text⟩ :: later.lexemes, later.trailing⟩

def ofChars (source : List Char) : Scan :=
  match source with
  | [] => ⟨[], []⟩
  | c :: cs =>
    if c = Lexeme.byteOrderMark then after (cs.length + 1) [c] cs
    else after (cs.length + 2) [] source

variable {fuel : Nat} {read blank : List Char} {c : Char}

/-- Blanks alone are no lexeme. -/
theorem after_of_blank {cs : List Char} (hcs : ∀ c ∈ cs, Lexeme.isBlank c) :
    after fuel read cs = ⟨[], read ++ cs⟩ := by
  rcases fuel with _ | fuel
  · rfl
  · simp only [after, Scanner.scan_of_blank hcs, List.take_length]

/-- The first lexeme comes after the blanks in front of it. -/
theorem after_of_first (rest : List Char) (hblank : ∀ c ∈ blank, Lexeme.isBlank c)
    (hc : Lexeme.isBlank c = false) :
    after (fuel + 1) read (blank ++ c :: rest) =
      let later := after fuel [] ((c :: rest).drop (Lexeme.first c rest).2.length)
      ⟨⟨(Lexeme.first c rest).1, read ++ blank, (Lexeme.first c rest).2⟩ :: later.lexemes,
        later.trailing⟩ := by
  rcases hs : Lexeme.starts? c with _ | t
  · simp only [after, Scanner.scan_of_unknown rest hblank hc hs, Lexeme.first, hs,
      List.take_left, List.drop_left]
  · have hstop : blank.length + 1 + (rest.takeWhile (Lexeme.continues t)).length =
        blank.length + (c :: rest.takeWhile (Lexeme.continues t)).length := by
      rw [List.length_cons, Nat.add_assoc, Nat.add_comm 1]
    have htext := List.prefix_iff_eq_take.1
      ((List.prefix_cons_inj c).2 (List.takeWhile_prefix (Lexeme.continues t) (l := rest)))
    simp only [after, Scanner.scan_of_starts rest hblank hc hs, Lexeme.first, hs, hstop,
      List.take_left, List.drop_left, Nat.add_sub_cancel_left, List.drop_length_add_append, ← htext]

end Scan

end CalcTree
