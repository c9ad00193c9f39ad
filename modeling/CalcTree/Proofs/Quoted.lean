import CalcTree.Text.Quoted
import Mathlib.Tactic.SplitIfs

/-!
# Reading quoted texts

A quoted text can be read back, whatever comes after it (`read?_encode_append`): the only bare quote
after the first is its end, and every escape tells where it ends. A quoted text has no line feed in
it (`line_feed_not_mem_encode`).
-/

namespace CalcTree.Text.Quoted

/-- What the reader of a quoted text is in the middle of. -/
inductive Mode where
  | plain
  /-- After a backslash. -/
  | escape
  /-- After a backslash and the letter for code points. -/
  | opening
  /-- Within a code point, with the value of its digits so far. -/
  | code (n : Nat)

/-- The character that an escape of one letter stands for. -/
def ofLetter? : Char → Option Char
  | '0' => some '\x00'
  | 't' => some '\t'
  | 'n' => some '\n'
  | 'r' => some '\r'
  | '"' => some '"'
  | '\\' => some '\\'
  | _ => none

/-- The value of a hexadecimal digit. -/
def digitValue (c : Char) : Nat :=
  if c.isDigit then c.toNat - '0'.toNat else c.toNat - 'a'.toNat + 10

/-- Reads up to the closing quote: the text, and what comes after the quote. -/
def readIn? : Mode → List Char → Option (List Char × List Char)
  | _, [] => none
  | .plain, c :: cs =>
    if c = '"' then some ([], cs)
    else if c = '\\' then readIn? .escape cs
    else (readIn? .plain cs).map fun (text, rest) => (c :: text, rest)
  | .escape, c :: cs =>
    if c = 'u' then readIn? .opening cs
    else (ofLetter? c).bind fun x => (readIn? .plain cs).map fun (text, rest) => (x :: text, rest)
  | .opening, c :: cs => if c = '\x7b' then readIn? (.code 0) cs else none
  | .code n, c :: cs =>
    if c = '\x7d' then
      (readIn? .plain cs).map fun (text, rest) => (Char.ofNat n :: text, rest)
    else readIn? (.code (16 * n + digitValue c)) cs

/-- Reads a quoted text: the text, and what comes after it. -/
def read? : List Char → Option (List Char × List Char)
  | '"' :: cs => readIn? .plain cs
  | _ => none

theorem digitChar_facts : ∀ n < 16, n.digitChar ≠ '\x7d' ∧ n.digitChar ≠ '\n' ∧
    digitValue n.digitChar = n := by
  decide

theorem readIn?_digit {n k : Nat} (hk : k < 16) (cs : List Char) :
    readIn? (.code n) (k.digitChar :: cs) = readIn? (.code (16 * n + k)) cs := by
  obtain ⟨hend, -, hvalue⟩ := digitChar_facts k hk
  rw [readIn?, if_neg hend, hvalue]

theorem readIn?_toDigits (n : Nat) (cs : List Char) :
    readIn? (.code 0) (Nat.toDigits 16 n ++ cs) = readIn? (.code n) cs := by
  rw [Nat.toDigits_eq_if (by decide)]
  split_ifs with hn
  · rw [List.singleton_append, readIn?_digit hn, Nat.mul_zero, Nat.zero_add]
  · rw [List.append_assoc, readIn?_toDigits (n / 16), List.singleton_append,
      readIn?_digit (Nat.mod_lt n (by decide)), Nat.div_add_mod]

/-- A character is read back from the way it is written. -/
theorem readIn?_escape (c : Char) (cs : List Char) : readIn? .plain (escape c ++ cs) =
    (readIn? .plain cs).map fun (text, rest) => (c :: text, rest) := by
  unfold escape
  split
  · rfl
  · rfl
  · rfl
  · rfl
  · rfl
  · rfl
  · rename_i hquote hbackslash
    split_ifs
    · rw [List.singleton_append, readIn?, if_neg hquote, if_neg hbackslash]
    · have hcode : readIn? .plain
          ((['\\', 'u', '\x7b'] ++ Nat.toDigits 16 c.toNat ++ ['\x7d']) ++ cs) =
          readIn? (.code 0) (Nat.toDigits 16 c.toNat ++ '\x7d' :: cs) := by
        simp [readIn?]
      rw [hcode, readIn?_toDigits, readIn?, if_pos rfl, Char.ofNat_toNat]

/-- A quoted text is read back, whatever comes after it. -/
theorem read?_encode_append (s rest : List Char) : read? (encode s ++ rest) = some (s, rest) := by
  have hread : ∀ s : List Char,
      readIn? .plain (s.flatMap escape ++ '"' :: rest) = some (s, rest) := by
    intro s
    induction s with
    | nil => rfl
    | cons c s ih => rw [List.flatMap_cons, List.append_assoc, readIn?_escape, ih, Option.map_some]
  rw [← hread s, encode, List.append_assoc]
  rfl

theorem line_feed_not_mem_toDigits (n : Nat) : '\n' ∉ Nat.toDigits 16 n := by
  rw [Nat.toDigits_eq_if (by decide)]
  split_ifs with hn
  · rw [List.mem_singleton]
    exact (digitChar_facts n hn).2.1.symm
  · rw [List.mem_append, List.mem_singleton, not_or]
    exact ⟨line_feed_not_mem_toDigits (n / 16),
      (digitChar_facts (n % 16) (Nat.mod_lt n (by decide))).2.1.symm⟩

theorem line_feed_not_mem_escape (c : Char) : '\n' ∉ escape c := by
  unfold escape
  split
  · decide
  · decide
  · decide
  · decide
  · decide
  · decide
  · rename_i hfeed _ _ _
    split_ifs
    · rw [List.mem_singleton]
      exact Ne.symm hfeed
    · simpa using line_feed_not_mem_toDigits c.toNat

theorem line_feed_not_mem_encode (s : List Char) : '\n' ∉ encode s := by
  simpa [encode] using fun c _ => line_feed_not_mem_escape c

end CalcTree.Text.Quoted
