import CalcTree.Proofs.Separators
import CalcTree.Proofs.Spans

/-!
# The scanner finds the longest token

From every place in a source the scanner skips all blanks, and then finds the token that starts
there, in the longest text it can have (`Scanner.longest_match`). Which token that is the first
character decides. The scanner finds the end of the source only where there is nothing left but
blanks, and nothing at all only in front of a character that starts no token. It makes at most one
step for each character, and one for the end.

The patterns of tokens are those of `Terminal.Spelt`, which says what texts a token can have and
does not know how they are found.
-/

namespace CalcTree

namespace Lexeme

theorem isBlank_iff {c : Char} : isBlank c ↔ 9 ≤ c.toNat ∧ c.toNat ≤ 13 ∨ c.toNat = 32 := by
  have hlow : '\t'.val.toNat = 9 := rfl
  have hhigh : '\r'.val.toNat = 13 := rfl
  have hspace : ' '.toNat = 32 := rfl
  rw [isBlank, Bool.or_eq_true, Bool.and_eq_true, beq_iff_eq, decide_eq_true_eq,
    decide_eq_true_eq, Char.le_def, Char.le_def, UInt32.le_iff_toNat_le, UInt32.le_iff_toNat_le,
    hlow, hhigh, ← Char.toNat_inj, hspace, or_comm]
  rfl

end Lexeme

namespace Terminal

open Lexeme (starts? continues)

variable {t u : Terminal} {c : Char} {cs text rest : List Char}

/-- Whether a character starts a token. -/
def Begins (t : Terminal) (c : Char) : Prop :=
  ∃ cs, t.Spelt (c :: cs)

/-- Whether a text is the longest one that a token can have at the start of another. -/
def Longest (t : Terminal) (text rest : List Char) : Prop :=
  t.Spelt text ∧ text <+: rest ∧ ∀ more, t.Spelt more → more <+: rest → more.length ≤ text.length

/-- A token that is always spelt the same does not go on. -/
theorem continues_of_char? (h : t.char? = some c) (x : Char) : continues t x = false := by
  cases t <;> first | rfl | cases h

/-- A character that starts a token spells it, with any that continue it. -/
theorem spelt_of_starts? (hc : starts? c = some t) (hcs : ∀ x ∈ cs, continues t x) :
    t.Spelt (c :: cs) := by
  unfold starts? at hc
  split_ifs at hc with hletter hdigit hback
  · cases hc
    refine .identifier (Lexeme.isLetter_iff.1 hletter) fun x hx => ?_
    have hx := hcs x hx
    rwa [continues, Bool.or_eq_true, Lexeme.isLetter_iff, Lexeme.isDigit_eq, or_right_comm,
      ← Bool.or_eq_true, ← Char.isAlphanum] at hx
  · cases hc
    refine .number (List.cons_ne_nil c cs) fun x hx => ?_
    rw [← Lexeme.isDigit_eq]
    rcases List.mem_cons.1 hx with rfl | hx
    · exact hdigit
    · exact hcs x hx
  · cases hc
    subst hback
    exact .comment fun x hx => by simpa [continues] using hcs x hx
  · have hchar : t.char? = some c := by simpa using List.find?_some hc
    have hnil : cs = [] := List.eq_nil_iff_forall_not_mem.2 fun x hx => by
      simpa [continues_of_char? hchar x] using hcs x hx
    rw [hnil]
    exact .mark hchar

theorem spelt_cons_iff : t.Spelt (c :: cs) ↔
    starts? c = some t ∧ ∀ x ∈ cs, continues t x := by
  constructor
  · intro h
    obtain ⟨c', cs', heq, hc, hcs⟩ := Spelling.exists_cons ⟨t, c :: cs, h⟩
    obtain ⟨rfl, rfl⟩ := List.cons.inj heq
    exact ⟨hc, hcs⟩
  · rintro ⟨hc, hcs⟩
    exact spelt_of_starts? hc hcs

theorem begins_iff : t.Begins c ↔ starts? c = some t := by
  constructor
  · rintro ⟨cs, h⟩
    exact (spelt_cons_iff.1 h).1
  · intro h
    exact ⟨[], spelt_cons_iff.2 ⟨h, List.forall_mem_nil _⟩⟩

theorem Begins.unique (ht : t.Begins c) (hu : u.Begins c) : u = t := by
  rw [begins_iff] at ht hu
  exact Option.some.inj (hu.symm.trans ht)

theorem Longest.length_pos (h : t.Longest text rest) : 0 < text.length := by
  obtain ⟨c, cs, rfl, -⟩ := Spelling.exists_cons ⟨t, text, h.1⟩
  exact Nat.zero_lt_succ _

/-- All that continues a token makes its longest text. -/
theorem longest_takeWhile (h : starts? c = some t) (cs : List Char) :
    t.Longest (c :: cs.takeWhile (continues t)) (c :: cs) := by
  refine ⟨spelt_of_starts? h (List.all_eq_true.1 List.all_takeWhile),
    (List.prefix_cons_inj c).2 (List.takeWhile_prefix _), fun more hmore hprefix => ?_⟩
  obtain ⟨c', ds, rfl, -, hds⟩ := Spelling.exists_cons ⟨t, more, hmore⟩
  obtain ⟨rfl, es, rfl⟩ := List.cons_prefix_cons.1 hprefix
  rw [List.takeWhile_append_of_pos hds, List.length_cons, List.length_cons, List.length_append]
  omega

end Terminal

namespace Scanner

open Lexeme (isBlank starts? continues)

/-! ## Steps -/

/-- Where so many steps lead. -/
def afterSteps : Nat → Scanner → Option Scanner
  | 0, s => some s
  | n + 1, s => s.step.bind (afterSteps n)

/-- The scanner stops, after no more steps than there can be left. -/
theorem exists_steps (s : Scanner) :
    ∃ n ≤ s.stepsLeft, s.afterSteps n = some s.run ∧ s.run.step = none := by
  rcases h : s.step with _ | s'
  · exact ⟨0, Nat.zero_le _, by rw [run_of_none h, afterSteps], by rw [run_of_none h, h]⟩
  · have hlt := stepsLeft_lt h
    obtain ⟨n, hn, hsteps, hstop⟩ := exists_steps s'
    rw [run_of_some h]
    exact ⟨n + 1, by omega, by rw [afterSteps, h, Option.bind_some, hsteps], hstop⟩
termination_by s.stepsLeft

/-! ## What is found -/

/-- What the scanner finds after blanks, by the text that follows. -/
theorem scan_cases (cs : List Char) : ∃ blank rest, cs = blank ++ rest ∧
    (∀ c ∈ blank, isBlank c) ∧ (∀ c ∈ rest.head?, isBlank c = false) ∧
    (scan cs).start = blank.length ∧
    (rest = [] ∧ (scan cs).found = some (.finish, blank.length) ∨
      ∃ c more, rest = c :: more ∧
        ((∀ t : Terminal, ¬ t.Begins c) ∧ (scan cs).found = none ∨
          ∃ (t : Terminal) (text : List Char), t.Begins c ∧ t.Longest text rest ∧
            (scan cs).found = some (.token t, blank.length + text.length))) := by
  rcases Scan.blank_or_first cs with hcs | ⟨blank, c, more, rfl, hblank, hc⟩
  · refine ⟨cs, [], by simp, hcs, by simp, ?_, .inl ⟨rfl, ?_⟩⟩ <;> rw [scan_of_blank hcs]
  refine ⟨blank, c :: more, rfl, hblank, by simpa using hc, ?_⟩
  rcases hs : starts? c with _ | t
  · rw [scan_of_unknown more hblank hc hs]
    refine ⟨rfl, .inr ⟨c, more, rfl, .inl ⟨fun t ht => ?_, rfl⟩⟩⟩
    rw [Terminal.begins_iff, hs] at ht
    cases ht
  · rw [scan_of_starts more hblank hc hs]
    refine ⟨rfl, .inr ⟨c, more, rfl, .inr ⟨t, _, Terminal.begins_iff.2 hs,
      Terminal.longest_takeWhile hs more, ?_⟩⟩⟩
    rw [List.length_cons, Nat.add_assoc, Nat.add_comm 1]

variable {source : String} {pre cs : List Char}

/-- From every place in a source the scanner skips all blanks and finds the longest token after them
if one starts there, the end if nothing is left, and else nothing. It stops, and no token that it
finds is empty. -/
theorem longest_match (h : source.toList = pre ++ cs) :
    (∃ n ≤ cs.length + 1,
      (ofText cs).afterSteps n = some (scan cs) ∧ (scan cs).step = none) ∧
    (∃ blank rest, cs = blank ++ rest ∧ (scan cs).start = blank.length ∧
      (∀ c ∈ blank, 9 ≤ c.toNat ∧ c.toNat ≤ 13 ∨ c.toNat = 32) ∧
      (∀ c ∈ rest.head?, ¬ (9 ≤ c.toNat ∧ c.toNat ≤ 13 ∨ c.toNat = 32)) ∧
      (rest = [] → (scan cs).found = some (.finish, blank.length)) ∧
      ∀ c ∈ rest.head?,
        ((scan cs).found = none ↔ ∀ t : Terminal, ¬ t.Begins c) ∧
        ∀ t : Terminal, t.Begins c → (∀ u : Terminal, u.Begins c → u = t) ∧
          ∃ text, t.Longest text rest ∧ 1 ≤ text.length ∧
            (scan cs).found = some (.token t, blank.length + text.length) ∧
            String.Pos.Raw.IsValid source ⟨(Extent.ofChars (pre ++ blank ++ text)).bytes⟩) ∧
    ∀ t stop, (scan cs).found = some (.token t, stop) → (scan cs).start < stop := by
  obtain ⟨blank, rest, rfl, hblank, hrest, hstart, hcases⟩ := scan_cases cs
  refine ⟨exists_steps (ofText (blank ++ rest)), ⟨blank, rest, rfl, hstart, ?_, ?_, ?_⟩, ?_⟩
  · exact fun c hc => Lexeme.isBlank_iff.1 (hblank c hc)
  · intro c hc
    rw [← Lexeme.isBlank_iff, hrest c hc]
    exact Bool.false_ne_true
  · rcases hcases with ⟨rfl, hfound⟩ |
      ⟨c, more, rfl, ⟨hnone, hfound⟩ | ⟨t, text, ht, hlong, hfound⟩⟩
    · exact ⟨fun _ => hfound, by simp⟩
    · refine ⟨by simp, fun c' hc' => ?_⟩
      obtain rfl : c = c' := by simpa using hc'
      exact ⟨iff_of_true hfound hnone, fun t ht => absurd ht (hnone t)⟩
    · refine ⟨by simp, fun c' hc' => ?_⟩
      obtain rfl : c = c' := by simpa using hc'
      refine ⟨iff_of_false (by simp [hfound]) fun hnone => hnone t ht, fun u hu => ?_⟩
      obtain rfl := ht.unique hu
      refine ⟨fun u => ht.unique, text, hlong, hlong.length_pos, hfound, ?_⟩
      obtain ⟨after, hafter⟩ := hlong.2.1
      refine Extent.IsIn.isValid ⟨pre ++ blank ++ text, ⟨after, ?_⟩, rfl⟩
      rw [h, ← hafter]
      simp
  · intro u stop hu
    rcases hcases with ⟨-, hfound⟩ | ⟨c, more, -, ⟨-, hfound⟩ | ⟨t, text, -, hlong, hfound⟩⟩ <;>
      rw [hfound] at hu <;> cases hu
    have := hlong.length_pos
    omega

/-- A comment after blanks takes in all up to a NUL. -/
theorem longest_match_comment :
    "é \n\\é*\x00+".toList = ['é'] ++ [' ', '\n', '\\', 'é', '*', '\x00', '+'] ∧
    (scan [' ', '\n', '\\', 'é', '*', '\x00', '+']).start = 2 ∧
    (scan [' ', '\n', '\\', 'é', '*', '\x00', '+']).found = some (.token .comment, 5) ∧
    Terminal.Longest .comment ['\\', 'é', '*'] ['\\', 'é', '*', '\x00', '+'] ∧
    String.Pos.Raw.IsValid "é \n\\é*\x00+" ⟨8⟩ := by
  have hsource : "é \n\\é*\x00+".toList =
      ['é'] ++ ([' ', '\n'] ++ ['\\', 'é', '*', '\x00', '+']) := by decide
  obtain ⟨-, ⟨blank, rest, hcs, hblank, -, -, -, hrest⟩, -⟩ := longest_match hsource
  have hstart : (scan [' ', '\n', '\\', 'é', '*', '\x00', '+']).start = 2 := by decide +kernel
  have hfound : (scan [' ', '\n', '\\', 'é', '*', '\x00', '+']).found =
      some (.token .comment, 5) := by decide +kernel
  obtain ⟨rfl, rfl⟩ := List.append_inj hcs (hstart.symm.trans hblank)
  obtain ⟨-, text, hlong, -, hstop, hvalid⟩ :=
    (hrest '\\' rfl).2 .comment ⟨[], .comment (List.forall_mem_nil _)⟩
  have hlength : text.length = 3 := by
    have hplaces := hstop.symm.trans hfound
    rw [Option.some.injEq, Prod.mk.injEq] at hplaces
    exact Nat.add_left_cancel hplaces.2
  obtain rfl : text = ['\\', 'é', '*'] := by
    rw [List.prefix_iff_eq_take.1 hlong.2.1, hlength]
    rfl
  exact ⟨hsource, hstart, hfound, hlong, hvalid⟩

end Scanner

end CalcTree
