import CalcTree.Proofs.Spacing

/-!
# Tokens written one after the other

Tokens can be written side by side, with two exceptions: a name or a number must be parted from what
would continue it, and a comment from all that comes after it on its line. A scan of tokens with
blanks in the gaps gives these tokens back if and only if every gap parts its neighbours
(`Spelling.readings_write_iff`). So one blank where two tokens would grow together and a line feed
after each comment are enough, more blanks change nothing, and none of those in front of a token can
be left out (`Spelling.scan_written`).
-/

namespace CalcTree

/-! ## Spellings -/

namespace Terminal

/-- The texts that a token can have. -/
inductive Spelt : Terminal → List Char → Prop
  | identifier {c : Char} {cs : List Char} (hc : c.isAlpha ∨ c = '_')
      (hcs : ∀ x ∈ cs, x.isAlphanum ∨ x = '_') : Spelt .identifier (c :: cs)
  | number {cs : List Char} (hne : cs ≠ []) (hcs : ∀ x ∈ cs, x.isDigit) : Spelt .number cs
  | comment {cs : List Char} (hcs : ∀ x ∈ cs, x ≠ '\n' ∧ x ≠ '\x00') : Spelt .comment ('\\' :: cs)
  | mark {t : Terminal} {c : Char} (hc : t.char? = some c) : Spelt t [c]

/-- Whether a name or a number goes on in a token that is written right after it. -/
def joins : Terminal → Terminal → Bool
  | .identifier, .identifier | .identifier, .number | .number, .number => true
  | _, _ => false

end Terminal

namespace Lexeme

variable {c : Char} {t u : Terminal}

theorem isDigit_eq (c : Char) : isDigit c = c.isDigit := by
  simp only [isDigit, Char.isDigit, Char.le_def]

theorem isLetter_iff : isLetter c ↔ c.isAlpha ∨ c = '_' := by
  have halpha : c.isAlpha = (decide ('A' ≤ c ∧ c ≤ 'Z') || ('a' ≤ c && c ≤ 'z')) := rfl
  rw [isLetter, halpha, Bool.decide_and, Bool.or_eq_true, beq_iff_eq, Bool.or_comm]

theorem isDigit_of_isLetter (h : isLetter c) : isDigit c = false := by
  have hnine : '9'.val.toNat = 57 := rfl
  have hlower : 'a'.val.toNat = 97 := rfl
  have hupper : 'A'.val.toNat = 65 := rfl
  simp only [isLetter, Bool.or_eq_true, Bool.and_eq_true, beq_iff_eq, decide_eq_true_eq,
    Char.le_def, UInt32.le_iff_toNat_le] at h
  simp only [isDigit, Bool.and_eq_false_iff, decide_eq_false_iff_not, Char.le_def,
    UInt32.le_iff_toNat_le]
  rcases h with (h | h) | rfl
  · omega
  · omega
  · decide

/-- A character that starts a token is a letter if the token is a name, and a digit if it is a
number. -/
theorem isLetter_isDigit_of_starts? (h : starts? c = some u) :
    isLetter c = (u == .identifier) ∧ isDigit c = (u == .number) := by
  unfold starts? at h
  split_ifs at h with hletter hdigit hback
  · cases h
    exact ⟨hletter, isDigit_of_isLetter hletter⟩
  · cases h
    simp [hletter, hdigit]
  · cases h
    simp [hletter, hdigit]
  · have hchar := List.find?_some h
    cases u <;> simp_all [Terminal.char?]

/-- A token goes on over the start of another one if it is a comment, or if the two are joined. -/
theorem continues_iff_of_starts? (h : starts? c = some u) :
    continues t c ↔ t = .comment ∨ t.joins u := by
  obtain ⟨hletter, hdigit⟩ := isLetter_isDigit_of_starts? h
  have hfeed : c ≠ '\n' := by
    rintro rfl
    cases h
  have hnul : c ≠ '\x00' := by
    rintro rfl
    cases h
  cases t <;> simp [continues, hletter, hdigit, hfeed, hnul] <;> cases u <;> decide

/-- A blank ends every token but a comment, and a line feed ends that too. -/
theorem continues_iff_of_isBlank (h : isBlank c) : continues t c ↔ t = .comment ∧ c ≠ '\n' := by
  rcases eq_of_isBlank h with rfl | rfl | rfl | rfl | rfl | rfl <;> cases t <;> decide

end Lexeme

/-- A token as it is written. -/
structure Spelling where
  terminal : Terminal
  text : List Char
  spelt : terminal.Spelt text

namespace Spelling

/-- What a scan says of a token: its kind and its text. -/
def reading (s : Spelling) : Lexeme.Kind × List Char :=
  (.token s.terminal, s.text)

/-- A token starts with a character of its own and goes on with characters that continue it. -/
theorem exists_cons (s : Spelling) : ∃ c cs, s.text = c :: cs ∧
    Lexeme.starts? c = some s.terminal ∧ ∀ x ∈ cs, Lexeme.continues s.terminal x := by
  obtain ⟨t, text, h⟩ := s
  cases h with
  | @identifier c cs hc hcs =>
    refine ⟨c, cs, rfl, ?_, fun x hx => ?_⟩
    · rw [Lexeme.starts?, if_pos (Lexeme.isLetter_iff.2 hc)]
    · have hx := hcs x hx
      rw [Char.isAlphanum, Bool.or_eq_true, or_right_comm, ← Lexeme.isLetter_iff,
        ← Lexeme.isDigit_eq] at hx
      rwa [Lexeme.continues, Bool.or_eq_true]
  | number hne hcs =>
    obtain ⟨c, cs, rfl⟩ := List.exists_cons_of_ne_nil hne
    simp only [← Lexeme.isDigit_eq] at hcs
    obtain ⟨hc, hcs⟩ := List.forall_mem_cons.1 hcs
    have hletter : ¬ Lexeme.isLetter c := by
      intro hletter
      rw [Lexeme.isDigit_of_isLetter hletter] at hc
      cases hc
    refine ⟨c, cs, rfl, ?_, hcs⟩
    rw [Lexeme.starts?, if_neg hletter, if_pos hc]
  | comment hcs => exact ⟨'\\', _, rfl, rfl, Lexeme.continues_comment hcs⟩
  | @mark _ c hc =>
    refine ⟨c, [], rfl, ?_, List.forall_mem_nil _⟩
    cases t <;> simp [Terminal.char?] at hc <;> subst hc <;> rfl

/-! ## Gaps -/

/-- Tokens written out, each with what stands between it and the next one. -/
def write (ps : List (Spelling × List Char)) : List Char :=
  ps.flatMap fun p => p.1.text ++ p.2

theorem write_cons (s : Spelling) (gap : List Char) (ps : List (Spelling × List Char)) :
    write ((s, gap) :: ps) = s.text ++ (gap ++ write ps) := by
  rw [write, List.flatMap_cons, List.append_assoc, write]

/-- Whether a token takes in the token that is written right after it. -/
def TakesIn (s t : Spelling) : Prop :=
  s.terminal = .comment ∨ s.terminal.joins t.terminal

/-- Whether blanks part a token from what is written after it. -/
def Parts (s : Spelling) (next : Option Spelling) : List Char → Prop
  | [] => ∀ t ∈ next, ¬ s.TakesIn t
  | c :: _ => s.terminal = .comment → c = '\n'

/-- Whether every gap parts its neighbours. -/
def Parted : List (Spelling × List Char) → Prop
  | [] => True
  | (s, gap) :: ps => s.Parts (ps.map Prod.fst).head? gap ∧ Parted ps

/-- A token ends where a gap parts it from the next one. -/
theorem parts_iff (s : Spelling) (ps : List (Spelling × List Char)) {gap : List Char}
    (hgap : ∀ c ∈ gap, Lexeme.isBlank c) :
    (∀ x ∈ (gap ++ write ps).head?, Lexeme.continues s.terminal x = false) ↔
      s.Parts (ps.map Prod.fst).head? gap := by
  rcases gap with _ | ⟨c, gap⟩
  · rcases ps with _ | ⟨⟨t, gap⟩, ps⟩
    · simp [write, Parts]
    · obtain ⟨c, cs, htext, hc, -⟩ := t.exists_cons
      have hhead : (write ((t, gap) :: ps)).head? = some c := by
        rw [write_cons, htext]
        rfl
      simp [hhead, Parts, TakesIn, ← Bool.not_eq_true, Lexeme.continues_iff_of_starts? hc]
  · have hc := hgap c List.mem_cons_self
    simp [Parts, ← Bool.not_eq_true, Lexeme.continues_iff_of_isBlank hc]

end Spelling

/-! ## Scans of what is written -/

namespace Scan

/-- Kinds and texts of what a scan comes upon. -/
def readings (s : Scan) : List (Lexeme.Kind × List Char) :=
  s.lexemes.map fun l => (l.kind, l.text)

/-- A scan stops at the end: nothing but blanks is left. -/
theorem isBlank_of_mem_trailing : ∀ {fuel : Nat} {read cs : List Char}, cs.length < fuel →
    (∀ c ∈ read, Lexeme.isBlank c) → ∀ c ∈ (after fuel read cs).trailing, Lexeme.isBlank c
  | 0, _, _, h, _ => by omega
  | fuel + 1, read, cs, h, hread => by
    rcases blank_or_first cs with hcs | ⟨blank, c, rest, rfl, hblank, hc⟩
    · rw [after_of_blank hcs]
      exact List.forall_mem_append.2 ⟨hread, hcs⟩
    · have hlt := length_drop_first_lt rest hc
      rw [List.length_append] at h
      rw [after_of_first rest hblank hc]
      exact isBlank_of_mem_trailing (by omega) (List.forall_mem_nil _)

theorem ofChars_eq_plain {source : List Char}
    (h : source.head? ≠ some Lexeme.byteOrderMark) : ofChars source = plain source := by
  rcases source with _ | ⟨c, cs⟩
  · rw [plain_of_blank (List.forall_mem_nil _), ofChars]
  · rw [ofChars, if_neg (by simpa using h)]
    rfl

/-- A token at the start of a text is read as it is if and only if it does not go on in the rest. -/
theorem readings_append_iff (s : Spelling) {lead rest : List Char}
    (hlead : ∀ c ∈ lead, Lexeme.isBlank c) (rs : List (Lexeme.Kind × List Char)) :
    (plain (lead ++ (s.text ++ rest))).readings = s.reading :: rs ↔
      (∀ x ∈ rest.head?, Lexeme.continues s.terminal x = false) ∧ (plain rest).readings = rs := by
  obtain ⟨c, cs, htext, hc, hcs⟩ := s.exists_cons
  have hplain := plain_of_first (cs ++ rest) hlead (Lexeme.isBlank_of_starts? hc)
  obtain ⟨hfirst, hdrop⟩ := first_of_starts? hc (cs ++ rest)
  rw [hdrop, hfirst, List.takeWhile_append_of_pos hcs, List.dropWhile_append_of_pos hcs] at hplain
  have hends : rest.takeWhile (Lexeme.continues s.terminal) = [] ↔
      ∀ x ∈ rest.head?, Lexeme.continues s.terminal x = false := by
    rcases rest with _ | ⟨x, rest⟩ <;> simp
  rw [readings, htext, List.cons_append, hplain, List.map_cons, List.cons.injEq, Spelling.reading,
    htext, Prod.mk.injEq, and_iff_right rfl, List.cons.injEq, and_iff_right rfl,
    List.append_right_eq_self, hends]
  exact and_congr_right fun h => by rw [Lexeme.dropWhile_of_head? h, readings]

end Scan

/-- Whether a scan comes upon tokens, and then upon the end. -/
def Scan.Gives (s : Scan) (rs : List (Lexeme.Kind × List Char)) : Prop :=
  s.readings = rs ∧ ∀ c ∈ s.trailing, Lexeme.isBlank c

namespace Spelling

variable {ps qs : List (Spelling × List Char)} {lead : List Char}

theorem readings_plain_iff (hps : ∀ p ∈ ps, ∀ c ∈ p.2, Lexeme.isBlank c)
    (hlead : ∀ c ∈ lead, Lexeme.isBlank c) :
    (Scan.plain (lead ++ write ps)).readings = ps.map (·.1.reading) ↔ Parted ps := by
  induction ps generalizing lead with
  | nil => simp [write, Scan.plain_of_blank hlead, Scan.readings, Parted]
  | cons p ps ih =>
    obtain ⟨s, gap⟩ := p
    obtain ⟨hgap, hps⟩ := List.forall_mem_cons.1 hps
    rw [write_cons, List.map_cons, Scan.readings_append_iff s hlead, parts_iff s ps hgap,
      ih hps hgap, Parted]

/-- No byte order mark is written. -/
theorem ofChars_write (hlead : ∀ c ∈ lead, Lexeme.isBlank c) (ps : List (Spelling × List Char)) :
    Scan.ofChars (lead ++ write ps) = Scan.plain (lead ++ write ps) := by
  refine Scan.ofChars_eq_plain fun hmark => ?_
  rcases lead with _ | ⟨c, lead⟩
  · rcases ps with _ | ⟨⟨s, gap⟩, ps⟩
    · cases hmark
    · obtain ⟨c, cs, htext, hc, -⟩ := s.exists_cons
      rw [List.nil_append, write_cons, htext] at hmark
      cases Option.some.inj hmark
      cases hc
  · have hc := hlead c List.mem_cons_self
    cases Option.some.inj hmark
    cases hc

/-- A scan of tokens with blanks in the gaps gives these tokens back if and only if every gap parts
its neighbours. -/
theorem readings_write_iff (hps : ∀ p ∈ ps, ∀ c ∈ p.2, Lexeme.isBlank c)
    (hlead : ∀ c ∈ lead, Lexeme.isBlank c) :
    (Scan.ofChars (lead ++ write ps)).readings = ps.map (·.1.reading) ↔ Parted ps := by
  rw [ofChars_write hlead, readings_plain_iff hps hlead]

theorem Parted.gives (h : Parted ps) (hps : ∀ p ∈ ps, ∀ c ∈ p.2, Lexeme.isBlank c)
    (hlead : ∀ c ∈ lead, Lexeme.isBlank c) :
    (Scan.ofChars (lead ++ write ps)).Gives (ps.map (·.1.reading)) := by
  refine ⟨(readings_write_iff hps hlead).2 h, ?_⟩
  rw [ofChars_write hlead]
  exact Scan.isBlank_of_mem_trailing (Nat.lt_succ_self _) (List.forall_mem_nil _)

/-! ## Separators -/

/-- What must be written after a token: a line feed ends a comment, and a blank parts tokens that
would grow together. -/
def separator (s : Spelling) (blank : Char) (next : Option Spelling) : List Char :=
  if s.terminal = .comment then ['\n']
  else if next.any fun t => s.terminal.joins t.terminal then [blank]
  else []

/-- Tokens with as little between them as there must be. Each comes with a blank for the case that
one is needed after it. -/
def separated : List (Spelling × Char) → List (Spelling × List Char)
  | [] => []
  | (s, blank) :: ts => (s, separator s blank (ts.map Prod.fst).head?) :: separated ts

/-- Whether the same tokens are written with other gaps. -/
def Regapped (R : Spelling → List Char → List Char → Prop) :
    List (Spelling × List Char) → List (Spelling × List Char) → Prop :=
  List.Forall₂ fun p q => q.1 = p.1 ∧ R p.1 p.2 q.2

/-- Whether a gap after a token has blanks put in. The line of a comment stays as it is. -/
def Widens (s : Spelling) (gap gap' : List Char) : Prop :=
  ∃ before after, gap' = before ++ (gap ++ after) ∧ (∀ c ∈ before ++ after, Lexeme.isBlank c) ∧
    (s.terminal = .comment → before = [])

/-- Whether a gap is left as it is or left out. -/
def Thins (_ : Spelling) (gap gap' : List Char) : Prop :=
  gap' = gap ∨ gap' = []

variable {s : Spelling} {next : Option Spelling} {blank : Char} {gap gap' : List Char}
  {ts : List (Spelling × Char)}

theorem isBlank_of_mem_separator (hblank : Lexeme.isBlank blank) :
    ∀ c ∈ separator s blank next, Lexeme.isBlank c := by
  rw [separator]
  split_ifs
  · simp [Lexeme.isBlank]
  · simpa using hblank
  · exact List.forall_mem_nil _

theorem isBlank_of_mem_separated (hts : ∀ t ∈ ts, Lexeme.isBlank t.2) :
    ∀ p ∈ separated ts, ∀ c ∈ p.2, Lexeme.isBlank c := by
  induction ts with
  | nil => exact List.forall_mem_nil _
  | cons t ts ih =>
    obtain ⟨ht, hts⟩ := List.forall_mem_cons.1 hts
    exact List.forall_mem_cons.2 ⟨isBlank_of_mem_separator ht, ih hts⟩

namespace Regapped

variable {R : Spelling → List Char → List Char → Prop}

theorem map_fst (h : Regapped R (separated ts) qs) : qs.map Prod.fst = ts.map Prod.fst := by
  induction ts generalizing qs with
  | nil =>
    cases h
    rfl
  | cons t ts ih =>
    obtain ⟨q, qs, hq, htail, rfl⟩ := List.forall₂_cons_left_iff.1 h
    rw [List.map_cons, List.map_cons, ih htail, hq.1]

theorem map_reading (h : Regapped R (separated ts) qs) :
    qs.map (·.1.reading) = ts.map (·.1.reading) := by
  have hmap := congrArg (List.map reading) h.map_fst
  rwa [List.map_map, List.map_map] at hmap

theorem isBlank_of_mem (h : Regapped R ps qs)
    (hR : ∀ s gap gap', R s gap gap' → (∀ c ∈ gap, Lexeme.isBlank c) →
      ∀ c ∈ gap', Lexeme.isBlank c)
    (hps : ∀ p ∈ ps, ∀ c ∈ p.2, Lexeme.isBlank c) : ∀ q ∈ qs, ∀ c ∈ q.2, Lexeme.isBlank c := by
  induction h with
  | nil => exact List.forall_mem_nil _
  | cons h _ ih =>
    obtain ⟨hp, hps⟩ := List.forall_mem_cons.1 hps
    exact List.forall_mem_cons.2 ⟨hR _ _ _ h.2 hp, ih hps⟩

end Regapped

theorem Widens.refl (s : Spelling) (gap : List Char) : Widens s gap gap :=
  ⟨[], [], by simp⟩

theorem Widens.isBlank (h : Widens s gap gap') (hgap : ∀ c ∈ gap, Lexeme.isBlank c) :
    ∀ c ∈ gap', Lexeme.isBlank c := by
  obtain ⟨before, after, rfl, hblank, -⟩ := h
  obtain ⟨hbefore, hafter⟩ := List.forall_mem_append.1 hblank
  exact List.forall_mem_append.2 ⟨hbefore, List.forall_mem_append.2 ⟨hgap, hafter⟩⟩

theorem Thins.isBlank (h : Thins s gap gap') (hgap : ∀ c ∈ gap, Lexeme.isBlank c) :
    ∀ c ∈ gap', Lexeme.isBlank c := by
  rcases h with rfl | rfl
  · exact hgap
  · exact List.forall_mem_nil _

/-- Nothing has to be written before a token that is not taken in. -/
theorem separator_some_eq_nil_iff {t : Spelling} :
    separator s blank (some t) = [] ↔ ¬ s.TakesIn t := by
  rw [separator, TakesIn]
  split_ifs <;> simp_all

/-- A separator parts what it stands between, also with more blanks around it. -/
theorem Widens.parts (h : Widens s (separator s blank next) gap) : s.Parts next gap := by
  obtain ⟨before, after, hgap, -, hcomment⟩ := h
  rcases gap with _ | ⟨c, gap⟩
  · rintro t rfl
    obtain ⟨-, hgap⟩ := List.append_eq_nil_iff.1 hgap.symm
    exact separator_some_eq_nil_iff.1 (List.append_eq_nil_iff.1 hgap).1
  · intro hs
    rw [hcomment hs, separator, if_pos hs] at hgap
    exact (List.cons.inj hgap).1

theorem parts_separator (s : Spelling) (blank : Char) (next : Option Spelling) :
    s.Parts next (separator s blank next) :=
  (Widens.refl s (separator s blank next)).parts

/-- Between two tokens no separator can be left out. -/
theorem Thins.parts_iff {t : Spelling} (h : Thins s (separator s blank (some t)) gap) :
    s.Parts (some t) gap ↔ gap = separator s blank (some t) := by
  rcases h with rfl | rfl
  · exact iff_of_true (parts_separator s blank (some t)) rfl
  · rw [eq_comm, separator_some_eq_nil_iff]
    simp [Parts]

theorem parted_of_widens (h : Regapped Widens (separated ts) qs) : Parted qs := by
  induction ts generalizing qs with
  | nil =>
    cases h
    trivial
  | cons t ts ih =>
    obtain ⟨s, blank⟩ := t
    obtain ⟨⟨u, gap⟩, qs, ⟨hs, hgap⟩, htail, rfl⟩ := List.forall₂_cons_left_iff.1 h
    obtain rfl : u = s := hs
    rw [← Regapped.map_fst htail] at hgap
    exact ⟨hgap.parts, ih htail⟩

theorem parted_iff_of_thins (h : Regapped Thins (separated ts) qs) :
    Parted qs ↔ qs.dropLast = (separated ts).dropLast := by
  induction ts generalizing qs with
  | nil =>
    cases h
    exact iff_of_true trivial rfl
  | cons t ts ih =>
    obtain ⟨s, blank⟩ := t
    obtain ⟨⟨u, gap⟩, qs, ⟨hs, hgap⟩, htail, rfl⟩ := List.forall₂_cons_left_iff.1 h
    obtain rfl : u = s := hs
    rw [Parted, ih htail]
    rcases ts with _ | ⟨t, ts⟩
    · -- What comes last needs no separator.
      cases htail
      refine iff_of_true ⟨?_, rfl⟩ rfl
      rcases hgap with rfl | rfl
      · exact parts_separator u blank none
      · nofun
    · have hnext : (qs.map Prod.fst).head? = some t.1 := by
        rw [Regapped.map_fst htail]
        rfl
      have hqs : qs ≠ [] := by
        rintro rfl
        cases hnext
      have hts : separated (t :: ts) ≠ [] := List.cons_ne_nil _ _
      have hstep : separated ((u, blank) :: t :: ts) =
          (u, separator u blank (some t.1)) :: separated (t :: ts) := rfl
      rw [hnext, hstep, List.dropLast_cons_of_ne_nil hqs, List.dropLast_cons_of_ne_nil hts,
        List.cons.injEq, Prod.mk.injEq, and_iff_right rfl, Thins.parts_iff hgap]

/-- Tokens that are written with as little between them as there must be are given back by a scan.
More blanks between them change nothing. If separators are left out, the same tokens are read if and
only if that is the one after the last token. -/
theorem scan_written (ts : List (Spelling × Char)) (hts : ∀ t ∈ ts, Lexeme.isBlank t.2) :
    (Scan.ofChars (write (separated ts))).Gives (ts.map (·.1.reading)) ∧
    (∀ lead qs, (∀ c ∈ lead, Lexeme.isBlank c) → Regapped Widens (separated ts) qs →
      (Scan.ofChars (lead ++ write qs)).Gives (ts.map (·.1.reading))) ∧
    ∀ qs, Regapped Thins (separated ts) qs →
      ((Scan.ofChars (write qs)).readings = ts.map (·.1.reading) ↔
        qs.dropLast = (separated ts).dropLast) := by
  have hblank := isBlank_of_mem_separated hts
  have hwide : ∀ lead qs, (∀ c ∈ lead, Lexeme.isBlank c) → Regapped Widens (separated ts) qs →
      (Scan.ofChars (lead ++ write qs)).Gives (ts.map (·.1.reading)) := by
    intro lead qs hlead h
    rw [← h.map_reading]
    exact (parted_of_widens h).gives (h.isBlank_of_mem (fun _ _ _ => Widens.isBlank) hblank) hlead
  -- To put in nothing is a case of putting in blanks.
  have hself : Regapped Widens (separated ts) (separated ts) :=
    List.forall₂_same.2 fun p _ => ⟨rfl, .refl p.1 p.2⟩
  refine ⟨hwide [] _ (List.forall_mem_nil _) hself, hwide, fun qs h => ?_⟩
  have hqs := h.isBlank_of_mem (fun _ _ _ => Thins.isBlank) hblank
  rw [← h.map_reading, ← parted_iff_of_thins h, ← readings_write_iff hqs (List.forall_mem_nil _),
    List.nil_append]

theorem scan_written_with_comment :
    (Scan.ofChars "x 1\\é*\ny".toList).Gives
      [(.token .identifier, ['x']), (.token .number, ['1']),
        (.token .comment, ['\\', 'é', '*']), (.token .identifier, ['y'])] ∧
    (Scan.ofChars " x\t 1\\é*\n\ny\r".toList).Gives
      (Scan.ofChars "x 1\\é*\ny".toList).readings ∧
    (Scan.ofChars "x 1\\é*y".toList).readings ≠
      (Scan.ofChars "x 1\\é*\ny".toList).readings := by
  have hx : Terminal.Spelt .identifier ['x'] := .identifier (.inl rfl) (by simp)
  have hone : Terminal.Spelt .number ['1'] := .number (by simp) (by simp [Char.isDigit])
  have hcomment : Terminal.Spelt .comment ['\\', 'é', '*'] := .comment (by simp)
  have hy : Terminal.Spelt .identifier ['y'] := .identifier (.inl rfl) (by simp)
  obtain ⟨h, hwide, hthin⟩ := scan_written
    [(⟨_, _, hx⟩, ' '), (⟨_, _, hone⟩, ' '), (⟨_, _, hcomment⟩, ' '), (⟨_, _, hy⟩, ' ')]
    (by simp [Lexeme.isBlank])
  have hreadings : (Scan.ofChars "x 1\\é*\ny".toList).readings = _ := h.1
  rw [hreadings]
  refine ⟨h, ?_, fun heq => ?_⟩
  · exact hwide [' '] [(⟨_, _, hx⟩, ['\t', ' ']), (⟨_, _, hone⟩, []),
      (⟨_, _, hcomment⟩, ['\n', '\n']), (⟨_, _, hy⟩, ['\r'])] (by simp [Lexeme.isBlank])
      (.cons ⟨rfl, ['\t'], [], rfl, by simp [Lexeme.isBlank], by simp⟩ (.cons ⟨rfl, .refl _ _⟩
        (.cons ⟨rfl, [], ['\n'], rfl, by simp [Lexeme.isBlank], fun _ => rfl⟩
          (.cons ⟨rfl, [], ['\r'], rfl, by simp [Lexeme.isBlank], by simp⟩ .nil))))
  · have hlast := (hthin [(⟨_, _, hx⟩, [' ']), (⟨_, _, hone⟩, []), (⟨_, _, hcomment⟩, []),
      (⟨_, _, hy⟩, [])] (.cons ⟨rfl, .inl rfl⟩ (.cons ⟨rfl, .inl rfl⟩ (.cons ⟨rfl, .inr rfl⟩
        (.cons ⟨rfl, .inl rfl⟩ .nil))))).1 heq
    have hgaps : [[' '], [], []] = [[' '], [], ['\n']] := congrArg (List.map Prod.snd) hlast
    exact absurd hgaps (by decide)

end Spelling

end CalcTree
