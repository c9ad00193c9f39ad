import CalcTree.Proofs.Offence

/-!
# Blanks and comments

What a source says to the grammar are its words: its tokens without comments, and a word of its own
for each run of unknown characters. Sources of the same words are parsed alike, and if they are
sound show the same but for comments and places.

A text that is scanned from the middle of a source gives the same words as in its place
(`Lexeme.Reads`), and blanks and comments that are put in between two tokens give none
(`Scan.Parted.words_eq`). So they change nothing in what is shown
(`Document.spacing_insignificant`).
-/

namespace CalcTree

namespace Lexeme

variable {c : Char} {t : Terminal}

theorem eq_of_isBlank (h : isBlank c) :
    c = ' ' ∨ c = '\t' ∨ c = '\n' ∨ c = '\x0b' ∨ c = '\x0c' ∨ c = '\r' := by
  simp only [isBlank, Bool.or_eq_true, Bool.and_eq_true, beq_iff_eq, decide_eq_true_eq,
    Char.le_def, UInt32.le_iff_toNat_le] at h
  have hlow : '\t'.val.toNat = 9 := rfl
  have hhigh : '\r'.val.toNat = 13 := rfl
  have hc : c.toNat = c.val.toNat := rfl
  rcases h with rfl | h
  · simp
  · simp only [← Char.toNat_inj, Char.reduceToNat]
    omega

theorem starts?_of_isBlank (h : isBlank c) : starts? c = none := by
  rcases eq_of_isBlank h with rfl | rfl | rfl | rfl | rfl | rfl <;> decide

theorem isBlank_of_starts? (h : starts? c = some t) : isBlank c = false := by
  by_contra hb
  rw [starts?_of_isBlank (by simpa using hb)] at h
  cases h

theorem continues_line_feed (t : Terminal) : continues t '\n' = false := by
  cases t <;> decide

theorem words_congr {ls ms : List Lexeme} (h : ls.map Lexeme.kind = ms.map Lexeme.kind) :
    words ls = words ms := by
  -- What a lexeme says follows from its kind.
  have hwords : ∀ ls : List Lexeme,
      words ls = (ls.map Lexeme.kind).filterMap fun k => word? ⟨k, [], []⟩ := by
    intro ls
    rw [List.filterMap_map]
    rfl
  rw [hwords, hwords, h]

/-- The words of a token: none for a comment. -/
def wordOf (t : Terminal) : List (Option Terminal) :=
  if t.isExtra then [] else [some t]

theorem words_cons_token (t : Terminal) (blank text : List Char) (ls : List Lexeme) :
    words (⟨.token t, blank, text⟩ :: ls) = wordOf t ++ words ls := by
  rcases h : t.isExtra <;> simp [words, word?, wordOf, h]

end Lexeme

namespace Scan

variable {c : Char} {cs read : List Char} {fuel : Nat} {t : Terminal}

/-- What is left after the first lexeme is shorter. -/
theorem length_drop_first_lt (rest : List Char) (hc : Lexeme.isBlank c = false) :
    ((c :: rest).drop (Lexeme.first c rest).2.length).length < (c :: rest).length := by
  have htext : 0 < (Lexeme.first c rest).2.length :=
    List.length_pos_iff.2 (Lexeme.first_ne_nil hc)
  rw [List.length_drop, List.length_cons]
  omega

/-- More fuel than characters makes no difference. -/
theorem after_congr : ∀ {fuel fuel' : Nat} {read cs : List Char}, cs.length < fuel →
    cs.length < fuel' → after fuel read cs = after fuel' read cs
  | 0, _, _, _, h, _ => by omega
  | _ + 1, 0, _, _, _, h => by omega
  | fuel + 1, fuel' + 1, read, cs, h, h' => by
    rcases blank_or_first cs with hcs | ⟨blank, c, rest, rfl, hblank, hc⟩
    · rw [after_of_blank hcs, after_of_blank hcs]
    · have hlt := length_drop_first_lt rest hc
      rw [List.length_append] at h h'
      rw [after_of_first rest hblank hc, after_of_first rest hblank hc,
        @after_congr fuel fuel' _ _ (by omega) (by omega)]

/-- The scan of a text that comes after other text, where a byte order mark is nothing special. -/
def plain (cs : List Char) : Scan :=
  after (cs.length + 1) [] cs

theorem plain_of_blank (hcs : ∀ c ∈ cs, Lexeme.isBlank c) : plain cs = ⟨[], cs⟩ :=
  after_of_blank hcs

theorem plain_of_first {blank : List Char} (rest : List Char)
    (hblank : ∀ c ∈ blank, Lexeme.isBlank c) (hc : Lexeme.isBlank c = false) :
    (plain (blank ++ c :: rest)).lexemes =
      ⟨(Lexeme.first c rest).1, blank, (Lexeme.first c rest).2⟩ ::
        (plain ((c :: rest).drop (Lexeme.first c rest).2.length)).lexemes := by
  have hlt := length_drop_first_lt rest hc
  rw [plain, after_of_first rest hblank hc, List.nil_append, plain,
    @after_congr _ (blank ++ c :: rest).length _ _ (Nat.lt_succ_self _)
      (by rw [List.length_append]; omega)]

/-- The words of a text that comes after other text. -/
def wordsOf (cs : List Char) : List (Option Terminal) :=
  Lexeme.words (plain cs).lexemes

/-- Blanks in front of a text make no lexemes. -/
theorem map_kind_blank_append {blank : List Char} (hblank : ∀ c ∈ blank, Lexeme.isBlank c)
    (cs : List Char) : (plain (blank ++ cs)).lexemes.map Lexeme.kind =
      (plain cs).lexemes.map Lexeme.kind := by
  rcases blank_or_first cs with hcs | ⟨blank', c, rest, rfl, hblank', hc⟩
  · rw [plain_of_blank hcs, plain_of_blank (by simpa [or_imp, forall_and] using ⟨hblank, hcs⟩)]
  · have hall : ∀ c ∈ blank ++ blank', Lexeme.isBlank c := by
      simpa [or_imp, forall_and] using ⟨hblank, hblank'⟩
    rw [← List.append_assoc, plain_of_first rest hall hc, plain_of_first rest hblank' hc]
    rfl

theorem wordsOf_blank_append {blank : List Char} (hblank : ∀ c ∈ blank, Lexeme.isBlank c)
    (cs : List Char) : wordsOf (blank ++ cs) = wordsOf cs :=
  Lexeme.words_congr (map_kind_blank_append hblank cs)

theorem wordsOf_blank_cons (hc : Lexeme.isBlank c) (cs : List Char) :
    wordsOf (c :: cs) = wordsOf cs := by
  rw [← List.singleton_append, wordsOf_blank_append (by simpa using hc)]

/-- The first character of a token brings all with it that continues the token. -/
theorem first_of_starts? (hc : Lexeme.starts? c = some t) (cs : List Char) :
    Lexeme.first c cs = (.token t, c :: cs.takeWhile (Lexeme.continues t)) ∧
      (c :: cs).drop (Lexeme.first c cs).2.length = cs.dropWhile (Lexeme.continues t) := by
  have hfirst : Lexeme.first c cs = (.token t, c :: cs.takeWhile (Lexeme.continues t)) := by
    simp only [Lexeme.first, hc]
  refine ⟨hfirst, ?_⟩
  rw [hfirst, List.length_cons, List.drop_succ_cons]
  nth_rewrite 2 [← List.takeWhile_append_dropWhile (p := Lexeme.continues t) (l := cs)]
  rw [List.drop_left]

theorem wordsOf_token {text : List Char} (hc : Lexeme.starts? c = some t)
    (htext : ∀ x ∈ text, Lexeme.continues t x) (rest : List Char) :
    wordsOf (c :: (text ++ rest)) =
      Lexeme.wordOf t ++ wordsOf (rest.dropWhile (Lexeme.continues t)) := by
  have hplain := plain_of_first (text ++ rest) (List.forall_mem_nil _)
    (Lexeme.isBlank_of_starts? hc)
  obtain ⟨hfirst, hdrop⟩ := first_of_starts? hc (text ++ rest)
  rw [hdrop, hfirst, List.dropWhile_append_of_pos htext] at hplain
  rw [wordsOf, ← List.nil_append (c :: _), hplain, Lexeme.words_cons_token, wordsOf]

end Scan

/-! ## Lexemes in their places -/

namespace Lexeme

variable {t : Terminal} {l : Lexeme} {ls : List Lexeme} {gap front back rest tail : List Char}

/-- Whether a lexeme is what a scan comes upon first in a text that starts with it. -/
def Stands (l : Lexeme) (rest : List Char) : Prop :=
  (∀ c ∈ l.blank, isBlank c) ∧ ∃ c text, l.text = c :: text ∧ isBlank c = false ∧
    first c (text ++ rest) = (l.kind, l.text)

/-- Whether lexemes are what a scan comes upon first in a text that starts with them and goes on
with `tail`. -/
inductive Reads : List Lexeme → List Char → Prop
  | nil (tail : List Char) : Reads [] tail
  | cons {l : Lexeme} {ls : List Lexeme} {tail : List Char} (hl : l.Stands (spell ls ++ tail))
      (h : Reads ls tail) : Reads (l :: ls) tail

theorem spell_cons_append (l : Lexeme) (ls : List Lexeme) (tail : List Char) :
    spell (l :: ls) ++ tail = l.blank ++ (l.text ++ (spell ls ++ tail)) := by
  simp [spell]

theorem Stands.plain_eq (h : l.Stands rest) :
    (Scan.plain (l.blank ++ (l.text ++ rest))).lexemes = l :: (Scan.plain rest).lexemes := by
  obtain ⟨hblank, c, text, htext, hc, hfirst⟩ := h
  have hdrop : (c :: (text ++ rest)).drop l.text.length = rest := by
    rw [htext, ← List.cons_append, List.drop_left]
  have hplain := Scan.plain_of_first (text ++ rest) hblank hc
  rw [hfirst, hdrop] at hplain
  rw [htext]
  exact hplain

theorem Stands.wordsOf_eq (h : l.Stands rest) :
    Scan.wordsOf (l.blank ++ (l.text ++ rest)) = words [l] ++ Scan.wordsOf rest := by
  rw [Scan.wordsOf, h.plain_eq, ← List.singleton_append, words, List.filterMap_append]
  rfl

theorem exists_stands {cs : List Char} (h : (Scan.plain cs).lexemes = l :: ls) :
    ∃ rest, cs = l.blank ++ (l.text ++ rest) ∧ l.Stands rest ∧ (Scan.plain rest).lexemes = ls := by
  rcases Scan.blank_or_first cs with hcs | ⟨blank, c, later, rfl, hblank, hc⟩
  · rw [Scan.plain_of_blank hcs] at h
    cases h
  rw [Scan.plain_of_first later hblank hc, List.cons.injEq] at h
  obtain ⟨rfl, hls⟩ := h
  obtain ⟨rest, hrest⟩ := first_prefix c later
  rw [← hrest, List.drop_left] at hls
  have hne : (first c later).2 ≠ [] := first_ne_nil hc
  obtain ⟨x, text, htext⟩ := List.exists_cons_of_ne_nil hne
  rw [htext, List.cons_append, List.cons.injEq] at hrest
  obtain ⟨rfl, rfl⟩ := hrest
  exact ⟨rest, by rw [htext]; rfl, ⟨hblank, x, text, htext, hc, rfl⟩, hls⟩

/-- The first lexemes of a scan stand where they are. -/
theorem Reads.of_plain {ms : List Lexeme} {cs : List Char}
    (h : (Scan.plain cs).lexemes = ls ++ ms) :
    ∃ tail, cs = spell ls ++ tail ∧ Reads ls tail ∧ (Scan.plain tail).lexemes = ms := by
  induction ls generalizing cs with
  | nil => exact ⟨cs, rfl, .nil cs, h⟩
  | cons l ls ih =>
    obtain ⟨rest, rfl, hl, hrest⟩ := exists_stands h
    obtain ⟨tail, rfl, hreads, htail⟩ := ih hrest
    exact ⟨tail, (spell_cons_append l ls tail).symm, .cons hl hreads, htail⟩

theorem Reads.plain_eq (h : Reads ls tail) :
    (Scan.plain (spell ls ++ tail)).lexemes = ls ++ (Scan.plain tail).lexemes := by
  induction h with
  | nil => rfl
  | cons hl h ih => rw [spell_cons_append, hl.plain_eq, ih, List.cons_append]

/-! ## Blanks and comments in between -/

/-- Text that says nothing: blanks, and comments with the ends of their lines. -/
inductive Gap : List Char → Prop
  | nil : Gap []
  | blank {c : Char} {gap : List Char} (hc : isBlank c) (h : Gap gap) : Gap (c :: gap)
  | comment {text gap : List Char} (htext : ∀ c ∈ text, c ≠ '\n' ∧ c ≠ '\x00') (h : Gap gap) :
      Gap ('\\' :: (text ++ '\n' :: gap))

theorem continues_comment {text : List Char} (h : ∀ c ∈ text, c ≠ '\n' ∧ c ≠ '\x00') :
    ∀ c ∈ text, continues .comment c := by
  intro c hc
  simpa [continues] using h c hc

theorem dropWhile_of_head? {cs : List Char} (h : ∀ x ∈ cs.head?, continues t x = false) :
    cs.dropWhile (continues t) = cs := by
  rcases cs with _ | ⟨x, cs⟩
  · rfl
  · rw [List.dropWhile_cons, if_neg (by simp [h x rfl])]

theorem Gap.wordsOf_append (h : Gap gap) (cs : List Char) :
    Scan.wordsOf (gap ++ cs) = Scan.wordsOf cs := by
  induction h with
  | nil => rfl
  | blank hc _ ih => rw [List.cons_append, Scan.wordsOf_blank_cons hc, ih]
  | @comment text gap htext _ ih =>
    have hend : ('\n' :: (gap ++ cs)).dropWhile (continues .comment) = '\n' :: (gap ++ cs) := rfl
    rw [List.cons_append, List.append_assoc, List.cons_append,
      Scan.wordsOf_token (t := .comment) rfl (continues_comment htext), hend,
      Scan.wordsOf_blank_cons rfl, ih]
    rfl

/-- A comment that is not over yet takes in some of the text that says nothing. -/
theorem Gap.wordsOf_dropWhile (h : Gap gap) {cs : List Char}
    (hend : ∀ x ∈ cs.head?, continues t x = false) :
    Scan.wordsOf ((gap ++ cs).dropWhile (continues t)) = Scan.wordsOf cs := by
  have hall := h.wordsOf_append cs
  induction h with
  | nil => rw [List.nil_append, dropWhile_of_head? hend]
  | @blank c gap hc h ih =>
    rw [List.cons_append, List.dropWhile_cons]
    split_ifs
    · exact ih (h.wordsOf_append cs)
    · exact hall
  | @comment text gap htext h ih =>
    by_cases ht : t = .comment
    · have htake : ∀ x ∈ '\\' :: text, continues t x := by
        rw [ht]
        exact List.forall_mem_cons.2 ⟨rfl, continues_comment htext⟩
      have hline : ∀ x ∈ ('\n' :: (gap ++ cs)).head?, continues t x = false := by
        simpa using continues_line_feed t
      rw [← List.cons_append, List.append_assoc, List.dropWhile_append_of_pos htake,
        List.cons_append, dropWhile_of_head? hline, Scan.wordsOf_blank_cons rfl, h.wordsOf_append]
    · have hstop : continues t '\\' = false := by
        revert ht
        cases t <;> decide
      rw [dropWhile_of_head? (by simpa using hstop), hall]

/-! A run of unknown characters stands where no unknown character comes after it and the blanks
behind it. -/

/-- Whether what comes first in a text, blanks apart, is no unknown character. -/
def Halts (cs : List Char) : Prop :=
  ∀ c ∈ cs.takeWhile (fun c => isBlank c || isUnknown c), isBlank c

theorem unknownRun_append_iff {xs : List Char} (hxs : ∀ x ∈ xs, isBlank x || isUnknown x) :
    unknownRun (xs ++ rest) = xs ↔
      xs.reverse.dropWhile isBlank = xs.reverse ∧ Halts rest := by
  have hempty : (rest.takeWhile fun c => isBlank c || isUnknown c).reverse.dropWhile isBlank = [] ↔
      Halts rest := by
    simp only [List.dropWhile_eq_nil_iff, List.mem_reverse, Halts]
  rw [unknownRun, List.takeWhile_append_of_pos hxs, List.reverse_append, List.reverse_eq_iff,
    List.dropWhile_append]
  split_ifs with h <;> rw [List.isEmpty_iff, hempty] at h
  · exact (and_iff_left h).symm
  · refine iff_of_false (fun heq => h ?_) fun hhalts => h hhalts.2
    exact hempty.1 (List.append_left_eq_self.1 heq)

theorem isUnknown_of_mem_unknownRun {cs : List Char} {x : Char} (h : x ∈ unknownRun cs) :
    isBlank x || isUnknown x := by
  rw [unknownRun, List.mem_reverse] at h
  have hmem := List.mem_reverse.1 ((List.dropWhile_sublist _).subset h)
  exact List.all_eq_true.1 List.all_takeWhile x hmem

theorem halts_append_iff : Halts (front ++ back) ↔
    Halts front ∧ ((∀ c ∈ front, isBlank c || isUnknown c) → Halts back) := by
  rw [Halts, Halts, List.takeWhile_append]
  split_ifs with h
  · have hfront := (List.takeWhile_prefix _).eq_of_length h
    have hall := List.takeWhile_eq_self_iff.1 hfront
    simp only [hfront, List.mem_append, or_imp, forall_and]
    exact and_congr_right fun _ => ⟨fun hback _ => hback, fun hback => hback hall⟩
  · refine (and_iff_left fun hall => absurd ?_ h).symm
    rw [List.takeWhile_eq_self_iff.2 hall]

theorem Gap.halts (h : Gap gap) (hback : Halts back) : Halts (gap ++ back) := by
  induction h with
  | nil => exact hback
  | @blank c gap hc h ih =>
    rw [← List.singleton_append, List.append_assoc, halts_append_iff]
    exact ⟨by simp [Halts, hc], fun _ => ih⟩
  | @comment text gap htext h ih =>
    have hstop : (isBlank '\\' || isUnknown '\\') = false := by decide
    simp [Halts, hstop]

theorem takeWhile_append_eq {p : Char → Bool} {xs : List Char}
    (h : (xs ++ rest).takeWhile p = xs) :
    (∀ x ∈ xs, p x) ∧ ∀ x ∈ rest.head?, p x = false := by
  have hxs : ∀ x ∈ xs, p x := by
    rw [← h]
    exact List.all_eq_true.1 List.all_takeWhile
  refine ⟨hxs, ?_⟩
  rw [List.takeWhile_append_of_pos hxs, List.append_right_eq_self] at h
  rcases rest with _ | ⟨x, rest⟩
  · simp
  · simpa [List.takeWhile_cons] using h

/-- What says nothing changes no words after a lexeme. -/
theorem Stands.wordsOf_insert (h : l.Stands (front ++ back)) (hgap : Gap gap)
    (heq : Scan.wordsOf (front ++ (gap ++ back)) = Scan.wordsOf (front ++ back)) :
    Scan.wordsOf (l.blank ++ (l.text ++ (front ++ (gap ++ back)))) =
      Scan.wordsOf (l.blank ++ (l.text ++ (front ++ back))) := by
  have hwords := h.wordsOf_eq
  obtain ⟨hblank, c, text, htext, hc, hfirst⟩ := h
  rcases hstart : starts? c with _ | t <;> simp only [first, hstart, htext, Prod.mk.injEq] at hfirst
  · have hall : ∀ x ∈ c :: text, isBlank x || isUnknown x := by
      rw [← hfirst.2]
      exact fun x hx => isUnknown_of_mem_unknownRun hx
    obtain ⟨hlast, hhalts⟩ := (unknownRun_append_iff hall).1 hfirst.2
    have hhalts' : Halts (front ++ (gap ++ back)) := by
      rw [halts_append_iff] at hhalts ⊢
      exact ⟨hhalts.1, fun hfront => hgap.halts (hhalts.2 hfront)⟩
    have hrun := (unknownRun_append_iff hall).2 ⟨hlast, hhalts'⟩
    have hstands : l.Stands (front ++ (gap ++ back)) := by
      refine ⟨hblank, c, text, htext, hc, ?_⟩
      simp only [first, hstart, htext, Prod.mk.injEq]
      exact ⟨hfirst.1, hrun⟩
    rw [hstands.wordsOf_eq, hwords, heq]
  · obtain ⟨hall, hend⟩ := takeWhile_append_eq (List.cons.inj hfirst.2).2
    rw [Scan.wordsOf_blank_append hblank, Scan.wordsOf_blank_append hblank, htext,
      List.cons_append, List.cons_append, Scan.wordsOf_token hstart hall,
      Scan.wordsOf_token hstart hall, dropWhile_of_head? hend]
    congr 1
    rcases front with _ | ⟨x, front⟩
    · exact hgap.wordsOf_dropWhile hend
    · -- The token ends before anything is put in.
      rw [dropWhile_of_head? (by exact hend), heq]

/-- What says nothing changes no words between two lexemes. -/
theorem Reads.wordsOf_insert {blank : List Char} (h : Reads ls (blank ++ back))
    (hblank : ∀ c ∈ blank, isBlank c) (hgap : Gap gap) :
    Scan.wordsOf (spell ls ++ (blank ++ (gap ++ back))) =
      Scan.wordsOf (spell ls ++ (blank ++ back)) := by
  generalize htail : blank ++ back = tail at h
  induction h with
  | nil =>
    simp only [spell, List.flatMap_nil, List.nil_append, ← htail]
    rw [Scan.wordsOf_blank_append hblank, Scan.wordsOf_blank_append hblank, hgap.wordsOf_append]
  | @cons l ls tail hl h ih =>
    subst htail
    rw [← List.append_assoc (spell ls)] at hl
    rw [spell_cons_append, spell_cons_append, ← List.append_assoc (spell ls),
      ← List.append_assoc (spell ls)]
    refine hl.wordsOf_insert hgap ?_
    rw [List.append_assoc, List.append_assoc]
    exact ih rfl

end Lexeme

/-! ## Places between tokens -/

namespace Scan

variable {front back : List Char}

/-- The byte order mark that a text starts with. -/
def mark : List Char → List Char
  | [] => []
  | c :: _ => if c = Lexeme.byteOrderMark then [c] else []

/-- A text without a byte order mark at its start. -/
def unmarked : List Char → List Char
  | [] => []
  | c :: cs => if c = Lexeme.byteOrderMark then cs else c :: cs

theorem mark_append_unmarked (source : List Char) : mark source ++ unmarked source = source := by
  rcases source with _ | ⟨c, cs⟩
  · rfl
  · rw [mark, unmarked]
    split_ifs <;> rfl

theorem mark_append (h : front ≠ []) (cs : List Char) : mark (front ++ cs) = mark front := by
  rcases front with _ | ⟨c, front⟩
  · exact absurd rfl h
  · rfl

theorem unmarked_append (h : front ≠ []) (cs : List Char) :
    unmarked (front ++ cs) = unmarked front ++ cs := by
  rcases front with _ | ⟨c, front⟩
  · exact absurd rfl h
  · simp only [List.cons_append, unmarked]
    split_ifs <;> rfl

theorem lexemes_after {fuel : Nat} {read cs : List Char} (h : cs.length < fuel) :
    (after fuel read cs).lexemes =
      (plain cs).lexemes.modifyHead fun l => { l with blank := read ++ l.blank } := by
  rcases blank_or_first cs with hcs | ⟨blank, c, rest, rfl, hblank, hc⟩
  · rw [plain_of_blank hcs, after_of_blank hcs]
    rfl
  · obtain ⟨fuel, rfl⟩ := Nat.exists_eq_succ_of_ne_zero (Nat.ne_zero_of_lt h)
    have hlt := length_drop_first_lt rest hc
    rw [List.length_append] at h
    rw [plain_of_first rest hblank hc, after_of_first rest hblank hc, plain,
      @after_congr fuel _ _ _ (by omega) (Nat.lt_succ_self _)]
    rfl

/-- A byte order mark is one more blank in front of the first lexeme. -/
theorem lexemes_ofChars (source : List Char) : (ofChars source).lexemes =
    (plain (unmarked source)).lexemes.modifyHead
      fun l => { l with blank := mark source ++ l.blank } := by
  rcases source with _ | ⟨c, cs⟩
  · rw [unmarked, plain_of_blank (List.forall_mem_nil _)]
    rfl
  · rw [ofChars, unmarked, mark]
    split_ifs
    · exact lexemes_after (Nat.lt_succ_self _)
    · exact lexemes_after (Nat.lt_succ_self _)

theorem map_kind_ofChars (source : List Char) : (ofChars source).lexemes.map Lexeme.kind =
    (plain (unmarked source)).lexemes.map Lexeme.kind := by
  rw [lexemes_ofChars]
  rcases (plain (unmarked source)).lexemes with _ | ⟨l, ls⟩ <;> rfl

theorem words_ofChars (source : List Char) :
    Lexeme.words (ofChars source).lexemes = wordsOf (unmarked source) :=
  Lexeme.words_congr (map_kind_ofChars source)

/-- Whether a source can be cut in two between two of its tokens, or within the blanks between
them. -/
def Parted (front back : List Char) : Prop :=
  ∃ before l after blank blank', before ≠ [] ∧
    (ofChars (front ++ back)).lexemes = before ++ l :: after ∧ l.blank = blank ++ blank' ∧
    front = Lexeme.spell before ++ blank

theorem Parted.exists_reads (h : Parted front back) :
    ∃ ls blank, Lexeme.Reads ls (blank ++ back) ∧ (∀ c ∈ blank, Lexeme.isBlank c) ∧
      ∀ cs, unmarked (front ++ cs) = Lexeme.spell ls ++ (blank ++ cs) := by
  obtain ⟨before, l, after, blank, blank', hne, hlex, hl, hfront⟩ := h
  rw [lexemes_ofChars] at hlex
  obtain ⟨m, before, rfl⟩ := List.exists_cons_of_ne_nil hne
  rcases hplain : (plain (unmarked (front ++ back))).lexemes with _ | ⟨m', ls⟩ <;>
    rw [hplain] at hlex
  · cases hlex
  obtain ⟨rfl, rfl⟩ := List.cons.inj hlex
  obtain ⟨tail, hcs, hreads, htail⟩ :=
    Lexeme.Reads.of_plain (show _ = (m' :: before) ++ l :: after from hplain)
  have hne' : front ≠ [] := by
    rintro rfl
    cases hreads with
    | cons hl =>
      obtain ⟨-, c, text, htext, -⟩ := hl
      simp [Lexeme.spell, htext] at hfront
  have hunmarked : unmarked front = Lexeme.spell (m' :: before) ++ blank := by
    rw [← List.append_right_inj (mark front), mark_append_unmarked]
    rw [mark_append hne'] at hfront
    simpa [Lexeme.spell] using hfront
  rw [unmarked_append hne', hunmarked, List.append_assoc, List.append_right_inj] at hcs
  refine ⟨m' :: before, blank, hcs ▸ hreads, fun c hc => ?_, fun cs => ?_⟩
  · obtain ⟨rest, -, hstands, -⟩ := Lexeme.exists_stands htail
    exact hstands.1 c (hl ▸ List.mem_append_left _ hc)
  · rw [unmarked_append hne', hunmarked, List.append_assoc]

/-- What says nothing changes no words where a source is cut in two. -/
theorem Parted.words_eq (h : Parted front back) {gap : List Char} (hgap : Lexeme.Gap gap) :
    Lexeme.words (ofChars (front ++ (gap ++ back))).lexemes =
      Lexeme.words (ofChars (front ++ back)).lexemes := by
  obtain ⟨ls, blank, hreads, hblank, hunmarked⟩ := h.exists_reads
  rw [words_ofChars, words_ofChars, hunmarked, hunmarked, hreads.wordsOf_insert hblank hgap]

end Scan

/-! ## Sources of the same words -/

theorem spells_iff_words {source : String} {w : List Terminal} :
    Spells source w ↔ Lexeme.words (Scan.ofChars source.toList).lexemes = w.map some := by
  constructor
  · rintro ⟨hknown, rfl⟩
    exact Lexeme.words_eq hknown
  · exact Lexeme.known_of_words_eq

namespace Document

variable {source source' : String} {d d' : Document}

theorem grammatical_congr
    (h : Lexeme.words (Scan.ofChars source.toList).lexemes =
      Lexeme.words (Scan.ofChars source'.toList).lexemes) :
    Grammatical source ↔ Grammatical source' := by
  simp only [Grammatical, spells_iff_words, h]

/-- Whether a document is damaged can be told from its source. -/
theorem isDamaged_eq_false_iff (h : (parse source).value = .ok d) :
    d.root.isDamaged = false ↔ Grammatical source := by
  constructor
  · exact grammatical_of_parse h
  · intro hg
    obtain ⟨e, he, hsound⟩ := exists_sound_iff.2 hg
    obtain rfl := Except.ok.inj (h.symm.trans he)
    exact hsound

/-- A sound document shows the program that its source is written in. -/
theorem shape_eq_of_parse (h : (parse source).value = .ok d) {P : Program} (hP : P.WellFormed)
    (hs : Spells source P.tokens) : d.root.shape = P.shape := by
  obtain ⟨e, he, -, hshape⟩ := parse_of_wellFormed hP hs
  obtain rfl := Except.ok.inj (h.symm.trans he)
  exact hshape

theorem shape_congr (h : (parse source).value = .ok d) (h' : (parse source').value = .ok d')
    (hwords : Lexeme.words (Scan.ofChars source.toList).lexemes =
      Lexeme.words (Scan.ofChars source'.toList).lexemes) (hd : d.root.isDamaged = false) :
    d.root.shape = d'.root.shape := by
  obtain ⟨P, hP, hs⟩ := grammatical_iff.1 ((isDamaged_eq_false_iff h).1 hd)
  have hs' : Spells source' P.tokens := by
    rw [spells_iff_words, ← hwords, ← spells_iff_words]
    exact hs
  rw [shape_eq_of_parse h hP hs, shape_eq_of_parse h' hP hs']

/-- A source that is seen to pass the check. -/
theorem exists_checked (fuel : Nat) (source : String) (p : Document → Prop) [DecidablePred p]
    (h : (ofSourceWithin? fuel source).any fun d => d.root.isDamaged = false ∧ p d) :
    ∃ d, (check source).value = .ok d ∧ p d := by
  obtain ⟨d, hparse, hd, hp⟩ := exists_of_within fuel source _ h
  exact ⟨d, check_eq_ok_iff.2 ⟨hparse, hd⟩, hp⟩

/-- Sources of the same words are damaged alike, and if they are not damaged they show the same but
for comments and places. So it is if between two tokens blanks and comments are put in, taken out or
changed, as long as the tokens do not grow together without them. -/
theorem spacing_insignificant :
    (∀ source source' d d', (parse source).value = .ok d → (parse source').value = .ok d' →
      Lexeme.words (Scan.ofChars source.toList).lexemes =
        Lexeme.words (Scan.ofChars source'.toList).lexemes →
      d.root.isDamaged = d'.root.isDamaged ∧
        (d.root.isDamaged = false → d.root.shape = d'.root.shape)) ∧
    ∀ front gap gap' back : String, Scan.Parted front.toList back.toList →
      Lexeme.Gap gap.toList → Lexeme.Gap gap'.toList →
      ∀ d, (check (front ++ gap ++ back)).value = .ok d →
        ∃ d', (check (front ++ gap' ++ back)).value = .ok d' ∧ d'.root.shape = d.root.shape := by
  refine ⟨fun source source' d d' h h' hwords => ⟨?_, shape_congr h h' hwords⟩, ?_⟩
  · rw [Bool.eq_iff_iff, ← not_iff_not, Bool.not_eq_true, Bool.not_eq_true,
      isDamaged_eq_false_iff h, isDamaged_eq_false_iff h', grammatical_congr hwords]
  · intro front gap gap' back hparted hgap hgap' d hcheck
    obtain ⟨h, hd⟩ := check_eq_ok_iff.1 hcheck
    have hwords : Lexeme.words (Scan.ofChars (front ++ gap' ++ back).toList).lexemes =
        Lexeme.words (Scan.ofChars (front ++ gap ++ back).toList).lexemes := by
      simp only [String.toList_append, List.append_assoc]
      rw [hparted.words_eq hgap', hparted.words_eq hgap]
    obtain ⟨d', h', hd'⟩ := exists_sound_iff.2
      ((grammatical_congr hwords).2 ((isDamaged_eq_false_iff h).1 hd))
    exact ⟨d', check_eq_ok_iff.2 ⟨h', hd'⟩, shape_congr h' h hwords hd'⟩

theorem spacing_in_call : ∃ d d', (check "f[1]").value = .ok d ∧
    (check "f\\x\n[1]").value = .ok d' ∧ d'.root.shape = d.root.shape ∧
    ∃ d'', (parse " f [\n1]").value = .ok d'' ∧ d''.root.isDamaged = d.root.isDamaged := by
  obtain ⟨d, h, -⟩ := exists_checked 1000 "f[1]" (fun _ => True) (by decide +kernel)
  have hparted : Scan.Parted "f".toList "[1]".toList :=
    ⟨[⟨.token .identifier, [], ['f']⟩], ⟨.token .leftBracket, [], ['[']⟩,
      [⟨.token .number, [], ['1']⟩, ⟨.token .rightBracket, [], [']']⟩], [], [], by decide,
      by decide +kernel, rfl, rfl⟩
  obtain ⟨d', h', hshape⟩ := spacing_insignificant.2 "f" "" "\\x\n" "[1]" hparted .nil
    (@Lexeme.Gap.comment ['x'] [] (by simp) .nil) d h
  obtain ⟨d'', h''⟩ := exists_of_isSome 1000 " f [\n1]" (by decide +kernel)
  exact ⟨d, d', h, h', hshape, d'', h'',
    (spacing_insignificant.1 _ _ d'' d h'' (check_eq_ok_iff.1 h).1 (by decide +kernel)).1⟩

end Document

end CalcTree
