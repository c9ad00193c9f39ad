import CalcTree.Proofs.Graph
import Mathlib.Data.List.TakeWhile

/-!
# Scans cut sources up without loss

Every lexeme of a scan takes room (`spaced_ofChars`), and every byte of a source lies in exactly
one lexeme, or else belongs to a blank between lexemes or to a byte order mark at the start
(`covered_once`).

For every list of tokens there is a source that is cut up into them (`exists_source`).
-/

namespace CalcTree

theorem Extent.bytes_ofChar (c : Char) : (ofChar c).bytes = c.utf8Size := by
  unfold ofChar
  split_ifs with h
  · subst h
    rfl
  · rfl

namespace Lexeme

variable {c : Char} {cs : List Char}

theorem unknownRun_prefix (cs : List Char) : unknownRun cs <+: cs := by
  refine List.IsPrefix.trans ?_ (List.takeWhile_prefix fun c => isBlank c || isUnknown c)
  rw [unknownRun, ← List.reverse_suffix, List.reverse_reverse]
  exact List.dropWhile_suffix _

theorem unknownRun_ne_nil (hb : isBlank c = false) (hs : starts? c = none) :
    unknownRun (c :: cs) ≠ [] := by
  have hu : isUnknown c = true := by simp [isUnknown, hb, hs]
  intro hnil
  rw [unknownRun, List.reverse_eq_nil_iff, List.dropWhile_eq_nil_iff] at hnil
  have := hnil c (by simp [hu])
  simp [hb] at this

theorem first_prefix (c : Char) (cs : List Char) : (first c cs).2 <+: c :: cs := by
  unfold first
  split
  · rw [List.prefix_cons_inj]
    exact List.takeWhile_prefix _
  · exact unknownRun_prefix _

theorem first_ne_nil (hb : isBlank c = false) : (first c cs).2 ≠ [] := by
  unfold first
  split
  · simp
  · rename_i hs
    exact unknownRun_ne_nil hb hs

theorem bytes_pos (h : cs ≠ []) : 0 < (Extent.ofChars cs).bytes := by
  rcases cs with _ | ⟨c, cs⟩
  · exact absurd rfl h
  · rw [Extent.ofChars, Extent.bytes_add, Extent.bytes_ofChar]
    have := c.utf8Size_pos
    omega

end Lexeme

namespace Scan

/-- A text is blank, or it has a first character that is none. -/
theorem blank_or_first (cs : List Char) : (∀ c ∈ cs, Lexeme.isBlank c) ∨
    ∃ blank c rest, cs = blank ++ c :: rest ∧ (∀ c ∈ blank, Lexeme.isBlank c) ∧
      Lexeme.isBlank c = false := by
  have hsplit := List.takeWhile_append_dropWhile (p := Lexeme.isBlank) (l := cs)
  have hblank : ∀ c ∈ cs.takeWhile Lexeme.isBlank, Lexeme.isBlank c :=
    List.all_eq_true.1 List.all_takeWhile
  have hhead := List.head?_dropWhile_not Lexeme.isBlank cs
  rcases hdrop : cs.dropWhile Lexeme.isBlank with _ | ⟨c, rest⟩ <;> rw [hdrop] at hsplit hhead
  · rw [List.append_nil] at hsplit
    exact .inl (hsplit ▸ hblank)
  · exact .inr ⟨_, c, rest, hsplit.symm, hblank, by simpa using hhead⟩

/-- One round of cutting up. -/
theorem after_succ (fuel : Nat) (read cs : List Char) :
    (cs.dropWhile Lexeme.isBlank = [] ∧ after (fuel + 1) read cs = ⟨[], read ++ cs⟩ ∧
      ∀ c ∈ cs, Lexeme.isBlank c) ∨
    ∃ blank text rest kind, cs = blank ++ (text ++ rest) ∧ text ≠ [] ∧
      (∀ c ∈ blank, Lexeme.isBlank c) ∧
      (after (fuel + 1) read cs).lexemes =
        ⟨kind, read ++ blank, text⟩ :: (after fuel [] rest).lexemes := by
  rcases blank_or_first cs with hcs | ⟨blank, c, rest, rfl, hblank, hc⟩
  · exact .inl ⟨List.dropWhile_eq_nil_iff.2 hcs, after_of_blank hcs, hcs⟩
  · obtain ⟨more, hmore⟩ := Lexeme.first_prefix c rest
    have hdrop : (c :: rest).drop (Lexeme.first c rest).2.length = more := by
      rw [← hmore, List.drop_left]
    refine .inr ⟨blank, (Lexeme.first c rest).2, more, (Lexeme.first c rest).1, by rw [hmore],
      Lexeme.first_ne_nil hc, hblank, ?_⟩
    rw [after_of_first rest hblank hc, hdrop]

theorem spaced_after : ∀ (fuel : Nat) (read cs : List Char), (after fuel read cs).Spaced
  | 0, _, _ => by simp [after, Spaced]
  | fuel + 1, read, cs => by
    intro l hl
    rcases after_succ fuel read cs with ⟨-, hnil, -⟩ | ⟨blank, text, rest, kind, -, htext, -, hlex⟩
    · simp [hnil] at hl
    · rw [hlex] at hl
      rcases List.mem_cons.1 hl with rfl | hl
      · have := Lexeme.bytes_pos htext
        simp only [Lexeme.reach, Lexeme.size, Extent.bytes_add]
        omega
      · exact spaced_after fuel [] rest l hl

theorem spaced_ofChars (source : List Char) : (ofChars source).Spaced := by
  unfold ofChars
  split
  · simp [Spaced]
  · split_ifs
    · exact spaced_after _ _ _
    · exact spaced_after _ _ _

end Scan

/-! ## Tokens -/

/-- A lexeme as it is shown: its kind, and the bytes it takes. -/
structure Token where
  kind : Kind
  start : Nat
  stop : Nat
deriving DecidableEq, Repr

namespace Token

/-- Whether a byte lies in a token. -/
def covers (byte : Nat) (t : Token) : Bool :=
  t.start ≤ byte && byte < t.stop

/-- Lexemes laid out one after the other. -/
def layout (place : Nat) : List Lexeme → List Token
  | [] => []
  | l :: ls =>
    ⟨(Tree.leaf l).kind, place + l.pad.bytes, place + l.reach.bytes⟩ ::
      layout (place + l.reach.bytes) ls

theorem layout_append (ls ms : List Lexeme) : ∀ place : Nat,
    layout place (ls ++ ms) =
      layout place ls ++ layout (place + (Lexeme.reachAll ls).bytes) ms := by
  induction ls with
  | nil => simp [layout, Lexeme.reachAll]
  | cons l ls ih => simp [layout, Lexeme.reachAll, ih, Nat.add_assoc]

theorem countP_covers_of_lt {byte : Nat} : ∀ (ls : List Lexeme) {place : Nat}, byte < place →
    (layout place ls).countP (covers byte) = 0
  | [], _, _ => rfl
  | l :: ls, place, h => by
    have hcov : covers byte ⟨(Tree.leaf l).kind, place + l.pad.bytes, place + l.reach.bytes⟩ =
        false := by
      simp only [covers, Bool.and_eq_false_iff, decide_eq_false_iff_not]
      omega
    rw [layout, List.countP_cons_of_neg (by simp [hcov]),
      countP_covers_of_lt ls (by omega)]

/-- A byte lies in front of the first token, in it, or behind it. -/
theorem countP_layout_cons (byte place : Nat) (l : Lexeme) (ls : List Lexeme) :
    (layout place (l :: ls)).countP (covers byte) =
      if byte < place + l.pad.bytes then 0
      else if byte < place + l.reach.bytes then 1
      else (layout (place + l.reach.bytes) ls).countP (covers byte) := by
  have hle : l.pad.bytes ≤ l.reach.bytes := by simp [Lexeme.reach]
  rw [layout, List.countP_cons]
  split_ifs with hcov hpad hreach hpad hreach <;>
    simp only [covers, Bool.and_eq_true, decide_eq_true_eq] at hcov
  · omega
  · rw [countP_covers_of_lt ls hreach]
  · omega
  · rw [countP_covers_of_lt ls (by omega)]
  · omega
  · rfl

end Token

namespace Scan

/-- The tokens of a source, from left to right, comments and unknown characters included. -/
def tokens (input : Scan) : List Token :=
  Token.layout 0 input.lexemes

/-- A place in the middle of two texts is in one of them. -/
theorem append_eq_append_cons {xs ys pre post : List Char} {c : Char}
    (h : xs ++ ys = pre ++ c :: post) :
    (∃ q, xs = pre ++ c :: q) ∨ ∃ q, pre = xs ++ q ∧ ys = q ++ c :: post := by
  rcases List.append_eq_append_iff.1 h with ⟨q, hpre, hys⟩ | ⟨q, hxs, hpost⟩
  · exact .inr ⟨q, hpre, hys⟩
  · rcases q with _ | ⟨c', q⟩
    · refine .inr ⟨[], ?_, by simpa using hpost.symm⟩
      simpa using hxs.symm
    · obtain ⟨rfl, -⟩ := List.cons.inj hpost
      exact .inl ⟨q, hxs⟩

theorem covered_after : ∀ (fuel : Nat) (read cs : List Char), cs.length < fuel →
    ∀ (place : Nat) (pre : List Char) (c : Char) (post : List Char) (k : Nat),
      read ++ cs = pre ++ c :: post → k < c.utf8Size →
      let count := (Token.layout place (after fuel read cs).lexemes).countP
        (Token.covers (place + (Extent.ofChars pre).bytes + k))
      count = 1 ∨ count = 0 ∧ (pre.length < read.length ∨ Lexeme.isBlank c)
  | 0, _, _, h => by omega
  | fuel + 1, read, cs, hfuel => by
    intro place pre c post k hsource hk count
    have hbytes : ∀ q : List Char, (Extent.ofChars (pre ++ c :: q)).bytes =
        (Extent.ofChars pre).bytes + (c.utf8Size + (Extent.ofChars q).bytes) := by
      intro q
      rw [Extent.ofChars_append, Extent.ofChars, Extent.bytes_add, Extent.bytes_add,
        Extent.bytes_ofChar]
    -- What is not of the blanks already read is of the blanks in front of the lexeme.
    have hgap : ∀ blank : List Char, (∀ c ∈ blank, Lexeme.isBlank c) → ∀ q,
        read ++ blank = pre ++ c :: q → pre.length < read.length ∨ Lexeme.isBlank c := by
      intro blank hblank q hq
      rcases append_eq_append_cons hq with ⟨q', hread⟩ | ⟨q', -, hb⟩
      · refine .inl ?_
        rw [hread, List.length_append, List.length_cons]
        omega
      · exact .inr (hblank c (by simp [hb]))
    rcases after_succ fuel read cs with
      ⟨-, hnil, hblank⟩ | ⟨blank, text, rest, kind, hcs, htext, hblank, hlex⟩
    · refine .inr ⟨by simp [count, hnil, Token.layout], hgap cs hblank post hsource⟩
    rw [hcs, ← List.append_assoc] at hsource
    obtain ⟨l, hl, hpad, hreach⟩ : ∃ l : Lexeme,
        (after (fuel + 1) read cs).lexemes = l :: (after fuel [] rest).lexemes ∧
        (Extent.ofChars (read ++ blank)).bytes = l.pad.bytes ∧
        (Extent.ofChars (read ++ blank ++ text)).bytes = l.reach.bytes := by
      refine ⟨_, hlex, rfl, ?_⟩
      rw [Extent.ofChars_append (read ++ blank)]
      rfl
    have hle : l.pad.bytes ≤ l.reach.bytes := by simp [Lexeme.reach]
    simp only [count, hl, Token.countP_layout_cons]
    rcases append_eq_append_cons hsource with ⟨q, hq⟩ | ⟨q, hpre, hrest⟩
    · refine .inr ⟨?_, hgap blank hblank q hq⟩
      rw [hq, hbytes] at hpad
      rw [if_pos (by omega)]
    rcases append_eq_append_cons hrest with ⟨q', hq'⟩ | ⟨q', hq', hrest'⟩
    · refine .inl ?_
      rw [hq', ← List.append_assoc, ← hpre, hbytes] at hreach
      have hle' : (Extent.ofChars (read ++ blank)).bytes ≤ (Extent.ofChars pre).bytes := by
        rw [hpre, Extent.ofChars_append (read ++ blank), Extent.bytes_add]
        omega
      rw [if_neg (by omega), if_pos (by omega)]
    · rw [hq', ← List.append_assoc] at hpre
      have hpre' : (Extent.ofChars pre).bytes = (Extent.ofChars (read ++ blank ++ text)).bytes +
          (Extent.ofChars q').bytes := by
        rw [hpre, Extent.ofChars_append (read ++ blank ++ text), Extent.bytes_add]
      have hlen : rest.length < fuel := by
        have := List.length_pos_iff.2 htext
        rw [hcs, List.length_append, List.length_append] at hfuel
        omega
      have ih := covered_after fuel [] rest hlen
        (place + l.reach.bytes) q' c post k hrest' hk
      rw [if_neg (by omega), if_neg (by omega)]
      have hbyte : place + (Extent.ofChars pre).bytes + k =
          place + l.reach.bytes +
            (Extent.ofChars q').bytes + k := by omega
      rw [hbyte]
      rcases ih with ih | ⟨ih, hlt | hb⟩
      · exact .inl ih
      · simp at hlt
      · exact .inr ⟨ih, .inr hb⟩

/-- Every byte of a source lies in exactly one token, or in none and then it is of a blank or of a
byte order mark at the start. -/
theorem covered_once {source pre post : List Char} {c : Char} {k : Nat}
    (hsource : source = pre ++ c :: post) (hk : k < c.utf8Size) :
    let count := (ofChars source).tokens.countP
      (Token.covers ((Extent.ofChars pre).bytes + k))
    count = 1 ∨ count = 0 ∧ (Lexeme.isBlank c ∨ pre = [] ∧ c = Lexeme.byteOrderMark) := by
  intro count
  unfold count tokens ofChars
  split
  · simp at hsource
  rename_i c₀ cs
  split_ifs with hc
  · have h := covered_after (cs.length + 1) [c₀] cs (by omega) 0 pre c post k hsource hk
    rw [Nat.zero_add] at h
    rcases h with h | ⟨h, hlt | hb⟩
    · exact .inl h
    · obtain rfl : pre = [] := List.length_eq_zero_iff.1 (by simpa using hlt)
      obtain ⟨rfl, -⟩ := List.cons.inj hsource
      exact .inr ⟨h, .inr ⟨rfl, hc⟩⟩
    · exact .inr ⟨h, .inl hb⟩
  · have h := covered_after (cs.length + 2) [] (c₀ :: cs) (by simp) 0 pre c post k hsource hk
    rw [Nat.zero_add] at h
    rcases h with h | ⟨h, hlt | hb⟩
    · exact .inl h
    · simp at hlt
    · exact .inr ⟨h, .inl hb⟩

end Scan

/-! ## Sources for tokens -/

/-- A character that spells a token. -/
def Terminal.sample : Terminal → Char
  | .identifier => 'a'
  | .number => '0'
  | t => t.char?.getD '\\'

theorem Terminal.sample_facts {t : Terminal} (h : t ≠ .comment) :
    Lexeme.isBlank t.sample = false ∧ Lexeme.starts? t.sample = some t ∧
      Lexeme.continues t ' ' = false := by
  revert h
  cases t <;> decide

namespace Scan

/-- Tokens written out, with a blank in front of each. -/
def sample (ts : List Terminal) : List Char :=
  ts.flatMap fun t => [' ', t.sample]

theorem after_sample : ∀ (ts : List Terminal) (fuel : Nat), (∀ t ∈ ts, t ≠ .comment) →
    (sample ts).length < fuel →
    (after fuel [] (sample ts)).lexemes = ts.map fun t => ⟨.token t, [' '], [t.sample]⟩
  | [], 0, _, h => by omega
  | [], _ + 1, _, _ => by
    rw [sample, List.flatMap_nil, after_of_blank (List.forall_mem_nil _), List.map_nil]
  | _ :: _, 0, _, h => by omega
  | t :: ts, fuel + 1, hts, hfuel => by
    obtain ⟨hblank, hstarts, hcont⟩ := Terminal.sample_facts (hts t (by simp))
    have hsample : sample (t :: ts) = [' '] ++ t.sample :: sample ts := rfl
    have hspace : ∀ c ∈ [' '], Lexeme.isBlank c := List.forall_mem_singleton.2 rfl
    -- The token ends before the blank in front of the next one.
    have hfirst : Lexeme.first t.sample (sample ts) = (.token t, [t.sample]) := by
      rcases ts with _ | ⟨u, us⟩ <;> simp [Lexeme.first, hstarts, sample, hcont]
    have ih := after_sample ts fuel (fun u hu => hts u (by simp [hu])) (by
      rw [hsample, List.length_append, List.length_singleton, List.length_cons] at hfuel
      omega)
    simp only [hsample, after_of_first (sample ts) hspace hblank, hfirst, List.nil_append,
      List.length_singleton, List.drop_one, List.tail_cons, ih, List.map_cons]

/-- Every list of tokens other than comments is that of some source. -/
theorem exists_source (ts : List Terminal) (hts : ∀ t ∈ ts, t ≠ .comment) :
    ∃ source : String, Lexeme.Known (ofChars source.toList).lexemes ∧
      Lexeme.terminals (ofChars source.toList).lexemes = ts := by
  have hlex : (ofChars (sample ts)).lexemes =
      ts.map fun t => ⟨.token t, [' '], [t.sample]⟩ := by
    rcases ts with _ | ⟨t, ts⟩
    · rfl
    · exact after_sample (t :: ts) _ hts (Nat.lt_succ_self _)
  refine ⟨String.ofList (sample ts), ?_, ?_⟩
  · rw [String.toList_ofList, hlex]
    intro l hl
    obtain ⟨t, -, rfl⟩ := List.mem_map.1 hl
    simp
  · rw [String.toList_ofList, hlex, Lexeme.terminals, List.filterMap_map]
    refine (List.filterMap_congr fun t ht => ?_).trans List.filterMap_some
    simpa [Lexeme.terminal?, Terminal.isExtra] using hts t ht

end Scan

end CalcTree
