import CalcTree.Proofs.Concatenation
import CalcTree.Proofs.Spans

/-!
# Where comments end

A comment starts with a backslash and goes on to the end of its line or of the source, unless there
is a NUL before: that ends it too (`Document.comments_end`). So a comment on a line of its own after
a sound source makes one more node and no damage if it has no NUL in it, and damage if it has.
-/

namespace CalcTree

/-! ## Bytes of comments -/

theorem Extent.length_encode (cs : List Char) :
    (cs.flatMap String.utf8EncodeChar).length = (ofChars cs).bytes := by
  rw [ofChars_eq_ofBytes, ofBytes]

namespace Lexeme

/-- The bytes over which a comment goes on: all but line feed and NUL. -/
def continuesOver (b : UInt8) : Bool :=
  b != 10 && b != 0

/-- The bytes that a comment goes over are those of the characters that it goes over. -/
theorem takeWhile_continuesOver (cs : List Char) :
    (cs.flatMap String.utf8EncodeChar).takeWhile continuesOver =
      (cs.takeWhile (continues .comment)).flatMap String.utf8EncodeChar := by
  induction cs with
  | nil => rfl
  | cons c cs ih =>
    rw [List.flatMap_cons, List.takeWhile_cons]
    split_ifs with hc
    · have hne : c ≠ '\n' ∧ c ≠ '\x00' := by simpa [continues] using hc
      -- No part of a longer character is a line feed or a NUL.
      have hall : ∀ b ∈ String.utf8EncodeChar c, continuesOver b := by
        intro b hb
        have hfeed : b ≠ 10 := by
          rintro rfl
          exact Extent.line_feed_not_mem hne.1 hb
        have hnul : b ≠ 0 := by
          rintro rfl
          exact Extent.not_mem_encode '\x00' (by decide) hne.2 hb
        simp [continuesOver, hfeed, hnul]
      rw [List.takeWhile_append_of_pos hall, ih, List.flatMap_cons]
    · have hend : c = '\n' ∨ c = '\x00' := by
        simpa [continues, or_iff_not_imp_left] using hc
      rcases hend with rfl | rfl <;> rfl

theorem eq_of_starts?_comment {c : Char} (h : starts? c = some .comment) : c = '\\' := by
  unfold starts? at h
  split_ifs at h with hletter hdigit hc
  · cases h
  · cases h
  · exact hc
  · cases List.find?_some h

end Lexeme

namespace Scan

variable {source : List Char} {before after : List Lexeme} {l : Lexeme}

/-- Every lexeme is what comes first in the text from its place on. -/
theorem exists_first_of_after : ∀ (fuel : Nat) (read cs : List Char) (before : List Lexeme),
    (Scan.after fuel read cs).lexemes = before ++ l :: after →
    ∃ c text, l.text = c :: text ∧ Lexeme.first c
      (text ++ (Lexeme.spell after ++ (Scan.after fuel read cs).trailing)) = (l.kind, l.text)
  | 0, read, cs, before, h => by
    simp [Scan.after] at h
  | fuel + 1, read, cs, before, h => by
    rcases blank_or_first cs with hcs | ⟨blank, c, rest, rfl, hblank, hc⟩
    · simp [after_of_blank hcs] at h
    rw [after_of_first rest hblank hc] at h ⊢
    -- Blanks already read are in front of the first lexeme and no part of it.
    rcases before with _ | ⟨m, before⟩
    · obtain ⟨rfl, rfl⟩ := List.cons.inj h
      have hne : (Lexeme.first c rest).2 ≠ [] := Lexeme.first_ne_nil hc
      obtain ⟨x, text, htext⟩ := List.exists_cons_of_ne_nil hne
      obtain ⟨more, hmore⟩ := Lexeme.first_prefix c rest
      have hlater : (c :: rest).drop (Lexeme.first c rest).2.length = more := by
        rw [← hmore, List.drop_left]
      rw [htext, List.cons_append, List.cons.injEq] at hmore
      obtain ⟨rfl, rfl⟩ := hmore
      refine ⟨x, text, htext, ?_⟩
      simp only [hlater, spell_after, List.nil_append]
    · exact exists_first_of_after fuel [] _ before (List.cons.inj h).2

theorem exists_first (h : (ofChars source).lexemes = before ++ l :: after) :
    ∃ c text, l.text = c :: text ∧ Lexeme.first c
      (text ++ (Lexeme.spell after ++ (ofChars source).trailing)) = (l.kind, l.text) := by
  unfold ofChars at h ⊢
  split at h
  · simp at h
  · split_ifs at h ⊢
    · exact exists_first_of_after _ _ _ before h
    · exact exists_first_of_after _ _ _ before h

/-- A comment of a source is a backslash and all that comes after it up to a line feed or a NUL. -/
theorem exists_text_of_comment (h : (ofChars source).lexemes = before ++ l :: after)
    (hk : l.kind = .token .comment) : ∃ text rest,
      source = Lexeme.spell before ++ l.blank ++ '\\' :: (text ++ rest) ∧ l.text = '\\' :: text ∧
        (text ++ rest).takeWhile (Lexeme.continues .comment) = text := by
  obtain ⟨c, text, htext, hfirst⟩ := exists_first h
  have hspell := spell_ofChars source
  rw [h, Lexeme.spell_append] at hspell
  rcases hc : Lexeme.starts? c with _ | a <;> simp only [Lexeme.first, hc, hk, htext] at hfirst
  · simp at hfirst
  obtain ⟨ha, htake⟩ := Prod.mk.inj hfirst
  obtain rfl := Lexeme.Kind.token.inj ha
  obtain rfl := Lexeme.eq_of_starts?_comment hc
  refine ⟨text, _, hspell.symm.trans ?_, htext, (List.cons.inj htake).2⟩
  simp [Lexeme.spell, htext]

end Scan

/-! ## Comments in trees -/

theorem Token.countP_layout (ls : List Lexeme) : ∀ place : Nat,
    (layout place ls).countP (·.kind = .terminal .comment) =
      (ls.map Lexeme.kind).count (.token .comment) := by
  induction ls with
  | nil => exact fun _ => rfl
  | cons l ls ih =>
    intro place
    rw [layout, List.countP_cons, ih, List.map_cons, List.count_cons]
    rcases hk : l.kind with a | _ <;> simp [Tree.kind, hk]

namespace Node

variable {t : Tree} {input : Scan} {m : Node}

theorem kind_root_ne_comment (h : t.Whole input) : (root t).kind ≠ .terminal .comment := by
  rw [root_eq]
  cases h <;> exact nofun

/-- A node for a comment is a leaf, in the place of a comment of the source. -/
theorem exists_of_comment (h : t.Whole input) (hm : m ∈ (root t).nodes)
    (hk : m.kind = .terminal .comment) :
    m.children = [] ∧ m.isMissing = false ∧ ∃ before l after,
      input.lexemes = before ++ l :: after ∧ l.kind = .token .comment ∧
        m.start = Lexeme.reachAll before + l.pad ∧ m.stop = Lexeme.reachAll before + l.reach := by
  rcases root_or_mem_tail hm with rfl | hm
  · exact absurd hk (kind_root_ne_comment h)
  obtain ⟨u, p, f, -, rfl, hb, -, before, after, hl, rfl⟩ := exists_of_mem_tail h hm
  cases hb with
  | leaf l =>
    rw [Tree.leaves, List.append_assoc, List.singleton_append] at hl
    refine ⟨rfl, rfl, before, l, after, hl, ?_, rfl, rfl⟩
    rcases hkind : l.kind with a | _ <;> simp_all [shownAt, ofTree, Tree.kind]
  | missing a ha => exact absurd (Kind.terminal.inj hk) ha
  | node | error | skipped => cases hk

/-- The number of comments at or below a node. -/
def commentCount (n : Node) : Nat :=
  n.nodes.countP (·.kind = .terminal .comment)

theorem commentCount_root (h : t.Whole input) :
    (root t).commentCount = (input.lexemes.map Lexeme.kind).count (.token .comment) := by
  rw [← Token.countP_layout _ 0, ← Scan.tokens, ← ends_root h, ends, List.countP_map,
    List.countP_filter, commentCount, nodes_eq,
    List.countP_cons_of_neg (by simpa using kind_root_ne_comment h)]
  refine List.countP_congr fun n hn => ?_
  have hleaf := exists_of_comment h (m := n) (by rw [nodes_eq]; exact List.mem_cons_of_mem _ hn)
  simp only [Function.comp_apply, token, Bool.and_eq_true, List.isEmpty_iff, Bool.not_eq_true',
    decide_eq_true_eq]
  exact ⟨fun hk => ⟨decide_eq_true hk, (hleaf hk).1, (hleaf hk).2.1⟩,
    fun hk => of_decide_eq_true hk.1⟩

/-- A node for a comment takes a backslash and the bytes after it over which the comment goes on. -/
theorem bytes_of_comment {source : String} (h : t.Whole (.ofChars source.toList))
    (hm : m ∈ (root t).nodes) (hk : m.kind = .terminal .comment) : ∃ rest,
      source.toUTF8.data.toList.drop m.start.bytes = 92 :: rest ∧
        m.stop.bytes = m.start.bytes + 1 + (rest.takeWhile Lexeme.continuesOver).length := by
  obtain ⟨-, -, before, l, after, hl, hcomment, hstart, hstop⟩ := exists_of_comment h hm hk
  obtain ⟨text, rest, hsource, htext, htake⟩ := Scan.exists_text_of_comment hl hcomment
  set pre := Lexeme.spell before ++ l.blank
  have hpre : m.start = .ofChars pre := by
    rw [hstart, Lexeme.reachAll_eq_ofChars, Lexeme.pad, ← Extent.ofChars_append]
  have hsize : m.stop.bytes = m.start.bytes + 1 + (Extent.ofChars text).bytes := by
    rw [hstop, hstart, Lexeme.reach, ← Extent.add_assoc', Extent.bytes_add _ l.size, Lexeme.size,
      htext, Extent.ofChars, Extent.bytes_add (.ofChar _), Nat.add_assoc]
    rfl
  have hdata : source.toUTF8.data.toList = pre.flatMap String.utf8EncodeChar ++
      92 :: (text ++ rest).flatMap String.utf8EncodeChar := by
    have hslash : String.utf8EncodeChar '\\' = [92] := rfl
    rw [String.toUTF8_eq_toByteArray, ← String.utf8Encode_toList, hsource, List.utf8Encode]
    simp [hslash]
  refine ⟨(text ++ rest).flatMap String.utf8EncodeChar, ?_, ?_⟩
  · rw [hdata, hpre, ← Extent.length_encode, List.drop_left]
  · rw [Lexeme.takeWhile_continuesOver, htake, Extent.length_encode, hsize]

end Node

/-! ## Comments on lines of their own -/

namespace Scan

/-- A text that starts with a backslash is a comment as far as that goes on. What comes after it is
cut up like any text after other text. -/
theorem map_kind_comment (c : List Char) : (ofChars ('\\' :: c)).lexemes.map Lexeme.kind =
    .token .comment ::
      (plain (c.dropWhile (Lexeme.continues .comment))).lexemes.map Lexeme.kind := by
  have hplain := plain_of_first c (List.forall_mem_nil _)
    (Lexeme.isBlank_of_starts? (c := '\\') (t := .comment) rfl)
  obtain ⟨hfirst, hdrop⟩ := first_of_starts? (c := '\\') (t := .comment) rfl c
  rw [hdrop, hfirst] at hplain
  rw [List.nil_append] at hplain
  rw [map_kind_ofChars, unmarked_eq_self (by simp [Lexeme.byteOrderMark]), hplain, List.map_cons]

/-- Without a NUL it is a comment to its end. -/
theorem map_kind_comment_eq {c : List Char} (h : ∀ x ∈ c, x ≠ '\n' ∧ x ≠ '\x00') :
    (ofChars ('\\' :: c)).lexemes.map Lexeme.kind = [.token .comment] := by
  rw [map_kind_comment, List.dropWhile_eq_nil_iff.2 (Lexeme.continues_comment h),
    plain_of_blank (List.forall_mem_nil _), List.map_nil]

/-- A NUL is unknown after a comment. -/
theorem unknown_mem_of_nul {c : List Char} (hfeed : '\n' ∉ c) (hnul : '\x00' ∈ c) :
    .unknown ∈ (ofChars ('\\' :: c)).lexemes.map Lexeme.kind := by
  rw [map_kind_comment]
  have hhead := List.head?_dropWhile_not (Lexeme.continues .comment) c
  rcases hdrop : c.dropWhile (Lexeme.continues .comment) with _ | ⟨x, rest⟩ <;> rw [hdrop] at hhead
  · cases List.dropWhile_eq_nil_iff.1 hdrop _ hnul
  -- Without a line feed, only a NUL ends the comment.
  have hx : x ∈ c := (List.dropWhile_sublist _).subset (hdrop ▸ List.mem_cons_self)
  obtain rfl : x = '\x00' := by
    have hne : x ≠ '\n' := fun h => hfeed (h ▸ hx)
    simpa [Lexeme.continues, hne] using hhead
  have hplain := plain_of_first rest (List.forall_mem_nil _) (c := '\x00') rfl
  rw [List.nil_append] at hplain
  rw [hplain, List.map_cons]
  exact List.mem_cons_of_mem _ List.mem_cons_self

end Scan

namespace Document

variable {source : String} {d : Document}

theorem commentCount_of_parse (h : (parse source).value = .ok d) : d.root.commentCount =
    ((Scan.ofChars source.toList).lexemes.map Lexeme.kind).count (.token .comment) := by
  obtain ⟨t, -, hroot, hwhole⟩ := whole_of_parse h
  rw [hroot, Node.commentCount_root hwhole]

/-- The tokens of a source with a line of comment after it. -/
theorem map_kind_comment_line (hs : Lexeme.Known (Scan.ofChars source.toList).lexemes)
    (c : String) :
    (Scan.ofChars (source ++ "\n\\" ++ c).toList).lexemes.map Lexeme.kind =
      (Scan.ofChars source.toList).lexemes.map Lexeme.kind ++
        (Scan.ofChars ('\\' :: c.toList)).lexemes.map Lexeme.kind := by
  have hmark : ("\\" ++ c).toList.head? ≠ some Lexeme.byteOrderMark := by
    simp [Lexeme.byteOrderMark]
  have htext : (source ++ "\n\\" ++ c).toList = (source ++ "\n" ++ ("\\" ++ c)).toList := by simp
  rw [htext, Scan.map_kind_lines hs hmark, List.map_append]
  simp

theorem exists_check_comment_line (h : (parse source).value = .ok d) (hd : d.root.isDamaged = false)
    {c : String} (hc : ∀ x ∈ c.toList, x ≠ '\n' ∧ x ≠ '\x00') :
    ∃ d', (check (source ++ "\n\\" ++ c)).value = .ok d' ∧
      d'.root.commentCount = d.root.commentCount + 1 := by
  obtain ⟨w, hw, hs⟩ := grammatical_of_parse h hd
  have hkinds := map_kind_comment_line hs.1 c
  rw [Scan.map_kind_comment_eq hc] at hkinds
  have hspells : Spells (source ++ "\n\\" ++ c) w := by
    have hlexemes : (Scan.ofChars (source ++ "\n\\" ++ c).toList).lexemes.map Lexeme.kind =
        ((Scan.ofChars source.toList).lexemes ++ [Lexeme.mk (.token .comment) [] []]).map
          Lexeme.kind := by
      rw [hkinds, List.map_append]
      rfl
    -- A comment is no word.
    rw [spells_iff_words] at hs ⊢
    rw [Lexeme.words_congr hlexemes, ← hs, Lexeme.words, List.filterMap_append]
    exact List.append_nil _
  obtain ⟨d', h', hd'⟩ := exists_sound_iff.2 ⟨w, hw, hspells⟩
  refine ⟨d', check_eq_ok_iff.2 ⟨h', hd'⟩, ?_⟩
  rw [commentCount_of_parse h', commentCount_of_parse h, hkinds, List.count_append]
  rfl

theorem check_comment_line_ne (h : (parse source).value = .ok d) (hd : d.root.isDamaged = false)
    {c : String} (hfeed : '\n' ∉ c.toList) (hnul : '\x00' ∈ c.toList) (d' : Document) :
    (check (source ++ "\n\\" ++ c)).value ≠ .ok d' := by
  intro hcheck
  obtain ⟨h', hd'⟩ := check_eq_ok_iff.1 hcheck
  obtain ⟨-, -, hs, -⟩ := grammatical_of_parse h hd
  obtain ⟨-, -, hs', -⟩ := grammatical_of_parse h' hd'
  have hknown := Lexeme.known_iff.1 hs'
  rw [map_kind_comment_line hs c] at hknown
  exact hknown (List.mem_append_right _ (Scan.unknown_mem_of_nul hfeed hnul))

/-- Every comment is a backslash and the bytes after it up to a line feed, a NUL or the end of the
source. So a line that starts with a backslash may come after a source without damage: it adds one
comment, unless it has a NUL in it, and then there is damage. -/
theorem comments_end (h : (parse source).value = .ok d) :
    (∀ n ∈ d.root.nodes, n.kind = .terminal .comment → ∃ rest,
      source.toUTF8.data.toList.drop n.start.bytes = 92 :: rest ∧
        n.stop.bytes = n.start.bytes + 1 + (rest.takeWhile Lexeme.continuesOver).length) ∧
    (d.root.isDamaged = false → ∀ c : String, '\n' ∉ c.toList →
      ('\x00' ∉ c.toList → ∃ d', (check (source ++ "\n\\" ++ c)).value = .ok d' ∧
        d'.root.commentCount = d.root.commentCount + 1) ∧
      ('\x00' ∈ c.toList → ∀ d', (check (source ++ "\n\\" ++ c)).value ≠ .ok d')) := by
  obtain ⟨t, -, hroot, hwhole⟩ := whole_of_parse h
  refine ⟨fun n hn hk => Node.bytes_of_comment hwhole (hroot ▸ hn) hk,
    fun hd c hfeed => ⟨fun hnul => ?_, fun hnul => check_comment_line_ne h hd hfeed hnul⟩⟩
  refine exists_check_comment_line h hd fun x hx => ⟨?_, ?_⟩
  · rintro rfl
    exact hfeed hx
  · rintro rfl
    exact hnul hx

theorem comments_end_after_number : ∃ d d', (check "1\\é").value = .ok d ∧
    (check ("1\\é" ++ "\n\\" ++ "\t\"€")).value = .ok d' ∧
    d'.root.commentCount = d.root.commentCount + 1 ∧
    ∃ n ∈ d.root.nodes, n.kind = .terminal .comment ∧ ∃ rest,
      "1\\é".toUTF8.data.toList.drop n.start.bytes = 92 :: rest ∧
        n.stop.bytes = n.start.bytes + 1 + (rest.takeWhile Lexeme.continuesOver).length := by
  obtain ⟨d, hparse, hd, n, hn, hk⟩ := exists_of_within 1000 "1\\é"
    (fun d => d.root.isDamaged = false ∧ ∃ n ∈ d.root.nodes, n.kind = .terminal .comment)
    (by decide +kernel)
  obtain ⟨hbytes, hline⟩ := comments_end hparse
  obtain ⟨d', hcheck, hcount⟩ := (hline hd "\t\"€" (by decide +kernel)).1 (by decide +kernel)
  exact ⟨d, d', check_eq_ok_iff.2 ⟨hparse, hd⟩, hcheck, hcount, n, hn, hk, hbytes n hn hk⟩

/-- A comment that ends in the middle of its line, and a line that starts with a backslash and is
not only a comment. -/
theorem comment_ends_at_nul :
    (∃ d, (parse "\\\x00").value = .ok d ∧ ∃ n ∈ d.root.nodes, n.kind = .terminal .comment ∧
      n.stop.bytes < "\\\x00".utf8ByteSize ∧ '\n' ∉ "\\\x00".toList) ∧
    ∃ d, (check "1").value = .ok d ∧ '\n' ∉ "\x00".toList ∧
      ∀ d', (check ("1" ++ "\n\\" ++ "\x00")).value ≠ .ok d' := by
  constructor
  · obtain ⟨d, hparse, n, hn, hk, hlt⟩ := exists_of_within 1000 "\\\x00"
      (fun d => ∃ n ∈ d.root.nodes, n.kind = .terminal .comment ∧
        n.stop.bytes < "\\\x00".utf8ByteSize)
      (by decide +kernel)
    exact ⟨d, hparse, n, hn, hk, hlt, by decide +kernel⟩
  · obtain ⟨d, hcheck, -⟩ := exists_checked 1000 "1" (fun _ => True) (by decide +kernel)
    obtain ⟨h, hd⟩ := check_eq_ok_iff.1 hcheck
    exact ⟨d, hcheck, by decide +kernel,
      check_comment_line_ne h hd (by decide +kernel) (by decide +kernel)⟩

end Document

end CalcTree
