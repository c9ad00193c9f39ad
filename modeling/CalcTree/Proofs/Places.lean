import CalcTree.Proofs.Leaves
import Mathlib.Data.Prod.Lex

/-!
# Places

A scan loses nothing of its source (`Scan.spell_ofChars`), so every place in it is the extent of
some beginning of the source (`Extent.IsIn`). Places in one source that come later in bytes do not
come earlier in rows and columns (`Extent.IsIn.point_le`), and rows and columns can be counted off
the bytes before a place (`Extent.IsIn.eq_ofBytes`).

The nodes of a root are the visible trees in its tree, each where it lies (`Tree.Lies`,
`Node.exists_of_mem_root`). They are nested: the children of a node stand in a row within it
(`Node.nested_root`).
-/

namespace CalcTree

namespace Extent

/-- The extent of bytes: how many there are, how many of them are line feeds, and how many come
after the last line feed. -/
def ofBytes (bs : List UInt8) : Extent :=
  ⟨bs.length, bs.count 10, (bs.reverse.takeWhile (· ≠ 10)).length⟩

theorem ofBytes_append (as bs : List UInt8) : ofBytes (as ++ bs) = ofBytes as + ofBytes bs := by
  simp only [ofBytes, add_def, List.length_append, List.count_append, List.reverse_append,
    mk.injEq, true_and]
  by_cases h : bs.count 10 = 0
  · -- Without a line feed in the second stretch, columns go on counting.
    have hall : ∀ b ∈ bs.reverse, decide (b ≠ 10) = true := by
      intro b hb
      have hmem : b ∈ bs := List.mem_reverse.1 hb
      exact decide_eq_true fun hb' => List.count_eq_zero.1 h (hb' ▸ hmem)
    have htake : bs.reverse.takeWhile (· ≠ 10) = bs.reverse := List.takeWhile_eq_self_iff.2 hall
    rw [if_pos h, List.takeWhile_append_of_pos hall, htake, List.length_append]
    omega
  · have hne : (bs.reverse.takeWhile (· ≠ 10)).length ≠ bs.reverse.length := by
      intro hlen
      have heq : bs.reverse.takeWhile (· ≠ 10) = bs.reverse :=
        (List.takeWhile_prefix _).eq_of_length hlen
      refine h (List.count_eq_zero.2 fun hmem => ?_)
      have := List.takeWhile_eq_self_iff.1 heq 10 (List.mem_reverse.2 hmem)
      simp at this
    rw [if_neg h, List.takeWhile_append, if_neg hne]

/-- A byte below 128 is a character of its own, and no part of another one. -/
theorem not_mem_encode {c : Char} (x : Char) (hx : x.val.toNat < 128) (h : c ≠ x) :
    x.val.toUInt8 ∉ String.utf8EncodeChar c := by
  have hval : c.val.toNat ≠ x.val.toNat := fun hv => h (Char.ext (UInt32.toNat_inj.1 hv))
  unfold String.utf8EncodeChar
  simp only []
  split_ifs <;> simp only [List.mem_cons, List.not_mem_nil, or_false, not_or] <;>
    simp only [← UInt8.toNat_inj, UInt8.toNat_ofNat', UInt32.toNat_toUInt8] <;> omega

theorem line_feed_not_mem {c : Char} (h : c ≠ '\n') : (10 : UInt8) ∉ String.utf8EncodeChar c :=
  not_mem_encode '\n' (by decide) h

theorem ofBytes_encode (c : Char) : ofBytes (String.utf8EncodeChar c) = ofChar c := by
  unfold ofChar
  split_ifs with h
  · subst h
    decide
  · have hmem := line_feed_not_mem h
    have hall : ∀ b ∈ (String.utf8EncodeChar c).reverse, decide (b ≠ 10) = true := by
      intro b hb
      exact decide_eq_true fun hb' => hmem (hb' ▸ List.mem_reverse.1 hb)
    have htake : (String.utf8EncodeChar c).reverse.takeWhile (· ≠ 10) =
        (String.utf8EncodeChar c).reverse := List.takeWhile_eq_self_iff.2 hall
    rw [ofBytes, List.count_eq_zero.2 hmem, htake, List.length_reverse,
      String.length_utf8EncodeChar]

theorem ofChars_eq_ofBytes (cs : List Char) :
    ofChars cs = ofBytes (cs.flatMap String.utf8EncodeChar) := by
  induction cs with
  | nil => rfl
  | cons c cs ih => rw [ofChars, List.flatMap_cons, ofBytes_append, ofBytes_encode, ih]

/-- Row and column, in the order of reading. -/
def point (e : Extent) : Lex (Nat × Nat) :=
  toLex (e.rows, e.columns)

theorem point_le_add (a b : Extent) : a.point ≤ (a + b).point := by
  rw [point, point, Prod.Lex.toLex_le_toLex, rows_add, add_def]
  by_cases h : b.rows = 0
  · exact .inr ⟨by simp [h], by simp [h]⟩
  · exact .inl (by simp only; omega)

/-- Whether there is this place in a text. -/
def IsIn (text : List Char) (e : Extent) : Prop :=
  ∃ pre, pre <+: text ∧ ofChars pre = e

namespace IsIn

variable {text : List Char} {a b : Extent}

theorem point_le (ha : IsIn text a) (hb : IsIn text b) (h : a.bytes ≤ b.bytes) :
    a.point ≤ b.point := by
  obtain ⟨pre, hpre, rfl⟩ := ha
  obtain ⟨post, hpost, rfl⟩ := hb
  rcases List.prefix_or_prefix_of_prefix hpre hpost with ⟨rest, rfl⟩ | ⟨rest, rfl⟩
  · rw [ofChars_append]
    exact point_le_add _ _
  · -- No text takes up no bytes.
    rw [ofChars_append, bytes_add] at h
    have hrest : rest = [] := by
      by_contra hne
      have := Lexeme.bytes_pos hne
      omega
    rw [hrest, List.append_nil]

theorem eq_ofBytes {source : String} (h : IsIn source.toList a) :
    a = ofBytes (source.toUTF8.data.toList.take a.bytes) := by
  obtain ⟨pre, ⟨rest, hrest⟩, rfl⟩ := h
  have hdata : source.toUTF8.data.toList =
      pre.flatMap String.utf8EncodeChar ++ rest.flatMap String.utf8EncodeChar := by
    rw [String.toUTF8_eq_toByteArray, ← String.utf8Encode_toList, ← hrest, ← List.flatMap_append,
      List.utf8Encode]
    simp
  have hbytes : (ofChars pre).bytes = (pre.flatMap String.utf8EncodeChar).length := by
    rw [ofChars_eq_ofBytes, ofBytes]
  rw [hdata, hbytes, List.take_left, ← ofChars_eq_ofBytes]

end IsIn

end Extent

/-! ## Scans spell their sources -/

/-- The text of lexemes, blanks included. -/
def Lexeme.spell (ls : List Lexeme) : List Char :=
  ls.flatMap fun l => l.blank ++ l.text

theorem Lexeme.spell_append (ls ms : List Lexeme) : spell (ls ++ ms) = spell ls ++ spell ms :=
  List.flatMap_append

theorem Lexeme.reachAll_eq_ofChars (ls : List Lexeme) : reachAll ls = .ofChars (spell ls) := by
  induction ls with
  | nil => rfl
  | cons l ls ih =>
    rw [reachAll, ih, reach, pad, size, ← Extent.ofChars_append, ← Extent.ofChars_append]
    rfl

namespace Scan

theorem spell_after : ∀ (fuel : Nat) (read cs : List Char),
    Lexeme.spell (after fuel read cs).lexemes ++ (after fuel read cs).trailing = read ++ cs
  | 0, _, _ => rfl
  | fuel + 1, read, cs => by
    rcases blank_or_first cs with hcs | ⟨blank, c, rest, rfl, hblank, hc⟩
    · simp [after_of_blank hcs, Lexeme.spell]
    · obtain ⟨more, hmore⟩ := Lexeme.first_prefix c rest
      have ih := spell_after fuel [] more
      simp only [Lexeme.spell, List.nil_append] at ih
      have hlater : (c :: rest).drop (Lexeme.first c rest).2.length = more := by
        rw [← hmore, List.drop_left]
      simp only [after_of_first rest hblank hc, hlater, Lexeme.spell, List.flatMap_cons,
        List.append_assoc, ih]
      rw [hmore]

/-- Blanks and texts of all lexemes, with the blanks at the end, spell the source. -/
theorem spell_ofChars (source : List Char) :
    Lexeme.spell (ofChars source).lexemes ++ (ofChars source).trailing = source := by
  unfold ofChars
  split
  · rfl
  · split_ifs
    · exact spell_after _ _ _
    · exact spell_after _ _ _

variable {source : List Char} {before after : List Lexeme}

theorem isIn_reachAll (h : (ofChars source).lexemes = before ++ after) :
    (Lexeme.reachAll before).IsIn source := by
  refine ⟨Lexeme.spell before, ?_, (Lexeme.reachAll_eq_ofChars _).symm⟩
  refine ⟨Lexeme.spell after ++ (ofChars source).trailing, ?_⟩
  rw [← List.append_assoc, ← Lexeme.spell_append, ← h, spell_ofChars]

theorem isIn_start {l : Lexeme} (h : (ofChars source).lexemes = before ++ l :: after) :
    (Lexeme.reachAll before + l.pad).IsIn source := by
  refine ⟨Lexeme.spell before ++ l.blank, ?_, ?_⟩
  · refine ⟨l.text ++ (Lexeme.spell after ++ (ofChars source).trailing), ?_⟩
    have hspell := spell_ofChars source
    rw [h, Lexeme.spell_append] at hspell
    simpa [Lexeme.spell] using hspell
  · rw [Extent.ofChars_append, ← Lexeme.reachAll_eq_ofChars, Lexeme.pad]

/-- Lexemes and the blanks after them take the room of their source. -/
theorem reach_ofChars (source : List Char) : Lexeme.reachAll (ofChars source).lexemes +
    .ofChars (ofChars source).trailing = .ofChars source := by
  nth_rewrite 3 [← spell_ofChars source]
  rw [Extent.ofChars_append, ← Lexeme.reachAll_eq_ofChars]

theorem isIn_end (source : List Char) : (Lexeme.reachAll (ofChars source).lexemes +
    .ofChars (ofChars source).trailing).IsIn source :=
  ⟨source, List.prefix_rfl, (reach_ofChars source).symm⟩

end Scan

/-! ## Trees in trees -/

namespace Tree

/-- Whether a tree lies at a place inside another one, if that is laid out at `place`. -/
inductive Lies (u : Tree) (p : Extent) : Tree → Extent → Prop
  | self : Lies u p u p
  | child {t c : Tree} {place : Extent} (before after : List Tree)
      (hc : t.children = before ++ c :: after) (h : Lies u p c (place + reachAll before)) :
      Lies u p t place

variable {t u : Tree} {p place : Extent}

/-- The children of a tree, taken out one at a time, are smaller than the tree. -/
theorem sizeOf_lt_of_mem {c : Tree} (hc : c ∈ t.children) : sizeOf c < sizeOf t := by
  cases t with
  | leaf | missing | finish => simp [children] at hc
  | node _ cs | error _ cs | skipped cs =>
    have := List.sizeOf_lt_of_mem (show c ∈ cs from hc)
    simp only [node.sizeOf_spec, error.sizeOf_spec, skipped.sizeOf_spec]
    omega

theorem Built.of_mem {c : Tree} (h : t.Built) (hc : c ∈ t.children) : c.Built := by
  cases h with
  | leaf | missing => simp [children] at hc
  | node _ _ _ hcs | error _ _ hcs | skipped _ _ hcs => exact hcs c hc

theorem leaves_eq_of_ne_nil (h : t.children ≠ []) : t.leaves = leavesAll t.children := by
  cases t with
  | leaf | missing | finish => simp [children] at h
  | node | error | skipped => rfl

theorem reachAll_of_built {ts : List Tree} (h : ∀ t ∈ ts, t.Built) :
    reachAll ts = Lexeme.reachAll (leavesAll ts) :=
  reachAll_of_forall fun t ht => (h t ht).reach_eq

/-- A tree inside a well built one is well built, and lies after the lexemes before it. -/
theorem Lies.of_built (h : u.Lies p t place) (hb : t.Built) : u.Built ∧
    ∃ before after, t.leaves = before ++ u.leaves ++ after ∧
      p = place + Lexeme.reachAll before := by
  induction h with
  | self => exact ⟨hb, [], [], by simp, by simp [Lexeme.reachAll]⟩
  | @child t c place before after hc _ ih =>
    have hmem : ∀ b ∈ before ++ c :: after, b.Built := fun b hb' => hb.of_mem (hc ▸ hb')
    obtain ⟨hu, ls, ms, hleaves, hp⟩ := ih (hmem c (by simp))
    refine ⟨hu, leavesAll before ++ ls, ms ++ leavesAll after, ?_, ?_⟩
    · rw [leaves_eq_of_ne_nil (by simp [hc]), hc, leavesAll_append, leavesAll, hleaves]
      simp
    · rw [hp, reachAll_of_built fun b hb' => hmem b (by simp [hb']), Lexeme.reachAll_append,
        Extent.add_assoc']

theorem Built.not_isFile_of_mem {c : Tree} (h : t.Built) (hc : c ∈ t.children) : ¬ c.IsFile := by
  cases h with
  | leaf | missing => simp [children] at hc
  | node p cs hp hcs => exact Tree.not_isFile_of_mem hp hc
  | error cs hne hcs hfile | skipped cs hne hcs hfile => exact hfile c hc

/-- A whole file is no part of anything. -/
theorem Lies.not_isFile (h : u.Lies p t place) (hb : t.Built) (hf : ¬ t.IsFile) : ¬ u.IsFile := by
  induction h with
  | self => exact hf
  | child before after hc _ ih =>
    have hmem := hc ▸ List.mem_append_right before List.mem_cons_self
    exact ih (hb.of_mem hmem) (hb.not_isFile_of_mem hmem)

/-- A well built tree starts with its first lexeme, or else where it lies. -/
theorem Built.pad_eq (h : t.Built) : t.pad = 0 ∨ ∃ l ls, t.leaves = l :: ls ∧ t.pad = l.pad := by
  induction h with
  | leaf l => exact .inr ⟨l, [], rfl, rfl⟩
  | missing t ht => exact .inl rfl
  | node p cs hp hcs ih | error cs hne hcs hfile ih | skipped cs hne hcs hfile ih =>
    rcases cs with _ | ⟨c, cs⟩
    · exact .inl rfl
    · rcases ih c (by simp) with h | ⟨l, ls, hl, h⟩
      · exact .inl h
      · exact .inr ⟨l, ls ++ leavesAll cs, by simp [leaves, leavesAll, hl], h⟩

end Tree

namespace Node

variable {place : Extent} {field : Option Field} {t : Tree} {m : Node}

theorem sizeOf_lt_of_mem {n c : Node} (hc : c ∈ n.children) : sizeOf c < sizeOf n := by
  have := List.sizeOf_lt_of_mem hc
  cases n
  simp only [mk.sizeOf_spec] at this ⊢
  omega

/-- The node of a visible tree at a place. -/
def shownAt (place : Extent) (field : Option Field) (t : Tree) : Node :=
  ofTree t place (place + t.reach) field (under place none t)

theorem display_of_isVisible (hv : t.isVisible) : display place field t = [shownAt place field t] :=
  if_pos hv

theorem exists_of_mem_layoutAll {roles : Nat → Option Field} {inherited : Option Field} :
    ∀ {cs : List Tree} {i : Nat} {place : Extent}, m ∈ (layoutAll roles inherited i place cs).1 →
      ∃ before c after field, cs = before ++ c :: after ∧
        m ∈ display (place + Tree.reachAll before) field c
  | [], _, _, h => by simp [layoutAll_nil] at h
  | c :: cs, i, place, h => by
    rw [layoutAll_cons, List.mem_append] at h
    rcases h with h | h
    · exact ⟨[], c, cs, _, rfl, by simpa [Tree.reachAll] using h⟩
    · obtain ⟨before, d, after, f, rfl, hm⟩ := exists_of_mem_layoutAll h
      refine ⟨c :: before, d, after, f, rfl, ?_⟩
      rw [Tree.reachAll, ← Extent.add_assoc']
      exact hm

theorem display_subset_layoutAll (roles : Nat → Option Field) (inherited : Option Field) (i : Nat)
    (place : Extent) (before : List Tree) (c : Tree) (after : List Tree) :
    ∃ field, display (place + Tree.reachAll before) field c ⊆
      (layoutAll roles inherited i place (before ++ c :: after)).1 := by
  rw [layoutAll_append, layoutAll_cons]
  exact ⟨_, fun n hn => List.mem_append_right _ (List.mem_append_left _ hn)⟩

/-- What is shown in a tree is a visible tree inside it. -/
theorem exists_lies_of_mem {t : Tree} {place : Extent} {field : Option Field}
    (h : m ∈ (display place field t).flatMap nodes) :
    ∃ u p f, u.Lies p t place ∧ u.isVisible ∧ m = shownAt p f u := by
  have hunder : ∀ inherited, m ∈ (under place inherited t).flatMap nodes →
      ∃ u p f, u.Lies p t place ∧ u.isVisible ∧ m = shownAt p f u := by
    intro inherited hm
    obtain ⟨n, hn, hm⟩ := List.mem_flatMap.1 hm
    obtain ⟨before, c, after, f, hc, hn⟩ := exists_of_mem_layoutAll hn
    have hlt : sizeOf c < sizeOf t := Tree.sizeOf_lt_of_mem (by simp [hc])
    obtain ⟨u, p, g, hu, hv, rfl⟩ := exists_lies_of_mem (List.mem_flatMap.2 ⟨n, hn, hm⟩)
    exact ⟨u, p, g, .child before after hc hu, hv, rfl⟩
  unfold display at h
  split_ifs at h with hv
  · rw [List.flatMap_singleton, nodes_eq, List.mem_cons] at h
    rcases h with rfl | h
    · exact ⟨t, place, field, .self, hv, rfl⟩
    · exact hunder none h
  · exact hunder field h
termination_by sizeOf t

theorem exists_under_subset (place : Extent) (field : Option Field) (t : Tree) :
    ∃ inherited, ∀ n ∈ under place inherited t,
      n.nodes ⊆ (display place field t).flatMap nodes := by
  unfold display
  split_ifs
  · refine ⟨none, fun n hn m hm => ?_⟩
    rw [List.flatMap_singleton, nodes_eq]
    exact List.mem_cons_of_mem _ (List.mem_flatMap.2 ⟨n, hn, hm⟩)
  · exact ⟨field, fun n hn m hm => List.mem_flatMap.2 ⟨n, hn, hm⟩⟩

/-- A visible tree is shown, wherever it lies. -/
theorem exists_mem_of_lies {u : Tree} {p : Extent} (h : u.Lies p t place) (hv : u.isVisible)
    (field : Option Field) : ∃ f, shownAt p f u ∈ (display place field t).flatMap nodes := by
  induction h generalizing field with
  | self =>
    refine ⟨field, ?_⟩
    rw [display_of_isVisible hv, List.flatMap_singleton, nodes_eq]
    exact List.mem_cons_self
  | @child t c place before after hc _ ih =>
    obtain ⟨inherited, hnodes⟩ := exists_under_subset place field t
    obtain ⟨f', hsub⟩ := display_subset_layoutAll t.roles inherited 0 place before c after
    obtain ⟨f, hf⟩ := ih f'
    obtain ⟨n, hn, hm⟩ := List.mem_flatMap.1 hf
    rw [← hc] at hsub
    exact ⟨f, hnodes n (hsub hn) hm⟩

/-! ## Nesting -/

/-- Whether nodes stand in a row between two bytes, none over another. -/
def InRow : Nat → Nat → List Node → Prop
  | lo, hi, [] => lo ≤ hi
  | lo, hi, n :: ns =>
    lo ≤ n.start.bytes ∧ n.start.bytes ≤ n.stop.bytes ∧ InRow n.stop.bytes hi ns

theorem InRow.append : ∀ {ns ms : List Node} {lo mid hi : Nat}, InRow lo mid ns →
    InRow mid hi ms → InRow lo hi (ns ++ ms)
  | [], [], _, _, _, h, h' => Nat.le_trans h h'
  | [], _ :: _, _, _, _, h, h' => ⟨Nat.le_trans h h'.1, h'.2⟩
  | _ :: _, _, _, _, _, h, h' => ⟨h.1, h.2.1, h.2.2.append h'⟩

theorem InRow.le : ∀ {ns : List Node} {lo hi : Nat}, InRow lo hi ns → lo ≤ hi
  | [], _, _, h => h
  | _ :: _, _, _, h => Nat.le_trans h.1 (Nat.le_trans h.2.1 h.2.2.le)

theorem InRow.of_mem : ∀ {ns : List Node} {lo hi : Nat}, InRow lo hi ns → ∀ {n : Node}, n ∈ ns →
    lo ≤ n.start.bytes ∧ n.stop.bytes ≤ hi
  | c :: ns, lo, hi, h, n, hn => by
    rcases List.mem_cons.1 hn with rfl | hn
    · exact ⟨h.1, h.2.2.le⟩
    · have := h.2.2.of_mem hn
      have := h.1
      have := h.2.1
      omega

theorem InRow.pairwise : ∀ {ns : List Node} {lo hi : Nat}, InRow lo hi ns →
    ns.Pairwise fun a b => a.stop.bytes ≤ b.start.bytes
  | [], _, _, _ => .nil
  | _ :: _, _, _, h => List.pairwise_cons.2 ⟨fun _ hb => (h.2.2.of_mem hb).1, h.2.2.pairwise⟩

/-- Whether the children of every node stand in a row within it. -/
def Nested (n : Node) : Prop :=
  ∀ m ∈ n.nodes, InRow m.start.bytes m.stop.bytes m.children

theorem inRow_layoutAll {cs : List Tree} (h : ∀ c ∈ cs, ∀ place field,
      InRow (place + c.pad).bytes (place + c.reach).bytes (display place field c))
    (roles : Nat → Option Field) (inherited : Option Field) : ∀ (i : Nat) (place : Extent),
    InRow (place + Tree.padAll cs).bytes (place + Tree.reachAll cs).bytes
      (layoutAll roles inherited i place cs).1 := by
  induction cs with
  | nil =>
    intro i place
    exact Nat.le_refl _
  | cons c cs ih =>
    intro i place
    rw [layoutAll_cons]
    refine (h c (by simp) place _).append ?_
    have hcs := ih (fun d hd => h d (by simp [hd])) (if c.isExtra then i else i + 1)
      (place + c.reach)
    rw [Tree.reachAll, ← Extent.add_assoc', ← Tree.reach]
    have hgap : InRow (place + c.reach).bytes (place + c.reach + Tree.padAll cs).bytes [] := by
      simp [InRow]
    exact hgap.append hcs

theorem inRow_under_of {t : Tree} (place : Extent) (h : ∀ c ∈ t.children, ∀ place field,
      InRow (place + c.pad).bytes (place + c.reach).bytes (display place field c))
    (inherited : Option Field) :
    InRow (place + t.pad).bytes (place + t.reach).bytes (under place inherited t) := by
  have hrow := inRow_layoutAll h t.roles inherited 0 place
  cases t with
  | leaf | missing | finish => simp [under, Tree.children, layoutAll_nil, InRow, Tree.reach]
  | node | error | skipped =>
    rw [Tree.reach, Tree.pad, Tree.size, Tree.reachAll_eq]
    exact hrow

theorem inRow_display (t : Tree) (place : Extent) (field : Option Field) :
    InRow (place + t.pad).bytes (place + t.reach).bytes (display place field t) := by
  have hunder := inRow_under_of place fun c (hc : c ∈ t.children) =>
    have := Tree.sizeOf_lt_of_mem hc
    inRow_display c
  unfold display
  split_ifs
  · simp [InRow, ofTree, Tree.reach]
  · exact hunder field
termination_by sizeOf t

theorem inRow_under (t : Tree) (place : Extent) (inherited : Option Field) :
    InRow (place + t.pad).bytes (place + t.reach).bytes (under place inherited t) :=
  inRow_under_of place (fun c _ => inRow_display c) inherited

end Node

/-! ## Whole trees -/

namespace Tree

variable {input : Scan} {t u : Tree} {p : Extent}

theorem Whole.exists_children (h : t.Whole input) : ∃ cs,
    t.children = cs ++ [.finish input.trailing] ∧ (∀ c ∈ cs, c.Built) ∧
      leavesAll cs = input.lexemes := by
  cases h with
  | file p cs hp hb hl => exact ⟨cs, rfl, fun c hc => hb.of_mem hc, hl⟩
  | lost ts hbuilt hfile hl => exact ⟨ts, rfl, hbuilt, hl⟩

theorem Whole.isVisible (h : t.Whole input) : t.isVisible := by
  cases h with
  | file p cs hp hb hl => simp [Tree.isVisible, kind, hp, Kind.isVisible, Nonterminal.isVisible]
  | lost => rfl

theorem Whole.not_isFile_of_mem {c : Tree} (h : t.Whole input) (hc : c ∈ t.children) :
    ¬ c.IsFile := by
  have hfinish : ¬ (finish input.trailing).IsFile := by simp [IsFile, symbol?]
  cases h with
  | file p cs hp hb hl =>
    rcases List.mem_append.1 hc with hc | hc
    · exact hb.not_isFile_of_mem hc
    · rwa [List.mem_singleton.1 hc]
  | lost ts hbuilt hfile hl =>
    rcases List.mem_append.1 hc with hc | hc
    · exact hfile c hc
    · rwa [List.mem_singleton.1 hc]

/-- What lies below a whole tree, its end apart, is well built and lies after the lexemes before
it. -/
theorem Whole.lies_below (h : t.Whole input) {before after : List Tree} {c : Tree}
    (hc : t.children = before ++ c :: after) (hu : u.Lies p c (0 + reachAll before)) :
    (∃ blank, u = .finish blank) ∨ u.Built ∧ ¬ u.IsFile ∧ ∃ ls ms,
      input.lexemes = ls ++ u.leaves ++ ms ∧ p = Lexeme.reachAll ls := by
  have hfile := h.not_isFile_of_mem (hc ▸ List.mem_append_right before List.mem_cons_self)
  obtain ⟨cs, hcs, hb, hl⟩ := h.exists_children
  rw [hcs] at hc
  rcases List.eq_nil_or_concat after with rfl | ⟨after, x, rfl⟩
  · -- The end of the source has nothing inside.
    obtain ⟨-, hfinish⟩ := List.append_inj' hc rfl
    obtain rfl := List.singleton_inj.1 hfinish
    cases hu with
    | self => exact .inl ⟨_, rfl⟩
    | child before' after' hc' => simp [children] at hc'
  · rw [List.concat_eq_append, ← List.cons_append, ← List.append_assoc] at hc
    obtain ⟨rfl, -⟩ := List.append_inj' hc rfl
    obtain ⟨hub, ls, ms, hleaves, rfl⟩ := hu.of_built (hb c (by simp))
    refine .inr ⟨hub, hu.not_isFile (hb c (by simp)) hfile, leavesAll before ++ ls,
      ms ++ leavesAll after, ?_, ?_⟩
    · rw [← hl, leavesAll_append, leavesAll, hleaves]
      simp
    · rw [reachAll_of_built fun b hb' => hb b (by simp [hb']), Lexeme.reachAll_append,
        Extent.zero_add']

/-- What lies inside a whole tree, the tree itself and its end apart. -/
theorem Whole.lies (h : t.Whole input) (hu : u.Lies p t 0) : u = t ∧ p = 0 ∨
    (∃ blank, u = .finish blank) ∨ u.Built ∧ ∃ before after,
      input.lexemes = before ++ u.leaves ++ after ∧ p = Lexeme.reachAll before := by
  cases hu with
  | self => exact .inl ⟨rfl, rfl⟩
  | child before after hc hu =>
    rcases h.lies_below hc hu with hfinish | ⟨hb, -, hplace⟩
    · exact .inr (.inl hfinish)
    · exact .inr (.inr ⟨hb, hplace⟩)

/-- A whole tree starts with its first lexeme, at the end if there is none, or at the very
beginning. -/
theorem Whole.pad_cases (h : t.Whole input) :
    input.lexemes = [] ∧ t.pad = .ofChars input.trailing ∨ t.pad = 0 ∨
      ∃ l ls, input.lexemes = l :: ls ∧ t.pad = l.pad := by
  obtain ⟨cs, hcs, hb, hl⟩ := h.exists_children
  have hpad : t.pad = padAll (cs ++ [.finish input.trailing]) := by
    rw [← hcs]
    cases h <;> rfl
  rw [hpad, ← hl]
  rcases cs with _ | ⟨c, cs⟩
  · exact .inl ⟨rfl, rfl⟩
  · rcases (hb c (by simp)).pad_eq with h | ⟨l, ls, hleaves, h⟩
    · exact .inr (.inl h)
    · exact .inr (.inr ⟨l, ls ++ leavesAll cs, by simp [leavesAll, hleaves], h⟩)

theorem Whole.isIn_pad {source : List Char} (h : t.Whole (.ofChars source)) :
    t.pad.IsIn source := by
  rcases h.pad_cases with ⟨hnil, hpad⟩ | hpad | ⟨l, ls, hcons, hpad⟩
  · have hend := Scan.isIn_end source
    rw [hnil] at hend
    rw [hpad]
    simpa [Lexeme.reachAll] using hend
  · rw [hpad]
    exact ⟨[], List.nil_prefix, rfl⟩
  · rw [← List.nil_append (l :: ls)] at hcons
    rw [hpad, ← Extent.zero_add' l.pad]
    exact Scan.isIn_start hcons

theorem Whole.isIn_start {source : List Char} (h : t.Whole (.ofChars source)) (hu : u.Lies p t 0)
    (hv : u.isVisible) : (p + u.pad).IsIn source := by
  rcases h.lies hu with ⟨rfl, rfl⟩ | ⟨blank, rfl⟩ | ⟨hb, before, after, hl, rfl⟩
  · rw [Extent.zero_add']
    exact h.isIn_pad
  · cases hv
  · rcases hb.pad_eq with h | ⟨l, ls, hleaves, h⟩
    · rw [h, Extent.add_zero']
      exact Scan.isIn_reachAll (by rw [hl, List.append_assoc])
    · rw [hleaves, List.append_assoc, List.cons_append] at hl
      rw [h]
      exact Scan.isIn_start hl

end Tree

namespace Node

variable {input : Scan} {t : Tree} {m : Node}

theorem nodes_root (h : t.Whole input) : (root t).nodes = (display 0 none t).flatMap nodes := by
  rw [display_of_isVisible h.isVisible, List.flatMap_singleton, root_eq, shownAt]

/-- The nodes of a whole tree are the visible trees inside it, where they lie. -/
theorem exists_of_mem_root (h : t.Whole input) (hm : m ∈ (root t).nodes) :
    ∃ u p f, u.Lies p t 0 ∧ u.isVisible ∧ m = shownAt p f u := by
  rw [nodes_root h] at hm
  exact exists_lies_of_mem hm

theorem exists_mem_root (h : t.Whole input) {u : Tree} {p : Extent} (hu : u.Lies p t 0)
    (hv : u.isVisible) : ∃ f, shownAt p f u ∈ (root t).nodes := by
  rw [nodes_root h]
  exact exists_mem_of_lies hu hv none

theorem nested_root (h : t.Whole input) : (root t).Nested := by
  intro m hm
  obtain ⟨u, p, f, -, -, rfl⟩ := exists_of_mem_root h hm
  exact inRow_under u p none

/-- Every node starts at a place in the source. -/
theorem isIn_of_mem_root {source : List Char} (h : t.Whole (.ofChars source))
    (hm : m ∈ (root t).nodes) : m.start.IsIn source := by
  obtain ⟨u, p, f, hu, hv, rfl⟩ := exists_of_mem_root h hm
  exact h.isIn_start hu hv

end Node

end CalcTree
