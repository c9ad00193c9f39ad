import CalcTree.Node.Outline
import CalcTree.Proofs.Quoted
import CalcTree.Proofs.Round

/-!
# Reading outlines

An outline can be read back line by line, and the lines tell all that was written: the depth of a
node, its field, its kind, its range, and the text that a leaf shows.

A line feed stands at the end of a line and nowhere else, as names have none and texts are quoted.
Within a line each part tells where it ends: names are made of letters, so the first other character
ends them, digits end before `-` or `]`, and a quoted text finds its own end. A field is followed by
a colon, a kind never is.
-/

namespace CalcTree

/-- What a line of an outline tells. The kind tells also whether the node has a name. -/
structure Line where
  depth : Nat
  field : Option Field
  kind : Kind
  start : Nat
  stop : Nat
  /-- What is shown of the text, for leaves only. -/
  text : Option (List Char)
deriving DecidableEq

namespace Line

/-! ## Writing -/

def writtenField (field : Option Field) : List Char :=
  field.elim [] fun f => f.label.toList ++ ": ".toList

def writtenKind (kind : Kind) : List Char :=
  if kind.isNamed then kind.name.toList else Text.Quoted.encode kind.name.toList

def writtenRange (start stop : Nat) : List Char :=
  " [".toList ++ (Node.decimal start ++ ("-".toList ++ (Node.decimal stop ++ "]".toList)))

def writtenText (text : Option (List Char)) : List Char :=
  text.elim [] fun cs => ' ' :: Text.Quoted.encode cs

/-- A line as it stands in an outline, without the line feed. -/
def written (l : Line) : List Char :=
  Node.indent l.depth ++ (writtenField l.field ++ (writtenKind l.kind ++
    (writtenRange l.start l.stop ++ writtenText l.text)))

/-! ## Reading -/

/-- The characters of the names of fields and of kinds that have one. -/
def isLetter (c : Char) : Bool :=
  c.isAlpha || c == '_'

def readField (cs : List Char) : Option Field × List Char :=
  match cs.dropWhile isLetter with
  | ':' :: ' ' :: rest => (Field.ofLabel? (String.ofList (cs.takeWhile isLetter)), rest)
  | _ => (none, cs)

def kindOf? (name : List Char) (named : Bool) : Option Kind :=
  (.error :: .skipped :: Kind.all).find? fun k => k.isNamed == named && k.name.toList == name

def readKind? (cs : List Char) : Option (Kind × List Char) :=
  match Text.Quoted.read? cs with
  | some (name, rest) => (kindOf? name false).map (·, rest)
  | none => (kindOf? (cs.takeWhile isLetter) true).map (·, cs.dropWhile isLetter)

def readNumber (cs : List Char) : Nat × List Char :=
  (Nat.ofDigitChars 10 (cs.takeWhile Char.isDigit) 0, cs.dropWhile Char.isDigit)

def readRange? (cs : List Char) : Option (Nat × Nat × List Char) := do
  let (start, afterStart) := readNumber (← cs.dropPrefix? " [".toList)
  let (stop, afterStop) := readNumber (← afterStart.dropPrefix? "-".toList)
  let rest ← afterStop.dropPrefix? "]".toList
  return (start, stop, rest)

def readText? : List Char → Option (Option (List Char))
  | [] => some none
  | ' ' :: cs => (Text.Quoted.read? cs).bind fun (text, rest) =>
    if rest.isEmpty then some (some text) else none
  | _ => none

def read? (cs : List Char) : Option Line := do
  let (field, afterField) := readField (cs.dropWhile (· == ' '))
  let (kind, afterKind) ← readKind? afterField
  let (start, stop, afterRange) ← readRange? afterKind
  let text ← readText? afterRange
  return ⟨(cs.takeWhile (· == ' ')).length / 2, field, kind, start, stop, text⟩

/-- Reads a whole outline. -/
def readAll? (out : List Char) : Option (List Line) :=
  (out.splitOn '\n').dropLast.mapM read?

/-! ## Every part is read back -/

/-- A run of characters of one sort ends where another sort begins. -/
theorem span_append {p : Char → Bool} {xs : List Char} (rest : List Char) (hxs : ∀ c ∈ xs, p c)
    (hrest : ∀ c ∈ rest.head?, p c = false) :
    (xs ++ rest).takeWhile p = xs ∧ (xs ++ rest).dropWhile p = rest := by
  rw [List.takeWhile_append_of_pos hxs, List.dropWhile_append_of_pos hxs]
  cases rest with
  | nil => simp
  | cons c rest => simp [hrest c rfl]

theorem dropPrefix?_append (xs rest : List Char) : (xs ++ rest).dropPrefix? xs = some rest :=
  List.dropPrefix?_eq_some_iff.2 ⟨xs, rfl, by simp⟩

theorem isLetter_of_mem_label (f : Field) : ∀ c ∈ f.label.toList, isLetter c := by
  have hall : f.label.toList.all isLetter := by cases f <;> decide +kernel
  exact List.all_eq_true.1 hall

theorem isLetter_of_mem_name (k : Kind) (h : k.isNamed) : ∀ c ∈ k.name.toList, isLetter c := by
  have hall : k.name.toList.all isLetter := by
    revert h
    cases k with
    | terminal t => cases t <;> decide +kernel
    | nonterminal n => cases n <;> decide +kernel
    | finish | error | skipped => decide +kernel
  exact List.all_eq_true.1 hall

theorem name_ne_nil : ∀ k : Kind, k.name.toList ≠ []
  | .terminal t => by cases t <;> decide +kernel
  | .nonterminal n => by cases n <;> decide +kernel
  | .finish | .error | .skipped => by decide +kernel

theorem ofLabel?_label (f : Field) : Field.ofLabel? f.label = some f := by
  cases f <;> decide +kernel

theorem kindOf?_name : ∀ k : Kind, kindOf? k.name.toList k.isNamed = some k
  | .terminal t => by cases t <;> decide +kernel
  | .nonterminal n => by cases n <;> decide +kernel
  | .finish | .error | .skipped => by decide +kernel

theorem readField_append (field : Option Field) {rest : List Char}
    (hrest : ∀ more, rest.dropWhile isLetter ≠ ':' :: more) :
    readField (writtenField field ++ rest) = (field, rest) := by
  cases field with
  | none =>
    unfold readField
    split
    · rename_i more h
      exact absurd h (hrest _)
    · rfl
  | some f =>
    have h : writtenField (some f) ++ rest = f.label.toList ++ ':' :: ' ' :: rest := by
      simp [writtenField]
    obtain ⟨htake, hdrop⟩ := span_append (':' :: ' ' :: rest) (isLetter_of_mem_label f)
      (by simp [isLetter])
    simp only [h, readField, hdrop, htake, String.ofList_toList, ofLabel?_label]

theorem readKind?_append (kind : Kind) (rest : List Char)
    (hrest : ∀ c ∈ rest.head?, isLetter c = false) :
    readKind? (writtenKind kind ++ rest) = some (kind, rest) := by
  unfold writtenKind readKind?
  split_ifs with h
  · have hnone : Text.Quoted.read? (kind.name.toList ++ rest) = none := by
      obtain ⟨c, cs, hname⟩ := List.exists_cons_of_ne_nil (name_ne_nil kind)
      have hc : isLetter c := isLetter_of_mem_name kind h c (by rw [hname]; exact .head _)
      rw [hname, List.cons_append]
      unfold Text.Quoted.read?
      split
      · rename_i hquote
        rw [(List.cons.inj hquote).1] at hc
        exact absurd hc (by decide)
      · rfl
    obtain ⟨htake, hdrop⟩ := span_append rest (isLetter_of_mem_name kind h) hrest
    rw [hnone, htake, hdrop, ← h, kindOf?_name, Option.map_some]
  · rw [Text.Quoted.read?_encode_append, ← Bool.eq_false_iff.2 h]
    simp only [kindOf?_name, Option.map_some]

theorem readNumber_append (n : Nat) (rest : List Char)
    (hrest : ∀ c ∈ rest.head?, c.isDigit = false) :
    readNumber (Node.decimal n ++ rest) = (n, rest) := by
  have hdigits : ∀ c ∈ Nat.toDigits 10 n, c.isDigit := fun c hc =>
    Nat.isDigit_of_mem_toDigits (by decide) (by decide) hc
  obtain ⟨htake, hdrop⟩ := span_append rest hdigits hrest
  rw [readNumber, Node.decimal, htake, hdrop, Nat.ofDigitChars_ten_toDigits]

theorem readRange?_append (start stop : Nat) (rest : List Char) :
    readRange? (writtenRange start stop ++ rest) = some (start, stop, rest) := by
  have hstart := readNumber_append start
    ("-".toList ++ (Node.decimal stop ++ ("]".toList ++ rest))) (by simp)
  have hstop := readNumber_append stop ("]".toList ++ rest) (by simp)
  simp only [readRange?, writtenRange, List.append_assoc, dropPrefix?_append, Option.bind_eq_bind,
    Option.bind_some, hstart, hstop, Option.pure_def]

theorem readText?_written (text : Option (List Char)) :
    readText? (writtenText text) = some text := by
  cases text with
  | none => rfl
  | some cs =>
    have h : writtenText (some cs) = ' ' :: (Text.Quoted.encode cs ++ []) := by simp [writtenText]
    rw [h, readText?, Text.Quoted.read?_encode_append]
    rfl

/-- A kind is a word of letters or starts with a quote. -/
theorem writtenKind_cases (kind : Kind) :
    (∃ c cs, writtenKind kind = c :: cs ∧ ∀ x ∈ c :: cs, isLetter x) ∨
    ∃ cs, writtenKind kind = '"' :: cs := by
  unfold writtenKind
  split_ifs with h
  · obtain ⟨c, cs, hname⟩ := List.exists_cons_of_ne_nil (name_ne_nil kind)
    exact .inl ⟨c, cs, hname, hname ▸ isLetter_of_mem_name kind h⟩
  · exact .inr ⟨_, rfl⟩

theorem dropWhile_writtenKind_append (kind : Kind) {rest : List Char}
    (hrest : rest.head? = some ' ') (more : List Char) :
    (writtenKind kind ++ rest).dropWhile isLetter ≠ ':' :: more := by
  rcases writtenKind_cases kind with ⟨c, cs, h, hletter⟩ | ⟨cs, h⟩
  · rw [h, (span_append rest hletter (by simp [hrest, isLetter])).2]
    rintro rfl
    simp at hrest
  · simp [h, isLetter]

theorem head_writtenField_append (field : Option Field) (kind : Kind) (rest : List Char) :
    ∀ c ∈ (writtenField field ++ (writtenKind kind ++ rest)).head?, (c == ' ') = false := by
  have hletter : ∀ c : Char, isLetter c → (c == ' ') = false := by
    rintro c hc
    rw [beq_eq_false_iff_ne]
    rintro rfl
    exact absurd hc (by decide)
  cases field with
  | none =>
    rcases writtenKind_cases kind with ⟨c, cs, h, hcs⟩ | ⟨cs, h⟩
    · simpa [writtenField, h] using hletter c (hcs c (.head _))
    · simp [writtenField, h]
  | some f => cases f <;> simp [writtenField, Field.label]

theorem span_written (l : Line) : l.written.takeWhile (· == ' ') = Node.indent l.depth ∧
    l.written.dropWhile (· == ' ') = writtenField l.field ++ (writtenKind l.kind ++
      (writtenRange l.start l.stop ++ writtenText l.text)) :=
  span_append _ (by simp [Node.indent]) (head_writtenField_append l.field l.kind _)

/-- A line is read back from the way it is written. -/
theorem read?_written (l : Line) : read? l.written = some l := by
  have hrest : (writtenRange l.start l.stop ++ writtenText l.text).head? = some ' ' := rfl
  have hfield := readField_append l.field (dropWhile_writtenKind_append l.kind hrest)
  have hkind := readKind?_append l.kind
    (writtenRange l.start l.stop ++ writtenText l.text) (by simp [hrest, isLetter])
  simp only [read?, (span_written l).1, (span_written l).2, hfield, hkind, readRange?_append,
    readText?_written, Option.bind_eq_bind, Option.bind_some, Option.pure_def]
  simp [Node.indent]

/-! ## Lines -/

theorem line_feed_not_mem_of_isLetter {cs : List Char} (h : ∀ c ∈ cs, isLetter c) : '\n' ∉ cs :=
  fun hmem => absurd (h _ hmem) (by decide)

theorem line_feed_not_mem_decimal (n : Nat) : '\n' ∉ Node.decimal n := fun hmem =>
  absurd (Nat.isDigit_of_mem_toDigits (by decide) (by decide) hmem) (by decide)

theorem line_feed_not_mem_written (l : Line) : '\n' ∉ l.written := by
  have hfield : '\n' ∉ writtenField l.field := by
    cases l.field with
    | none => simp [writtenField]
    | some f =>
      simpa [writtenField] using line_feed_not_mem_of_isLetter (isLetter_of_mem_label f)
  have hkind : '\n' ∉ writtenKind l.kind := by
    unfold writtenKind
    split_ifs with h
    · exact line_feed_not_mem_of_isLetter (isLetter_of_mem_name l.kind h)
    · exact Text.Quoted.line_feed_not_mem_encode _
  have hrange : '\n' ∉ writtenRange l.start l.stop := by
    simp [writtenRange, line_feed_not_mem_decimal]
  have htext : '\n' ∉ writtenText l.text := by
    cases l.text <;> simp [writtenText, Text.Quoted.line_feed_not_mem_encode]
  simp [written, Node.indent, hfield, hkind, hrange, htext]

theorem splitOn_written : ∀ ls : List Line,
    (ls.flatMap fun l => l.written ++ ['\n']).splitOn '\n' = ls.map written ++ [[]]
  | [] => rfl
  | l :: ls => by
    rw [List.flatMap_cons, List.append_assoc, List.singleton_append,
      List.splitOn_append_cons_self_of_not_mem (line_feed_not_mem_written l), splitOn_written ls]
    rfl

theorem mapM_of_forall_some {α β : Type} {f : α → Option β} {g : α → β} {xs : List α}
    (h : ∀ x ∈ xs, f x = some (g x)) : xs.mapM f = some (xs.map g) := by
  induction xs with
  | nil => rfl
  | cons x xs ih =>
    rw [List.forall_mem_cons] at h
    rw [List.mapM_cons, h.1, ih h.2]
    rfl

theorem mapM_of_mem_none {α β : Type} {f : α → Option β} {xs : List α} {x : α} (hx : x ∈ xs)
    (h : f x = none) : xs.mapM f = none := by
  induction xs with
  | nil => cases hx
  | cons y xs ih =>
    rw [List.mapM_cons]
    rcases List.mem_cons.1 hx with rfl | hx
    · rw [h]
      rfl
    · rw [ih hx]
      simp

/-- All lines are read back, however many there are. -/
theorem readAll?_written (ls : List Line) :
    readAll? (ls.flatMap fun l => l.written ++ ['\n']) = some ls := by
  rw [readAll?, splitOn_written, List.dropLast_concat, List.mapM_map,
    mapM_of_forall_some (f := read? ∘ written) (g := id) fun l _ => read?_written l, List.map_id]

end Line

namespace Node

/-- What the line of a node tells. -/
def line (text : List Char) (depth : Nat) (n : Node) : Line :=
  ⟨depth, n.field, n.kind, n.start.bytes, n.stop.bytes,
    if n.children.isEmpty then n.leafText? text else none⟩

/-- What an outline tells: all nodes, parents before children. -/
def lines (text : List Char) (root : Node) : List Line :=
  (root.entries 0).map fun (depth, n) => n.line text depth

variable {text out : List Char} {root : Node}

/-- Whether the outline has a text to show for a node; only leaves need one. -/
def IsShown (text : List Char) (n : Node) : Prop :=
  n.children = [] → (n.leafText? text).isSome

instance (text : List Char) : DecidablePred (IsShown text) := fun n =>
  inferInstanceAs (Decidable (n.children = [] → _))

theorem written_line (depth : Nat) (n : Node) (shown : Option (List Char)) :
    (⟨depth, n.field, n.kind, n.start.bytes, n.stop.bytes, shown⟩ : Line).written =
      n.outlineHead depth ++ Line.writtenText shown := by
  have hkind : Line.writtenKind n.kind = n.outlineKind := rfl
  simp only [Line.written, Line.writtenField, Line.writtenRange, outlineHead, hkind,
    List.append_assoc]

theorem outlineLine?_of_isShown (depth : Nat) {n : Node} (h : n.IsShown text) :
    n.outlineLine? text depth = some ((n.line text depth).written ++ ['\n']) := by
  rw [line, written_line, outlineLine?]
  rcases hcs : n.children with _ | ⟨c, cs⟩
  · obtain ⟨shown, hshown⟩ := Option.isSome_iff_exists.1 (h hcs)
    simp [hshown, Line.writtenText]
  · simp [Line.writtenText]

theorem outlineLine?_of_not_isShown (depth : Nat) {n : Node} (h : ¬ n.IsShown text) :
    n.outlineLine? text depth = none := by
  rw [IsShown, Classical.not_imp, Option.not_isSome_iff_eq_none] at h
  simp [outlineLine?, h]

/-- An outline is written exactly if all leaves can be shown, and then it has one line for each
node. -/
theorem outline?_eq_some_iff : root.outline? text = some out ↔
    (∀ n ∈ root.nodes, n.IsShown text) ∧
      out = (root.lines text).flatMap fun l => l.written ++ ['\n'] := by
  rw [outline?, Cursor.walk_eq, Option.bind_some]
  by_cases h : ∀ e ∈ root.entries 0, e.2.IsShown text
  · rw [Line.mapM_of_forall_some fun e he => outlineLine?_of_isShown e.1 (h e he), Option.map_some,
      Option.some_inj, ← List.flatMap_def, lines, List.flatMap_map, eq_comm]
    exact (and_iff_right (List.forall_mem_map.2 h)).symm
  · push Not at h
    obtain ⟨e, he, hshown⟩ := h
    rw [Line.mapM_of_mem_none he (outlineLine?_of_not_isShown e.1 hshown)]
    exact iff_of_false (by simp) fun hall => hshown (hall.1 e.2 (List.mem_map_of_mem he))

/-- The outline of any tree over any text can be read back, if it can be written at all. The walk
that writes it comes to an end and counts the depths right. There is one line for each node, parents
before children, with twice as many spaces in front as the node is deep; and the outline alone tells
what was written about each node, so no two trees that differ in that have the same outline. -/
theorem outline_reads_back (h : root.outline? text = some out) :
    Cursor.walk root = some (root.entries 0) ∧
    (∃ bodies : List (List Char), out = bodies.flatMap (· ++ ['\n']) ∧
      (∀ body ∈ bodies, '\n' ∉ body) ∧
      bodies.map (fun body => (body.takeWhile (· == ' ')).length) =
        (root.entries 0).map fun (depth, _) => 2 * depth) ∧
    Line.readAll? out = some (root.lines text) ∧
    ∀ (other : Node) (text' : List Char), other.outline? text' = some out →
      other.lines text' = root.lines text := by
  have hread : ∀ (other : Node) (text' : List Char), other.outline? text' = some out →
      Line.readAll? out = some (other.lines text') := by
    intro other text' hother
    rw [(outline?_eq_some_iff.1 hother).2, Line.readAll?_written]
  refine ⟨Cursor.walk_eq root, ⟨(root.lines text).map Line.written, ?_, ?_, ?_⟩, hread root text h,
    fun other text' hother => ?_⟩
  · rw [(outline?_eq_some_iff.1 h).2, List.flatMap_map]
  · exact List.forall_mem_map.2 fun l _ => l.line_feed_not_mem_written
  · rw [lines, List.map_map, List.map_map]
    refine List.map_congr_left fun e _ => ?_
    simp [(Line.span_written _).1, indent, line]
  · exact Option.some_inj.1 ((hread other text' hother).symm.trans (hread root text h))

theorem outline_of_name_reads_back : ∃ d out, (Document.parse "abc").value = .ok d ∧
    d.root.outline? "\"\n\\".toList = some out ∧
    ∃ ls, Line.readAll? out = some ls ∧ ls.length = 5 ∧
      ls.getLast? = some ⟨4, none, .terminal .identifier, 0, 3, some ['"', '\n', '\\']⟩ := by
  obtain ⟨d, h, hshown, hlines⟩ := Document.exists_of_within 1000 "abc"
    (fun d => (∀ n ∈ d.root.nodes, n.IsShown "\"\n\\".toList) ∧
      (d.root.lines "\"\n\\".toList).length = 5 ∧
      (d.root.lines "\"\n\\".toList).getLast? =
        some ⟨4, none, .terminal .identifier, 0, 3, some ['"', '\n', '\\']⟩)
    (by decide +kernel)
  have hout := outline?_eq_some_iff.2 ⟨hshown, rfl⟩
  exact ⟨d, _, h, hout, _, (outline_reads_back hout).2.2.1, hlines⟩

end Node

end CalcTree
