import CalcTree.Proofs.Outline
import CalcTree.Proofs.Spans

/-!
# Texts of leaves

What an outline shows of a text are the bytes in the ranges of the leaves, where these bytes are
those of characters (`Slice.ofRange_eq`). Over its own source they always are, as every node starts
and ends between characters. Over another text a leaf may end after the text does, and then there is
no outline, or it may cut a character in two, and then a stand-in is shown for it
(`Document.outline_shows_text`).
-/

namespace CalcTree

namespace Slice

variable {cs ds : List Char} {text : String} {start stop n : Nat}

theorem byteSize_eq (cs : List Char) : byteSize cs = (String.ofList cs).utf8ByteSize := by
  induction cs with
  | nil => rfl
  | cons c cs ih =>
    rw [byteSize, ih, ← List.singleton_append, String.ofList_append, String.utf8ByteSize_append]
    simp

theorem byteSize_append (cs ds : List Char) :
    byteSize (cs ++ ds) = byteSize cs + byteSize ds := by
  simp [byteSize_eq, String.ofList_append]

theorem exists_byteSize_cons (c : Char) (cs : List Char) : ∃ k, byteSize (c :: cs) = k + 1 ∧
    c.utf8Size ≤ k + 1 ∧ k + 1 - c.utf8Size = byteSize cs := by
  obtain ⟨k, hk⟩ := Nat.exists_eq_add_of_lt c.utf8Size_pos
  refine ⟨k + byteSize cs, ?_, ?_, ?_⟩
  · rw [byteSize]
    omega
  · omega
  · omega

theorem dropBytes?_append (pre cs : List Char) :
    dropBytes? (byteSize pre) (pre ++ cs) = some cs := by
  induction pre with
  | nil => rw [byteSize, List.nil_append, dropBytes?]
  | cons c pre ih =>
    obtain ⟨k, hsize, hle, hrest⟩ := exists_byteSize_cons c pre
    rw [hsize, List.cons_append, dropBytes?, if_pos hle, hrest, ih]

theorem takeBytes?_append (ds post : List Char) :
    takeBytes? (byteSize ds) (ds ++ post) = some ds := by
  induction ds with
  | nil => rw [byteSize, takeBytes?]
  | cons c ds ih =>
    obtain ⟨k, hsize, hle, hrest⟩ := exists_byteSize_cons c ds
    rw [hsize, List.cons_append, takeBytes?, if_pos hle, hrest, ih, Option.map_some]

theorem exists_of_dropBytes? (h : dropBytes? n cs = some ds) :
    ∃ pre, cs = pre ++ ds ∧ byteSize pre = n := by
  fun_induction dropBytes? n cs with
  | case1 cs => exact ⟨[], by simpa using h, rfl⟩
  | case2 => cases h
  | case3 n c cs hc ih =>
    obtain ⟨pre, rfl, hpre⟩ := ih h
    refine ⟨c :: pre, rfl, ?_⟩
    rw [byteSize]
    omega
  | case4 => cases h

theorem exists_of_takeBytes? (h : takeBytes? n cs = some ds) :
    ∃ post, cs = ds ++ post ∧ byteSize ds = n := by
  fun_induction takeBytes? n cs generalizing ds with
  | case1 cs =>
    cases h
    exact ⟨cs, rfl, rfl⟩
  | case2 => cases h
  | case3 n c cs hc ih =>
    obtain ⟨es, hes, rfl⟩ := Option.map_eq_some_iff.1 h
    obtain ⟨post, rfl, hpost⟩ := ih hes
    refine ⟨post, rfl, ?_⟩
    rw [byteSize]
    omega
  | case4 => cases h

/-- The bytes of a run of characters are those of these characters. -/
theorem extract_append (pre ds post : List Char) :
    (String.ofList (pre ++ (ds ++ post))).toUTF8.extract (byteSize pre)
      (byteSize pre + byteSize ds) = (String.ofList ds).toUTF8 := by
  simp only [String.toUTF8_eq_toByteArray, String.ofList_append, String.toByteArray_append]
  rw [← Nat.add_zero (byteSize pre), Nat.add_assoc,
    ByteArray.extract_append_size_add' (byteSize_eq pre), Nat.zero_add,
    ByteArray.extract_append_eq_left (byteSize_eq ds)]

theorem fromUTF8?_toUTF8 (s : String) : String.fromUTF8? s.toUTF8 = some s := by
  rw [String.fromUTF8?, String.toUTF8_eq_toByteArray, dif_pos s.isValidUTF8]
  rfl

theorem exists_of_isValid (h : String.Pos.Raw.IsValid text ⟨n⟩) :
    ∃ pre, pre <+: text.toList ∧ byteSize pre = n := by
  obtain ⟨s, s', rfl, hn⟩ := String.Pos.Raw.isValid_iff_exists_append.1 h
  refine ⟨s.toList, ⟨s'.toList, String.toList_append.symm⟩, ?_⟩
  rw [byteSize_eq, String.ofList_toList]
  exact (congrArg String.Pos.Raw.byteIdx hn).symm

/-- Bytes that encode characters are those of a run of characters of the text. -/
theorem exists_append_of_isValidUTF8 (hlt : start < stop) (hstop : stop ≤ text.utf8ByteSize)
    (h : (text.toUTF8.extract start stop).IsValidUTF8) : ∃ pre ds post,
      text.toList = pre ++ (ds ++ post) ∧ byteSize pre = start ∧ byteSize ds = stop - start := by
  rcases (String.Pos.Raw.isValidUTF8_extract_iff ⟨start⟩ ⟨stop⟩ hlt.le hstop).1 h with
    heq | ⟨hs, he⟩
  · exact absurd (congrArg String.Pos.Raw.byteIdx heq) hlt.ne
  obtain ⟨pre, hpre, rfl⟩ := exists_of_isValid hs
  obtain ⟨long, hlong, rfl⟩ := exists_of_isValid he
  -- Of two beginnings of a text, the one of fewer bytes is a beginning of the other.
  obtain ⟨ds, rfl⟩ : pre <+: long := by
    refine (List.prefix_or_prefix_of_prefix hpre hlong).resolve_right fun hback => ?_
    obtain ⟨more, rfl⟩ := hback
    rw [byteSize_append] at hlt
    omega
  obtain ⟨post, hpost⟩ := hlong
  refine ⟨pre, ds, post, by rw [← hpost, List.append_assoc], rfl, ?_⟩
  rw [byteSize_append]
  omega

/-- A range that ends within a text gives the characters that its bytes encode, if they encode
any. -/
theorem ofRange_eq (hle : start ≤ stop) (hstop : stop ≤ text.utf8ByteSize) :
    ofRange text.toList start stop =
      match String.fromUTF8? (text.toUTF8.extract start stop) with
      | some s => .chars s.toList
      | none => .splitCharacter := by
  have hsize : ¬ byteSize text.toList < stop := by
    rw [byteSize_eq, String.ofList_toList]
    omega
  rw [ofRange, if_neg hsize]
  split_ifs with heq
  · have hempty : text.toUTF8.extract start stop = "".toUTF8 := by simp [heq]
    rw [hempty, fromUTF8?_toUTF8]
    rfl
  rcases hcut : (dropBytes? start text.toList).bind (takeBytes? (stop - start)) with _ | ds
  · have hnot : ¬ (text.toUTF8.extract start stop).IsValidUTF8 := by
      intro hvalid
      obtain ⟨pre, ds, post, htext, rfl, hds⟩ :=
        exists_append_of_isValidUTF8 (lt_of_le_of_ne hle heq) hstop hvalid
      rw [htext, dropBytes?_append, Option.bind_some, ← hds, takeBytes?_append] at hcut
      cases hcut
    rw [String.fromUTF8?, dif_neg hnot]
  · obtain ⟨rest, hdrop, htake⟩ := Option.bind_eq_some_iff.1 hcut
    obtain ⟨pre, htext, rfl⟩ := exists_of_dropBytes? hdrop
    obtain ⟨post, rfl, hds⟩ := exists_of_takeBytes? htake
    have hstop' : stop = byteSize pre + byteSize ds := by omega
    have hbytes : text.toUTF8.extract (byteSize pre) stop = (String.ofList ds).toUTF8 := by
      rw [← extract_append pre ds post, ← htext, String.ofList_toList, hstop']
    rw [hbytes, fromUTF8?_toUTF8]
    simp

theorem ofRange_eq_splitCharacter_iff (hle : start ≤ stop) (hstop : stop ≤ text.utf8ByteSize) :
    ofRange text.toList start stop = .splitCharacter ↔
      ¬ (text.toUTF8.extract start stop).IsValidUTF8 := by
  rw [ofRange_eq hle hstop, String.fromUTF8?]
  split_ifs with h
  · exact iff_of_false (by simp) (not_not_intro h)
  · exact iff_of_true rfl h

end Slice

namespace Node

/-- The bytes of a text in the range of a node. -/
def bytesIn (text : String) (n : Node) : ByteArray :=
  text.toUTF8.extract n.start.bytes n.stop.bytes

/-- What is shown of a text for a leaf: the characters in its range, or the stand-in. -/
def shown (text : String) (n : Node) : List Char :=
  match String.fromUTF8? (n.bytesIn text) with
  | some s => s.toList
  | none => standIn

/-- An outline in which the leaves show what they are told to. -/
def outlined (shows : Node → List Char) (root : Node) : List Char :=
  (root.entries 0).flatMap fun (depth, n) =>
    (⟨depth, n.field, n.kind, n.start.bytes, n.stop.bytes,
      if n.children.isEmpty then some (shows n) else none⟩ : Line).written ++ ['\n']

variable {text : String} {n root : Node}

theorem leafText?_eq (hle : n.start.bytes ≤ n.stop.bytes) : n.leafText? text.toList =
    if text.utf8ByteSize < n.stop.bytes then none else some (n.shown text) := by
  unfold leafText?
  split_ifs with h
  · rw [Slice.ofRange, if_pos (by rwa [Slice.byteSize_eq, String.ofList_toList])]
  · rw [Slice.ofRange_eq hle (by omega), shown, bytesIn]
    cases String.fromUTF8? (text.toUTF8.extract n.start.bytes n.stop.bytes) <;> rfl

theorem isShown_iff (hle : n.start.bytes ≤ n.stop.bytes) :
    n.IsShown text.toList ↔ (n.children = [] → n.stop.bytes ≤ text.utf8ByteSize) := by
  rw [IsShown, leafText?_eq hle]
  split_ifs with h
  · simp [Nat.not_le.2 h]
  · simp [Nat.not_lt.1 h]

/-- Where every leaf ends within the text, the outline shows for each what is in its range. -/
theorem outline?_eq_some_outlined (hle : ∀ n ∈ root.nodes, n.start.bytes ≤ n.stop.bytes)
    (hstop : ∀ n ∈ root.nodes, n.children = [] → n.stop.bytes ≤ text.utf8ByteSize) :
    root.outline? text.toList = some (root.outlined (shown text)) := by
  refine outline?_eq_some_iff.2 ⟨fun n hn => (isShown_iff (hle n hn)).2 (hstop n hn), ?_⟩
  rw [outlined, lines, List.flatMap_map]
  refine List.flatMap_congr fun e he => ?_
  have hn : e.2 ∈ root.nodes := List.mem_map_of_mem he
  simp only [line]
  by_cases hleaf : e.2.children = []
  · rw [leafText?_eq (hle _ hn), if_neg (Nat.not_lt.2 (hstop _ hn hleaf))]
  · rw [if_neg (by simpa using hleaf), if_neg (by simpa using hleaf)]

theorem outline?_eq_none_iff (hle : ∀ n ∈ root.nodes, n.start.bytes ≤ n.stop.bytes) :
    root.outline? text.toList = none ↔
      ∃ n ∈ root.nodes, n.children = [] ∧ text.utf8ByteSize < n.stop.bytes := by
  constructor
  · intro hnone
    by_contra hall
    push Not at hall
    rw [outline?_eq_some_outlined hle hall] at hnone
    cases hnone
  · rintro ⟨n, hn, hleaf, hlt⟩
    rw [Option.eq_none_iff_forall_ne_some]
    intro out hout
    have hshown := (outline?_eq_some_iff.1 hout).1 n hn
    have := (isShown_iff (hle n hn)).1 hshown hleaf
    omega

end Node

namespace Document

variable {source : String} {d : Document}

/-- A tree has an outline over its own source, in which every leaf shows the bytes in its range.
Over another text it has one exactly if no leaf ends after the text does, and then the stand-in is
shown for those leaves in whose range the bytes do not encode characters, and only for them. -/
theorem outline_shows_text (h : (parse source).value = .ok d) :
    d.root.outline? source.toList = some (d.root.outlined (Node.shown source)) ∧
    (∀ n ∈ d.root.nodes, n.children = [] → ∃ s : String, s.toUTF8 = n.bytesIn source ∧
      Slice.ofRange source.toList n.start.bytes n.stop.bytes = .chars s.toList ∧
      n.shown source = s.toList) ∧
    ∀ text : String,
      (d.root.outline? text.toList = none ↔
        ∃ n ∈ d.root.nodes, n.children = [] ∧ text.utf8ByteSize < n.stop.bytes) ∧
      ∀ out, d.root.outline? text.toList = some out →
        out = d.root.outlined (Node.shown text) ∧
        ∀ n ∈ d.root.nodes, n.children = [] →
          (Slice.ofRange text.toList n.start.bytes n.stop.bytes = .splitCharacter ↔
            ¬ (n.bytesIn text).IsValidUTF8) := by
  obtain ⟨t, -, hroot, hwhole⟩ := whole_of_parse h
  have hle : ∀ n ∈ d.root.nodes, n.start.bytes ≤ n.stop.bytes := fun n hn =>
    (Node.nested_root hwhole n (hroot ▸ hn)).le
  have hvalid : ∀ n ∈ d.root.nodes, String.Pos.Raw.IsValid source ⟨n.start.bytes⟩ ∧
      String.Pos.Raw.IsValid source ⟨n.stop.bytes⟩ := fun n hn =>
    ⟨(Node.isIn_of_mem_root hwhole (hroot ▸ hn)).isValid,
      (Node.isIn_stop hwhole (hroot ▸ hn)).isValid⟩
  have hend : ∀ n ∈ d.root.nodes, n.stop.bytes ≤ source.utf8ByteSize := fun n hn =>
    (hvalid n hn).2.le_rawEndPos
  refine ⟨Node.outline?_eq_some_outlined hle fun n hn _ => hend n hn, fun n hn _ => ?_,
    fun text => ⟨Node.outline?_eq_none_iff hle, fun out hout => ?_⟩⟩
  · have hbytes : (n.bytesIn source).IsValidUTF8 :=
      (String.Pos.Raw.isValidUTF8_extract_iff ⟨n.start.bytes⟩ ⟨n.stop.bytes⟩ (hle n hn)
        (hend n hn)).2 (.inr (hvalid n hn))
    have hread : String.fromUTF8? (n.bytesIn source) = some (.fromUTF8 _ hbytes) := dif_pos hbytes
    refine ⟨.fromUTF8 _ hbytes, rfl, ?_, ?_⟩
    · rw [Slice.ofRange_eq (hle n hn) (hend n hn), ← Node.bytesIn, hread]
    · rw [Node.shown, hread]
  · have hstop : ∀ n ∈ d.root.nodes, n.children = [] → n.stop.bytes ≤ text.utf8ByteSize :=
      fun n hn => (Node.isShown_iff (hle n hn)).1 ((Node.outline?_eq_some_iff.1 hout).1 n hn)
    refine ⟨?_, fun n hn hleaf => Slice.ofRange_eq_splitCharacter_iff (hle n hn) (hstop n hn hleaf)⟩
    rw [Node.outline?_eq_some_outlined hle hstop] at hout
    exact (Option.some_inj.1 hout).symm

theorem outline_shows_comment : ∃ d, (parse "\\é").value = .ok d ∧
    d.root.outline? "\\é".toList = some (d.root.outlined (Node.shown "\\é")) ∧
    d.root.outline? "ab".toList = none ∧
    ∃ out, d.root.outline? "é€".toList = some out ∧
      ∃ n ∈ d.root.nodes, n.children = [] ∧ ¬ (n.bytesIn "é€").IsValidUTF8 := by
  obtain ⟨d, h, hbeyond, hshown, n, hn, hleaf, hsplit⟩ := exists_of_within 1000 "\\é"
    (fun d => (∃ n ∈ d.root.nodes, n.children = [] ∧ "ab".utf8ByteSize < n.stop.bytes) ∧
      (∀ n ∈ d.root.nodes, n.IsShown "é€".toList) ∧
      ∃ n ∈ d.root.nodes, n.children = [] ∧
        Slice.ofRange "é€".toList n.start.bytes n.stop.bytes = .splitCharacter)
    (by decide +kernel)
  obtain ⟨hown, -, htexts⟩ := outline_shows_text h
  have hout := Node.outline?_eq_some_iff.2 ⟨hshown, rfl⟩
  exact ⟨d, h, hown, (htexts "ab").1.2 hbeyond, _, hout, n, hn, hleaf,
    (((htexts "é€").2 _ hout).2 n hn hleaf).1 hsplit⟩

end Document

end CalcTree
