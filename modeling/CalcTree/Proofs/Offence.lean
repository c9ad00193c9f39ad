import CalcTree.Proofs.Acceptance
import CalcTree.Proofs.Damage

/-!
# Refusals come no later than the offence

The items of a source are its lexemes, comments left out, and the end of input. An item offends if
the items up to it do not begin any sentence, or, at the end, are none. A source is never refused
at a place behind its first item that offends (`Document.refused_before_offence`).

Whatever recovery does to a tree, up to its first flaw it is part of a derivation: if tokens that
are missing are put in and text that does not fit is left out, the tree stands for a sentence, and
this sentence starts with all tokens in front of the flaws (`Tree.Built.exists_agrees`).
-/

namespace CalcTree

namespace Lexeme

variable {ls ms : List Lexeme}

/-- What a lexeme is to the grammar. A comment is nothing, and characters that start no token are
what no sentence has. -/
def word? (l : Lexeme) : Option (Option Terminal) :=
  match l.kind with
  | .token t => if t.isExtra then none else some (some t)
  | .unknown => some none

def words (ls : List Lexeme) : List (Option Terminal) :=
  ls.filterMap word?

theorem words_eq (h : Known ls) : words ls = (terminals ls).map some := by
  rw [words, terminals, List.map_filterMap]
  refine List.filterMap_congr fun l hl => ?_
  rcases hk : l.kind with t | _
  · simp only [word?, terminal?, hk]
    split_ifs <;> rfl
  · exact absurd hk (h l hl)

theorem known_of_words_eq {s : List Terminal} (h : words ls = s.map some) :
    Known ls ∧ terminals ls = s := by
  have hknown : Known ls := by
    intro l hl hk
    have hmem : none ∈ words ls := List.mem_filterMap.2 ⟨l, hl, by simp [word?, hk]⟩
    rw [h] at hmem
    simp at hmem
  refine ⟨hknown, ?_⟩
  rw [words_eq hknown] at h
  exact List.map_injective_iff.2 (Option.some_injective _) h

/-- The lexemes that start at a byte or before it, of lexemes laid out at a place. -/
def upTo (byte : Nat) : Extent → List Lexeme → List Lexeme
  | _, [] => []
  | place, l :: ls =>
    if (place + l.pad).bytes ≤ byte then l :: upTo byte (place + l.reach) ls else []

variable {byte : Nat} {place : Extent}

theorem upTo_of_lt (h : byte < place.bytes) : upTo byte place ls = [] := by
  rcases ls with _ | ⟨l, ls⟩
  · rfl
  · rw [upTo, if_neg (by rw [Extent.bytes_add]; omega)]

theorem upTo_of_le (h : (place + reachAll ls).bytes ≤ byte) : upTo byte place ls = ls := by
  induction ls generalizing place with
  | nil => rfl
  | cons l ls ih =>
    rw [reachAll, ← Extent.add_assoc'] at h
    rw [upTo, ih h, if_pos]
    simp only [reach, Extent.bytes_add] at h ⊢
    omega

theorem upTo_append : upTo byte place (ls ++ ms) =
    upTo byte place ls ++ upTo byte (place + reachAll ls) ms := by
  induction ls generalizing place with
  | nil => simp [upTo, reachAll]
  | cons l ls ih =>
    rw [List.cons_append, upTo, upTo, reachAll]
    split_ifs with h
    · rw [ih, List.cons_append, Extent.add_assoc']
    · rw [List.nil_append, upTo_of_lt]
      simp only [reach, Extent.bytes_add] at h ⊢
      omega

theorem append_singleton_prefix_upTo {l : Lexeme}
    (h : (place + reachAll ls + l.pad).bytes ≤ byte) :
    ls ++ [l] <+: upTo byte place (ls ++ l :: ms) := by
  have hls : (place + reachAll ls).bytes ≤ byte := by
    rw [Extent.bytes_add] at h
    omega
  rw [upTo_append, upTo_of_le hls, upTo, if_pos h]
  exact ⟨upTo byte (place + reachAll ls + l.reach) ms, by simp⟩

/-- Whether tokens agree with lexemes up to a byte, and to the end if the lexemes end there. -/
def Agrees (byte : Nat) (place : Extent) (ls : List Lexeme) (ts : List Terminal) : Prop :=
  Known (upTo byte place ls) ∧ ∃ more, ts = terminals (upTo byte place ls) ++ more ∧
    ((place + reachAll ls).bytes ≤ byte → more = [])

theorem agrees_singleton {l : Lexeme} (h : l.kind ≠ .unknown) :
    Agrees byte place [l] (terminals [l]) := by
  by_cases hle : (place + l.pad).bytes ≤ byte
  · have hup : upTo byte place [l] = [l] := by rw [upTo, if_pos hle, upTo]
    exact ⟨by simpa [hup, Known] using h, [], by rw [hup, List.append_nil], fun _ => rfl⟩
  · have hup : upTo byte place [l] = [] := by rw [upTo, if_neg hle]
    refine ⟨by simp [hup, Known], terminals [l], by rw [hup]; rfl, fun hend => absurd ?_ hle⟩
    simp only [reachAll, reach, Extent.bytes_add] at hend ⊢
    omega

theorem agrees_of_upTo (h : upTo byte place ls = []) : Agrees byte place ls [] :=
  ⟨by simp [h, Known], [], by rw [h]; rfl, fun _ => rfl⟩

theorem Agrees.append {ts us : List Terminal} (h : Agrees byte place ls ts)
    (h' : Agrees byte (place + reachAll ls) ms us) : Agrees byte place (ls ++ ms) (ts ++ us) := by
  obtain ⟨hknown, more, rfl, hend⟩ := h
  obtain ⟨hknown', more', rfl, hend'⟩ := h'
  refine ⟨by rw [upTo_append, known_append]; exact ⟨hknown, hknown'⟩, ?_⟩
  rw [upTo_append, terminals_append, reachAll_append, ← Extent.add_assoc']
  by_cases hle : (place + reachAll ls).bytes ≤ byte
  · exact ⟨more', by rw [hend hle]; simp, hend'⟩
  · -- What comes after the byte brings no lexemes, so both rests are one.
    refine ⟨more ++ more', ?_, fun hle' => ?_⟩
    · have hnil : upTo byte (place + reachAll ls) ms = [] := upTo_of_lt (by omega)
      simp [hnil, terminals]
    · rw [Extent.bytes_add] at hle'
      omega

end Lexeme

namespace Tree

variable {byte : Nat} {place : Extent} {t : Tree} {ts : List Tree} {X : Symbol}

/-- Whether all flaws in a tree start behind a byte. -/
def Clear (byte : Nat) (t : Tree) (place : Extent) : Prop :=
  ∀ (u : Tree) (p : Extent), u.Lies p t place → u.IsFlaw → byte < (p + u.pad).bytes

theorem Clear.child {c : Tree} {before after : List Tree} (h : t.Clear byte place)
    (hc : t.children = before ++ c :: after) : c.Clear byte (place + reachAll before) :=
  fun u p hu => h u p (.child before after hc hu)

/-- Extra trees agree with no tokens at all. -/
theorem Built.agrees_of_isExtra (h : t.Built) (he : t.isExtra) (hclear : t.Clear byte place) :
    Lexeme.Agrees byte place t.leaves [] := by
  rcases h.extra_cases he with ⟨l, rfl, hl⟩ | ⟨cs, rfl⟩
  · have hnone : Lexeme.terminals [l] = [] := by
      simp [Lexeme.terminals, Lexeme.terminal?, hl, Terminal.isExtra]
    rw [leaves, ← hnone]
    exact Lexeme.agrees_singleton (by simp [hl])
  · have hstart := hclear _ _ .self (.inl rfl)
    refine Lexeme.agrees_of_upTo ?_
    rcases h.pad_eq with hpad | ⟨l, ls, hleaves, hpad⟩
    · rw [hpad, Extent.add_zero'] at hstart
      exact Lexeme.upTo_of_lt hstart
    · rw [hleaves, Lexeme.upTo, if_neg (by rw [← hpad]; omega)]

theorem exists_agreesAll
    (hextra : ∀ t ∈ ts, ∀ place, t.Clear byte place → t.isExtra →
      Lexeme.Agrees byte place t.leaves [])
    (hpart : ∀ t ∈ ts, ∀ place, t.Clear byte place → ∀ X, t.isExtra = false →
      t.symbol? = some X →
      ∃ d : Derivation, d.Valid ∧ d.symbol = X ∧ Lexeme.Agrees byte place t.leaves d.yield)
    (hbuilt : ∀ t ∈ ts, t.Built)
    (hclear : ∀ before t after, ts = before ++ t :: after →
      t.Clear byte (place + reachAll before))
    {Xs : List Symbol} (hXs : (parts ts).map symbol? = Xs.map some) :
    ∃ ds, Derivation.ValidAll ds ∧ ds.map Derivation.symbol = Xs ∧
      Lexeme.Agrees byte place (leavesAll ts) (Derivation.yieldAll ds) := by
  induction ts generalizing place Xs with
  | nil =>
    have hX : Xs = [] := by simpa [parts] using hXs.symm
    subst hX
    exact ⟨[], trivial, rfl, by simp [Lexeme.Known, leavesAll, Lexeme.upTo], [], rfl, fun _ => rfl⟩
  | cons t ts ih =>
    have ht : t.Clear byte place := by
      have := hclear [] t ts rfl
      rwa [reachAll, Extent.add_zero'] at this
    have hreach : Lexeme.reachAll t.leaves = t.reach := ((hbuilt t (by simp)).reach_eq).symm
    have ih' := fun {Ys} => @ih (place + t.reach) (fun u hu => hextra u (by simp [hu]))
      (fun u hu => hpart u (by simp [hu])) (fun u hu => hbuilt u (by simp [hu]))
      (fun before u after hu => by
        have := hclear (t :: before) u after (by rw [hu]; rfl)
        rwa [reachAll, ← Extent.add_assoc'] at this) Ys
    rcases he : t.isExtra with _ | _
    · have hparts : parts (t :: ts) = t :: parts ts := by simp [parts, he]
      rw [hparts, List.map_cons] at hXs
      obtain ⟨X, Ys, rfl, hX, hYs⟩ := List.map_eq_cons_iff.1 hXs.symm
      obtain ⟨d, hv, hs, ha⟩ := hpart t (by simp) place ht X he hX.symm
      obtain ⟨ds, ihv, ihs, iha⟩ := ih' hYs.symm
      rw [← hreach] at iha
      exact ⟨d :: ds, ⟨hv, ihv⟩, by rw [List.map_cons, hs, ihs], ha.append iha⟩
    · have hparts : parts (t :: ts) = parts ts := by simp [parts, he]
      rw [hparts] at hXs
      obtain ⟨ds, ihv, ihs, iha⟩ := ih' hXs
      rw [← hreach] at iha
      exact ⟨ds, ihv, ihs, (hextra t (by simp) place ht he).append iha⟩

/-- A part of a construct stands for a derivation that agrees with its lexemes in front of all
flaws. -/
theorem Built.exists_agrees (h : t.Built) (hclear : t.Clear byte place) (he : t.isExtra = false)
    (hX : t.symbol? = some X) : ∃ d : Derivation, d.Valid ∧ d.symbol = X ∧
      Lexeme.Agrees byte place t.leaves d.yield := by
  induction h generalizing X place with
  | leaf l =>
    rcases hk : l.kind with a | _ <;> simp only [symbol?, hk, reduceCtorEq] at hX
    have ha : a.isExtra = false := by simpa [isExtra, hk, Terminal.isExtra] using he
    have htoken : Lexeme.terminals [l] = [a] := by
      simp [Lexeme.terminals, Lexeme.terminal?, hk, ha]
    refine ⟨.token a, trivial, Option.some.inj hX, ?_⟩
    rw [leaves, Derivation.yield, ← htoken]
    exact Lexeme.agrees_singleton (by simp [hk])
  | missing a ha =>
    have hstart := hclear _ _ .self (.inr ⟨a, rfl⟩)
    refine ⟨.token a, trivial, Option.some.inj hX, by simp [leaves, Lexeme.upTo, Lexeme.Known],
      [a], by simp [leaves, Lexeme.upTo, Lexeme.terminals, Derivation.yield], fun hle => ?_⟩
    simp only [pad, leaves, Lexeme.reachAll, Extent.add_zero'] at hstart hle
    omega
  | node p cs hp hcs ih =>
    obtain ⟨ds, hv, hs, ha⟩ := exists_agreesAll
      (fun c hc place hclear he => (hcs c hc).agrees_of_isExtra he hclear)
      (fun c hc place hclear X he hX => ih c hc hclear he hX) hcs
      (fun before c after hc => hclear.child hc) hp
    exact ⟨.node p ds, ⟨hs, hv⟩, Option.some.inj hX, ha⟩
  | error | skipped => simp [symbol?] at hX

end Tree

/-! ## Offences -/

/-- Whether items begin a sentence. -/
def Begins (ws : List (Option Terminal)) : Prop :=
  ∃ s ∈ grammar.language, ws <+: s.map some

namespace Scan

variable {input : Scan} {k : Nat} {source : List Char}

/-- Whether an item offends: a lexeme, by its number, that is no comment, or the end of input. -/
inductive Offends (input : Scan) : Nat → Prop
  | item {k : Nat} {l : Lexeme} (hl : input.lexemes[k]? = some l) (hword : l.word? ≠ none)
      (h : ¬ Begins (Lexeme.words (input.lexemes.take (k + 1)))) : Offends input k
  | finish (h : ∀ s ∈ grammar.language, Lexeme.words input.lexemes ≠ s.map some) :
      Offends input input.lexemes.length

/-- Where an item starts, after the blanks in front of it. -/
def startOf (input : Scan) (k : Nat) : Extent :=
  input.room k +
    match input.lexemes[k]? with
    | some l => l.pad
    | none => .ofChars input.trailing

theorem Offends.le (h : input.Offends k) : k ≤ input.lexemes.length := by
  cases h with
  | item hl =>
    obtain ⟨hlt, -⟩ := List.getElem?_eq_some_iff.1 hl
    omega
  | finish => exact Nat.le_refl _

theorem startOf_length : input.startOf input.lexemes.length =
    Lexeme.reachAll input.lexemes + .ofChars input.trailing := by
  rw [startOf, room, List.take_length, List.getElem?_eq_none (Nat.le_refl _)]

theorem eq_take_append {l : Lexeme} (h : input.lexemes[k]? = some l) :
    input.lexemes = input.lexemes.take k ++ l :: input.lexemes.drop (k + 1) := by
  obtain ⟨hlt, rfl⟩ := List.getElem?_eq_some_iff.1 h
  rw [← List.drop_eq_getElem_cons, List.take_append_drop]

theorem isIn_startOf (h : k ≤ (ofChars source).lexemes.length) :
    ((ofChars source).startOf k).IsIn source := by
  rcases hl : (ofChars source).lexemes[k]? with _ | l
  · have hk : k = (ofChars source).lexemes.length := by
      have := List.getElem?_eq_none_iff.1 hl
      omega
    rw [hk, startOf_length]
    exact isIn_end source
  · rw [startOf, hl]
    exact isIn_start (eq_take_append hl)

end Scan

namespace Lexeme.Agrees

variable {input : Scan} {k byte : Nat} {ts : List Terminal}

/-- What agrees with the lexemes up to an item begins with the items up to it. -/
theorem words_isPrefix (h : Agrees byte 0 input.lexemes ts) {l : Lexeme}
    (hl : input.lexemes[k]? = some l) (hk : (input.startOf k).bytes ≤ byte) :
    words (input.lexemes.take (k + 1)) <+: ts.map some := by
  obtain ⟨hknown, more, rfl, -⟩ := h
  rw [Scan.startOf, hl, Scan.room] at hk
  have htake : input.lexemes.take (k + 1) = input.lexemes.take k ++ [l] := by
    rw [List.take_add_one, hl]
    rfl
  have hup : input.lexemes.take (k + 1) <+: upTo byte 0 input.lexemes := by
    rw [htake]
    nth_rewrite 2 [Scan.eq_take_append hl]
    exact append_singleton_prefix_upTo (by rwa [Extent.zero_add'])
  obtain ⟨rest, hrest⟩ := hup
  rw [← hrest, known_append] at hknown
  rw [Lexeme.words_eq hknown.1, ← hrest, terminals_append, List.append_assoc, List.map_append]
  exact List.prefix_append _ _

theorem words_eq (h : Agrees byte 0 input.lexemes ts)
    (hk : (input.startOf input.lexemes.length).bytes ≤ byte) :
    words input.lexemes = ts.map some := by
  obtain ⟨hknown, more, rfl, hend⟩ := h
  rw [Scan.startOf_length, Extent.bytes_add] at hk
  have hall : (0 + reachAll input.lexemes).bytes ≤ byte := by
    rw [Extent.zero_add']
    omega
  rw [upTo_of_le hall] at hknown ⊢
  rw [hend hall, List.append_nil, Lexeme.words_eq hknown]

end Lexeme.Agrees

namespace Tree

variable {input : Scan} {k : Nat} {t : Tree}

/-- No item starts before the tree does. -/
theorem Whole.bytes_pad_le (h : t.Whole input) (hk : k ≤ input.lexemes.length) :
    t.pad.bytes ≤ (input.startOf k).bytes := by
  rcases h.pad_cases with ⟨hnil, hpad⟩ | hpad | ⟨l, ls, hcons, hpad⟩
  · obtain rfl : k = 0 := by simpa [hnil] using hk
    simp [Scan.startOf, hnil, hpad]
  · simp [hpad]
  · rw [hpad, Scan.startOf, Scan.room, hcons]
    rcases k with _ | k
    · simp
    · simp only [List.take_succ_cons, Lexeme.reachAll, Lexeme.reach, Extent.bytes_add]
      omega

/-- Of the flaws in a tree, one starts no later than any item that offends. -/
theorem Whole.exists_flaw (h : t.Whole input) (hk : input.Offends k) : ∃ (u : Tree) (p : Extent),
    u.Lies p t 0 ∧ u.IsFlaw ∧ (p + u.pad).bytes ≤ (input.startOf k).bytes := by
  by_contra hnone
  have hclear : t.Clear (input.startOf k).bytes 0 := by
    intro u p hu hflaw
    by_contra hle
    exact hnone ⟨u, p, hu, hflaw, by omega⟩
  have hpad := h.bytes_pad_le hk.le
  cases h with
  | lost ts hbuilt hfile hl =>
    have := hclear _ _ .self (.inl rfl)
    rw [Extent.zero_add'] at this
    omega
  | file p cs hp hb hl =>
    have hclear' : (Tree.node p cs).Clear (input.startOf k).bytes 0 := by
      intro u q hu hflaw
      cases hu with
      | self => rcases hflaw with hk | ⟨a, ha⟩ <;> simp_all [kind]
      | child before after hc hu =>
        refine hclear u q (.child before (after ++ [.finish input.trailing]) ?_ hu) hflaw
        simp only [children] at hc ⊢
        rw [hc]
        simp
    obtain ⟨d, hv, hs, ha⟩ := hb.exists_agrees hclear' rfl rfl
    rw [leaves, hl] at ha
    have hsentence : d.yield ∈ grammar.language :=
      Derivation.mem_language_iff.2 ⟨d, by rw [hs, hp], rfl, hv⟩
    cases hk with
    | item hitem _ hbegins =>
      exact hbegins ⟨d.yield, hsentence, ha.words_isPrefix hitem (Nat.le_refl _)⟩
    | finish hfinish => exact hfinish d.yield hsentence (ha.words_eq (Nat.le_refl _))

end Tree

namespace Document

variable {source : String} {line column : Nat} {found : List Issue}

/-- A source that is refused has a damaged tree, and is refused at its first flaw. -/
theorem exists_of_invalid (h : (check source).value = .error (.invalid line column found)) :
    ∃ d n, (parse source).value = .ok d ∧ d.root.isDamaged ∧ n ∈ d.root.nodes ∧
      found.head? = some (.ofNode n) ∧ line = n.start.rows + 1 ∧ column = n.start.columns + 1 ∧
      ∀ m ∈ d.root.nodes, m.isFlaw → n.start.bytes ≤ m.start.bytes := by
  rcases hparse : (parse source).value with e | d
  · have hcheck : (check source).value = .error e := by
      simp only [check, bind, hparse]
      rfl
    rw [value_parse] at hparse
    rcases ho : ofSource? source with _ | d' <;> rw [ho] at hparse
    · obtain rfl := Except.error.inj hparse
      cases hcheck.symm.trans h
    · cases hparse
  · have hd := (exists_error_iff hparse).1 ⟨_, h⟩
    obtain ⟨t, -, hroot, hwhole⟩ := whole_of_parse hparse
    obtain ⟨n, hn, -, hfirst, hleast⟩ := Issue.exists_first hwhole (hroot ▸ hd)
    rw [← hroot] at hn hfirst hleast
    rw [← value_issues] at hfirst
    rw [check_of_isDamaged hparse hd (by rw [hfirst]; rfl)] at h
    obtain ⟨rfl, rfl, rfl⟩ := ParseError.invalid.inj (Except.error.inj h)
    exact ⟨d, n, rfl, hd, hn, hfirst, rfl, rfl, hleast⟩

/-- Where no sentence is spelled, the end of input offends at the latest. -/
theorem exists_offends (h : ¬ Grammatical source) :
    ∃ k, (Scan.ofChars source.toList).Offends k :=
  ⟨_, .finish fun s hs heq => h ⟨s, hs, Lexeme.known_of_words_eq heq⟩⟩

/-- A source is refused at its first item that offends, or at a place before it. -/
theorem refused_before_offence
    (h : (check source).value = .error (.invalid line column found)) :
    ∃ k, (Scan.ofChars source.toList).Offends k ∧
      (∀ j < k, ¬ (Scan.ofChars source.toList).Offends j) ∧
      ∃ i, found.head? = some i ∧
        i.start.bytes ≤ ((Scan.ofChars source.toList).startOf k).bytes ∧
        toLex (line, column) ≤ toLex (((Scan.ofChars source.toList).startOf k).rows + 1,
          ((Scan.ofChars source.toList).startOf k).columns + 1) := by
  classical
  obtain ⟨d, n, hparse, hd, hn, hfirst, rfl, rfl, hleast⟩ := exists_of_invalid h
  obtain ⟨t, -, hroot, hwhole⟩ := whole_of_parse hparse
  have hoffends : ∃ k, (Scan.ofChars source.toList).Offends k := by
    refine exists_offends fun hg => ?_
    obtain ⟨d', hparse', hsound⟩ := exists_sound_iff.2 hg
    obtain rfl := Except.ok.inj (hparse.symm.trans hparse')
    rw [hd] at hsound
    cases hsound
  obtain ⟨k, hk, hmin⟩ : ∃ k, (Scan.ofChars source.toList).Offends k ∧
      ∀ j < k, ¬ (Scan.ofChars source.toList).Offends j :=
    ⟨Nat.find hoffends, Nat.find_spec hoffends, fun j hj => Nat.find_min hoffends hj⟩
  obtain ⟨u, p, hu, hflaw, hle⟩ := hwhole.exists_flaw hk
  obtain ⟨f, hf⟩ := Node.exists_mem_root hwhole hu hflaw.isVisible
  have hbytes : n.start.bytes ≤ ((Scan.ofChars source.toList).startOf k).bytes :=
    (hleast _ (hroot ▸ hf) (Tree.isFlaw_shownAt.2 hflaw)).trans hle
  refine ⟨k, hk, hmin, .ofNode n, hfirst, hbytes, ?_⟩
  have hpoint := (Node.isIn_of_mem_root hwhole (hroot ▸ hn)).point_le (Scan.isIn_startOf hk.le)
    hbytes
  rw [Extent.point, Extent.point, Prod.Lex.toLex_le_toLex] at hpoint
  rw [Prod.Lex.toLex_le_toLex]
  simp only at hpoint ⊢
  omega

theorem refused_before_end : ∃ found, (check "f:\x7b").value = .error (.invalid 1 2 found) ∧
    ∃ k, (Scan.ofChars "f:\x7b".toList).Offends k ∧
      (∀ j < k, ¬ (Scan.ofChars "f:\x7b".toList).Offends j) ∧
      ∃ i, found.head? = some i ∧
        i.start.bytes ≤ ((Scan.ofChars "f:\x7b".toList).startOf k).bytes := by
  obtain ⟨d, h, hd, hstart⟩ := exists_of_any 1000 "f:\x7b" ⟨1, 0, 1⟩ (by decide +kernel)
  have hcheck := check_of_isDamaged h hd hstart
  obtain ⟨k, hk, hmin, i, hi, hle, -⟩ := refused_before_offence hcheck
  exact ⟨_, hcheck, k, hk, hmin, i, hi, hle⟩

end Document

end CalcTree
