import CalcTree.Proofs.Derivation
import CalcTree.Tree.Measured

/-!
# Well built trees

Every tree the parser puts together is well built, however damaged the source: the parts of a
construct are those of its production, with only extra trees in between, and what does not fit a
construct is kept in error nodes, of which none is empty. A whole file is no part of anything.

A well built tree takes exactly the room of its lexemes (`Built.reach_eq`). If there is no damage
in it, it is a derivation with comments in between (`Built.bare`).
-/

namespace CalcTree

namespace Lexeme

def reach (l : Lexeme) : Extent :=
  l.pad + l.size

def reachAll : List Lexeme → Extent
  | [] => 0
  | l :: ls => l.reach + reachAll ls

theorem reachAll_append (ls ms : List Lexeme) :
    reachAll (ls ++ ms) = reachAll ls + reachAll ms := by
  induction ls with
  | nil => simp [reachAll]
  | cons l ls ih => simp [reachAll, ih, Extent.add_assoc']

/-- The token that a lexeme is for the grammar, which knows no comments. -/
def terminal? (l : Lexeme) : Option Terminal :=
  match l.kind with
  | .token t => if t.isExtra then none else some t
  | .unknown => none

/-- The tokens of lexemes, without comments. -/
def terminals (ls : List Lexeme) : List Terminal :=
  ls.filterMap terminal?

theorem terminals_append (ls ms : List Lexeme) :
    terminals (ls ++ ms) = terminals ls ++ terminals ms :=
  List.filterMap_append

/-- Whether there are no characters among lexemes that start no token. -/
def Known (ls : List Lexeme) : Prop :=
  ∀ l ∈ ls, l.kind ≠ .unknown

theorem known_append (ls ms : List Lexeme) : Known (ls ++ ms) ↔ Known ls ∧ Known ms := by
  simp only [Known, List.mem_append]
  exact ⟨fun h => ⟨fun l hl => h l (.inl hl), fun l hl => h l (.inr hl)⟩,
    fun h l hl => hl.elim (h.1 l) (h.2 l)⟩

end Lexeme

namespace Tree

theorem leavesAll_append (ts us : List Tree) :
    leavesAll (ts ++ us) = leavesAll ts ++ leavesAll us := by
  induction ts with
  | nil => rfl
  | cons t ts ih => simp [leavesAll, ih]

/-- The grammar symbol that a tree stands for. -/
def symbol? : Tree → Option Symbol
  | leaf l =>
    match l.kind with
    | .token t => some (.terminal t)
    | .unknown => none
  | missing t => some (.terminal t)
  | node p _ => some (.nonterminal p.lhs)
  | finish _ | error _ _ | skipped _ => none

def IsFile (t : Tree) : Prop :=
  t.symbol? = some (.nonterminal .sourceFile)

/-- The trees that are not extra. -/
def parts (ts : List Tree) : List Tree :=
  ts.filter fun t => !t.isExtra

theorem parts_append (ts us : List Tree) : parts (ts ++ us) = parts ts ++ parts us :=
  List.filter_append ..

inductive Built : Tree → Prop
  | leaf (l : Lexeme) : Built (.leaf l)
  | missing (t : Terminal) (ht : t ≠ .comment) : Built (.missing t)
  | node (p : Production) (cs : List Tree) (hp : (parts cs).map symbol? = p.rhs.map some)
      (hcs : ∀ c ∈ cs, Built c) : Built (.node p cs)
  | error (cs : List Tree) (hne : cs ≠ []) (hcs : ∀ c ∈ cs, Built c)
      (hfile : ∀ c ∈ cs, ¬ c.IsFile) : Built (.error true cs)
  | skipped (cs : List Tree) (hne : cs ≠ []) (hcs : ∀ c ∈ cs, Built c)
      (hfile : ∀ c ∈ cs, ¬ c.IsFile) : Built (.skipped cs)

variable {t : Tree} {ts : List Tree} {X : Symbol}

theorem symbol?_ne_comment (h : t.Built) (he : t.isExtra = false) (hX : t.symbol? = some X) :
    X ≠ .terminal .comment := by
  rintro rfl
  cases h with
  | leaf l =>
    rcases hk : l.kind with t | _ <;> simp only [symbol?, hk, reduceCtorEq] at hX
    obtain rfl : t = .comment := by simpa using hX
    simp [isExtra, hk] at he
  | missing t ht =>
    simp only [symbol?, Option.some.injEq, Symbol.terminal.injEq] at hX
    exact ht hX
  | node | error | skipped => simp [symbol?] at hX

theorem eq_skipped_of_kind (h : t.kind = .skipped) : ∃ cs, t = .skipped cs := by
  cases t with
  | skipped cs => exact ⟨cs, rfl⟩
  | leaf l =>
    simp only [kind] at h
    split at h <;> simp at h
  | missing | finish | node | error => simp [kind] at h

def IsComment (t : Tree) : Prop :=
  ∃ l, t = .leaf l ∧ l.kind = .token .comment

/-- What stands between the parts of constructs: comments, and text that does not fit. -/
theorem Built.extra_cases (h : t.Built) (he : t.isExtra) :
    t.IsComment ∨ ∃ cs, t = .error true cs := by
  cases h with
  | leaf l => exact .inl ⟨l, rfl, by simpa [isExtra] using he⟩
  | error cs => exact .inr ⟨cs, rfl⟩
  | missing | node | skipped => simp [isExtra] at he

theorem not_isFile_of_isExtra (he : t.isExtra) : ¬ t.IsFile := by
  cases t <;> simp [isExtra, IsFile, symbol?] at he ⊢
  simp [he]

/-- A child of a construct that is not extra is one of its parts. -/
theorem symbol?_mem_rhs {p : Production} {c : Tree}
    (hp : (parts ts).map symbol? = p.rhs.map some) (hc : c ∈ ts) (he : c.isExtra = false) :
    ∃ X ∈ p.rhs, c.symbol? = some X := by
  have hm : c.symbol? ∈ (parts ts).map symbol? :=
    List.mem_map.2 ⟨c, List.mem_filter.2 ⟨hc, by simp [he]⟩, rfl⟩
  rw [hp] at hm
  obtain ⟨X, hX, hs⟩ := List.mem_map.1 hm
  exact ⟨X, hX, hs.symm⟩

theorem sourceFile_not_mem_rhs (p : Production) : .nonterminal .sourceFile ∉ p.rhs := by
  cases p <;> decide

theorem not_isFile_of_mem {p : Production} {c : Tree}
    (hp : (parts ts).map symbol? = p.rhs.map some) (hc : c ∈ ts) : ¬ c.IsFile := by
  rcases he : c.isExtra with _ | _
  · intro hf
    obtain ⟨X, hX, hs⟩ := symbol?_mem_rhs hp hc he
    rw [IsFile, hs, Option.some.injEq] at hf
    exact sourceFile_not_mem_rhs p (hf ▸ hX)
  · exact not_isFile_of_isExtra he

/-! ## Room -/

theorem reachAll_of_forall (h : ∀ t ∈ ts, t.reach = Lexeme.reachAll t.leaves) :
    reachAll ts = Lexeme.reachAll (leavesAll ts) := by
  induction ts with
  | nil => rfl
  | cons t ts ih =>
    have ht := h t (by simp)
    have hts := ih fun u hu => h u (by simp [hu])
    rw [reachAll, leavesAll, Lexeme.reachAll_append, ← ht, ← hts, reach]

theorem Built.reach_eq (h : t.Built) : t.reach = Lexeme.reachAll t.leaves := by
  induction h with
  | leaf l => simp [reach, pad, size, leaves, Lexeme.reachAll, Lexeme.reach]
  | missing t => simp [reach, pad, size, leaves, Lexeme.reachAll]
  | node p cs _ _ ih | error cs _ _ _ ih | skipped cs _ _ _ ih =>
    rw [reach, pad, size, Tree.reachAll_eq, leaves, reachAll_of_forall ih]

/-! ## Sound trees -/

mutual

/-- The derivation that a sound tree stands for: extra trees take no part in it. -/
def bare : Tree → List Derivation
  | leaf l => l.terminal?.toList.map .token
  | node p cs => [.node p (bareAll cs)]
  | missing _ | finish _ | error _ _ | skipped _ => []

def bareAll : List Tree → List Derivation
  | [] => []
  | c :: cs => bare c ++ bareAll cs

end

theorem bareAll_append (ts us : List Tree) : bareAll (ts ++ us) = bareAll ts ++ bareAll us := by
  induction ts with
  | nil => rfl
  | cons t ts ih => simp [bareAll, ih]

namespace IsComment

theorem isExtra (h : t.IsComment) : t.isExtra := by
  obtain ⟨l, rfl, hl⟩ := h
  simp [Tree.isExtra, hl]

theorem isDamaged (h : t.IsComment) : t.isDamaged = false := by
  obtain ⟨l, rfl, -⟩ := h
  rfl

theorem bare (h : t.IsComment) : t.bare = [] := by
  obtain ⟨l, rfl, hl⟩ := h
  simp [Tree.bare, Lexeme.terminal?, hl, Terminal.isExtra]

end IsComment

theorem bareAll_of_comments (h : ∀ t ∈ ts, t.IsComment) : bareAll ts = [] := by
  induction ts with
  | nil => rfl
  | cons t ts ih =>
    rw [bareAll, (h t (by simp)).bare, ih fun u hu => h u (by simp [hu]), List.append_nil]

theorem anyDamaged_append (ts us : List Tree) :
    anyDamaged (ts ++ us) = (anyDamaged ts || anyDamaged us) := by
  induction ts with
  | nil => rfl
  | cons t ts ih => rw [List.cons_append, anyDamaged, anyDamaged, ih, Bool.or_assoc]

theorem anyDamaged_of_forall (h : ∀ t ∈ ts, t.isDamaged = false) : anyDamaged ts = false := by
  induction ts with
  | nil => rfl
  | cons t ts ih =>
    rw [anyDamaged, h t (by simp), ih fun u hu => h u (by simp [hu])]
    simp

/-- An extra tree without damage is a comment. -/
theorem Built.comment_of_isExtra (h : t.Built) (hd : t.isDamaged = false) (he : t.isExtra) :
    t.IsComment := by
  rcases h.extra_cases he with hl | ⟨cs, rfl⟩
  · exact hl
  · simp [isDamaged] at hd

theorem anyDamaged_eq_false (h : anyDamaged ts = false) {t : Tree} (ht : t ∈ ts)
    (hk : t.kind ≠ .skipped) : t.isDamaged = false := by
  induction ts with
  | nil => simp at ht
  | cons u us ih =>
    simp only [anyDamaged, Bool.or_eq_false_iff, Bool.and_eq_false_iff, bne_eq_false_iff_eq] at h
    rcases List.mem_cons.1 ht with rfl | ht
    · exact h.1.resolve_left hk
    · exact ih h.2 ht

/-- What a tree without damage stands for. -/
def StandsFor (t : Tree) (X : Symbol) : Prop :=
  ∃ d, t.bare = [d] ∧ d.Valid ∧ d.symbol = X ∧ d.yield = Lexeme.terminals t.leaves ∧
    Lexeme.Known t.leaves

theorem bareAll_of_forall
    (hextra : ∀ t ∈ ts, t.isExtra → t.IsComment)
    (hpart : ∀ t ∈ ts, ∀ X, t.isExtra = false → t.symbol? = some X → t.StandsFor X)
    {Xs : List Symbol} (hXs : (parts ts).map symbol? = Xs.map some) :
    Derivation.ValidAll (bareAll ts) ∧ (bareAll ts).map Derivation.symbol = Xs ∧
      Derivation.yieldAll (bareAll ts) = Lexeme.terminals (leavesAll ts) ∧
      Lexeme.Known (leavesAll ts) := by
  induction ts generalizing Xs with
  | nil =>
    have hX : Xs = [] := by simpa [parts] using hXs.symm
    subst hX
    exact ⟨trivial, rfl, rfl, by simp [Lexeme.Known, leavesAll]⟩
  | cons t ts ih =>
    have ih' := fun {Ys} => @ih (fun u hu => hextra u (by simp [hu]))
      (fun u hu => hpart u (by simp [hu])) Ys
    rcases he : t.isExtra with _ | _
    · have hparts : parts (t :: ts) = t :: parts ts := by simp [parts, he]
      rw [hparts, List.map_cons] at hXs
      obtain ⟨X, Ys, rfl, hX, hYs⟩ := List.map_eq_cons_iff.1 hXs.symm
      obtain ⟨d, hb, hv, hs, hy, hk⟩ := hpart t (by simp) X he hX.symm
      obtain ⟨ihv, ihs, ihy, ihk⟩ := ih' hYs.symm
      simp only [bareAll, hb, List.singleton_append, Derivation.ValidAll, List.map_cons, hs, ihs,
        Derivation.yieldAll, hy, ihy, leavesAll, Lexeme.terminals_append, Lexeme.known_append]
      exact ⟨⟨hv, ihv⟩, trivial, trivial, hk, ihk⟩
    · have hparts : parts (t :: ts) = parts ts := by simp [parts, he]
      rw [hparts] at hXs
      obtain ⟨l, rfl, hl⟩ := hextra t (by simp) he
      obtain ⟨ihv, ihs, ihy, ihk⟩ := ih' hXs
      have hb : bare (.leaf l) = [] := IsComment.bare ⟨l, rfl, hl⟩
      have ht : Lexeme.terminals [l] = [] := by
        simp [Lexeme.terminals, Lexeme.terminal?, hl, Terminal.isExtra]
      simp only [bareAll, hb, List.nil_append, leavesAll, leaves, Lexeme.terminals_append, ht,
        Lexeme.known_append]
      exact ⟨ihv, ihs, ihy, by simp [Lexeme.Known, hl], ihk⟩

/-- The children of a construct without damage have none either. -/
theorem isDamaged_of_mem {p : Production} (hp : (parts ts).map symbol? = p.rhs.map some)
    (hd : anyDamaged ts = false) {c : Tree} (hc : c ∈ ts) : c.isDamaged = false := by
  refine anyDamaged_eq_false hd hc fun hk => ?_
  obtain ⟨cs, rfl⟩ := eq_skipped_of_kind hk
  obtain ⟨X, -, hs⟩ := symbol?_mem_rhs hp hc rfl
  simp [symbol?] at hs

theorem Built.standsFor (h : t.Built) (hd : t.isDamaged = false) (he : t.isExtra = false)
    (hX : t.symbol? = some X) : t.StandsFor X := by
  induction h generalizing X with
  | leaf l =>
    rcases hk : l.kind with a | _ <;> simp only [symbol?, hk, reduceCtorEq] at hX
    have ha : a.isExtra = false := by simpa [isExtra, hk, Terminal.isExtra] using he
    refine ⟨.token a, ?_, trivial, Option.some.inj hX, ?_, by simp [leaves, Lexeme.Known, hk]⟩
    · simp [bare, Lexeme.terminal?, hk, ha]
    · simp [Derivation.yield, leaves, Lexeme.terminals, Lexeme.terminal?, hk, ha]
  | missing | error | skipped => simp [isDamaged] at hd
  | node p cs hp hcs ih =>
    have hdc : ∀ c ∈ cs, c.isDamaged = false := fun c hc => isDamaged_of_mem hp hd hc
    obtain ⟨hv, hs, hy, hk⟩ := bareAll_of_forall
      (fun c hc hce => (hcs c hc).comment_of_isExtra (hdc c hc) hce)
      (fun c hc Y hce hY => ih c hc (hdc c hc) hce hY) hp
    refine ⟨.node p (bareAll cs), rfl, ⟨hs, hv⟩, ?_, hy, hk⟩
    simpa [symbol?, Derivation.symbol] using hX

theorem parts_of_isExtra (h : ∀ t ∈ ts, t.isExtra) : parts ts = [] :=
  List.filter_eq_nil_iff.2 fun t ht => by simp [h t ht]

/-- With extra trees around its parts a construct is still well built. -/
theorem Built.widen {p : Production} {before cs behind : List Tree} (h : Built (.node p cs))
    (hbuilt : ∀ t ∈ before ++ behind, t.Built) (hextra : ∀ t ∈ before ++ behind, t.isExtra) :
    Built (.node p (before ++ cs ++ behind)) := by
  cases h with
  | node _ _ hp hcs =>
    refine .node p _ ?_ fun c hc => ?_
    · rw [parts_append, parts_append,
        parts_of_isExtra fun t ht => hextra t (List.mem_append_left _ ht),
        parts_of_isExtra fun t ht => hextra t (List.mem_append_right _ ht)]
      simpa using hp
    · simp only [List.mem_append] at hc
      rcases hc with (hc | hc) | hc
      · exact hbuilt c (by simp [hc])
      · exact hcs c hc
      · exact hbuilt c (by simp [hc])

/-- What a finished parse gives: a whole file, or, if nothing came of it, all that was read, in an
error node. -/
inductive Whole (input : Scan) : Tree → Prop
  | file (p : Production) (cs : List Tree) (hp : p.lhs = .sourceFile) (hb : Built (.node p cs))
      (hl : leavesAll cs = input.lexemes) :
      Whole input (.node p (cs ++ [.finish input.trailing]))
  | lost (ts : List Tree) (hbuilt : ∀ t ∈ ts, t.Built) (hfile : ∀ t ∈ ts, ¬ t.IsFile)
      (hl : leavesAll ts = input.lexemes) :
      Whole input (.error false (ts ++ [.finish input.trailing]))

end Tree

/-! ## Rows of trees -/

namespace Measured

theorem trees_append (ms ns : List Measured) : trees (ms ++ ns) = trees ms ++ trees ns :=
  List.map_append

theorem mem_trees {ms : List Measured} {t : Tree} : t ∈ trees ms ↔ ∃ m ∈ ms, m.tree = t :=
  List.mem_map

theorem trees_map_ofTree (ts : List Tree) : trees (ts.map ofTree) = ts := by
  rw [trees, List.map_map]
  exact List.map_id _

theorem splitExtras_append (ms : List Measured) :
    (splitExtras ms).1 ++ (splitExtras ms).2 = ms := by
  simp only [splitExtras]
  rw [← List.reverse_append, List.takeWhile_append_dropWhile, List.reverse_reverse]

theorem isExtra_of_mem_splitExtras {ms : List Measured} {m : Measured}
    (h : m ∈ (splitExtras ms).2) : m.isExtra := by
  simp only [splitExtras, List.mem_reverse] at h
  exact List.all_eq_true.1 List.all_takeWhile m h

theorem isExtra_of_mem_getLast? {ms : List Measured} :
    ∀ m ∈ (splitExtras ms).1.getLast?, m.isExtra = false := by
  intro m hm
  have hhead := List.head?_dropWhile_not isExtra ms.reverse
  rw [splitExtras, List.getLast?_reverse] at hm
  simpa [Option.mem_def.1 hm] using hhead

/-- The last tree that is not extra is where a row of trees is split. -/
theorem splitExtras_of_isExtra {ms es : List Measured} {m : Measured} (hm : m.isExtra = false)
    (hes : ∀ e ∈ es, e.isExtra) : splitExtras (ms ++ m :: es) = (ms ++ [m], es) := by
  have hrev : (ms ++ m :: es).reverse = es.reverse ++ m :: ms.reverse := by simp
  have hes' : ∀ e ∈ es.reverse, e.isExtra := by simpa using hes
  simp only [splitExtras, hrev, List.dropWhile_append_of_pos hes',
    List.takeWhile_append_of_pos hes', List.dropWhile_cons, List.takeWhile_cons, hm,
    Bool.false_eq_true, ↓reduceIte]
  simp

end Measured

end CalcTree
