import CalcTree.Proofs.Acceptance
import CalcTree.Proofs.Places

/-!
# Where comments stand

In what is shown of a sound source, comments stand between the parts of constructs and around the
statements, never at the ends of a construct (`Tree.Snug.snug_display`). So the tokens, comments
among them, and what is shown apart from comments leave only one place for each comment
(`Shape.eq_of_bareAll`).
-/

namespace CalcTree

namespace Shape

def kind : Shape → Kind
  | mk kind _ _ => kind

def field : Shape → Option Field
  | mk _ field _ => field

def parts : Shape → List Shape
  | mk _ _ parts => parts

mutual

/-- The tokens that are shown, from left to right. -/
def tokens : Shape → List Terminal
  | mk (.terminal t) _ _ => [t]
  | mk _ _ parts => tokensAll parts

def tokensAll : List Shape → List Terminal
  | [] => []
  | s :: ss => tokens s ++ tokensAll ss

end

mutual

/-- A shape without the comments below it. -/
def bare : Shape → Shape
  | mk kind field parts => mk kind field (bareAll parts)

def bareAll : List Shape → List Shape
  | [] => []
  | s :: ss => if s.kind = .terminal .comment then bareAll ss else bare s :: bareAll ss

end

theorem tokensAll_append (ss us : List Shape) :
    tokensAll (ss ++ us) = tokensAll ss ++ tokensAll us := by
  induction ss with
  | nil => rfl
  | cons s ss ih => rw [List.cons_append, tokensAll, tokensAll, ih, List.append_assoc]

theorem bareAll_append (ss us : List Shape) : bareAll (ss ++ us) = bareAll ss ++ bareAll us := by
  induction ss with
  | nil => rfl
  | cons s ss ih =>
    rw [List.cons_append, bareAll, bareAll, ih]
    split_ifs <;> rfl

mutual

theorem tokens_bare : ∀ s : Shape, s.kind ≠ .terminal .comment →
    s.bare.tokens = s.tokens.filter (· ≠ .comment)
  | mk (.terminal t) field parts, h => by
    rw [bare, tokens, tokens, List.filter_cons_of_pos (by simpa [kind] using h), List.filter_nil]
  | mk (.nonterminal n) field parts, _ => tokensAll_bareAll parts
  | mk .finish field parts, _ => tokensAll_bareAll parts
  | mk .error field parts, _ => tokensAll_bareAll parts
  | mk .skipped field parts, _ => tokensAll_bareAll parts

theorem tokensAll_bareAll : ∀ ss : List Shape,
    tokensAll (bareAll ss) = (tokensAll ss).filter (· ≠ .comment)
  | [] => rfl
  | s :: ss => by
    rw [bareAll, tokensAll, List.filter_append, ← tokensAll_bareAll ss]
    split_ifs with h
    · obtain ⟨kind, field, parts⟩ := s
      obtain rfl : kind = .terminal .comment := h
      rfl
    · rw [tokensAll, tokens_bare s h]

end

/-! ## The places of comments -/

/-- Whether neither the first of some tokens nor the last is a comment. -/
def Bounded (w : List Terminal) : Prop :=
  (∃ t ∈ w.head?, t ≠ .comment) ∧ ∃ t ∈ w.getLast?, t ≠ .comment

variable {v w x y : List Terminal} {s u : Shape}

theorem Bounded.ne_nil (h : Bounded w) : w ≠ [] := by
  rintro rfl
  obtain ⟨⟨t, ht, -⟩, -⟩ := h
  cases ht

/-- What starts like one and ends like another. -/
theorem Bounded.append (hv : Bounded v) (hy : Bounded y) (h : v ++ w = x ++ y) :
    Bounded (v ++ w) := by
  constructor
  · rw [List.head?_append_of_ne_nil _ hv.ne_nil]
    exact hv.1
  · rw [h, List.getLast?_append_of_ne_nil _ hy.ne_nil]
    exact hy.2

theorem Bounded.eq_nil_of_filter (h : Bounded (v ++ w))
    (hcore : (v ++ w).filter (· ≠ .comment) = v.filter (· ≠ .comment)) : w = [] := by
  by_contra hne
  obtain ⟨t, ht, hcomment⟩ := h.2
  rw [List.getLast?_append_of_ne_nil _ hne] at ht
  rw [List.filter_append, List.append_right_eq_self, List.filter_eq_nil_iff] at hcore
  exact hcore t (List.mem_of_getLast? ht) (by simpa using hcomment)

/-- A beginning that ends in no comment is told by its tokens that are none. -/
theorem Bounded.append_inj (hv : Bounded v) (hw : Bounded w)
    (hcore : v.filter (· ≠ .comment) = w.filter (· ≠ .comment)) (h : v ++ x = w ++ y) :
    v = w ∧ x = y := by
  rcases List.append_eq_append_iff.1 h with ⟨z, rfl, rfl⟩ | ⟨z, rfl, rfl⟩
  · obtain rfl := hw.eq_nil_of_filter hcore.symm
    simp
  · obtain rfl := hv.eq_nil_of_filter hcore
    simp

/-- Whether comments stand between the parts of constructs only. -/
inductive Snug : Shape → Prop
  | token (t : Terminal) (field : Option Field) (hfield : t = .comment → field = none) :
      Snug (.mk (.terminal t) field [])
  | construct (n : Nonterminal) (field : Option Field) (parts : List Shape)
      (hends : Bounded (tokensAll parts)) (hparts : ∀ s ∈ parts, Snug s) :
      Snug (.mk (.nonterminal n) field parts)

theorem Snug.bounded (h : s.Snug) (hs : s.kind ≠ .terminal .comment) : Bounded s.tokens := by
  cases h with
  | token t field hfield =>
    have ht : t ≠ .comment := by simpa [kind] using hs
    simpa [Bounded, tokens] using ht
  | construct n field parts hends hparts => exact hends

theorem Snug.eq_of_kind (h : s.Snug) (hs : s.kind = .terminal .comment) :
    s = .mk (.terminal .comment) none [] := by
  cases h with
  | token t field hfield =>
    obtain rfl : t = .comment := by simpa [kind] using hs
    rw [hfield rfl]
  | construct n field parts hends hparts => simp [kind] at hs

/-- Whether a shape is a comment can be told from its first token. -/
theorem Snug.kind_eq_iff (h : s.Snug) :
    s.kind = .terminal .comment ↔ s.tokens.head? = some .comment := by
  by_cases hs : s.kind = .terminal .comment
  · rw [h.eq_of_kind hs]
    simp [kind, tokens]
  · obtain ⟨⟨t, ht, hne⟩, -⟩ := h.bounded hs
    simp [hs, Option.mem_def.1 ht, hne]

theorem Snug.tokens_ne_nil (h : s.Snug) : s.tokens ≠ [] := by
  by_cases hs : s.kind = .terminal .comment
  · rw [h.eq_of_kind hs]
    simp [tokens]
  · exact (h.bounded hs).ne_nil

mutual

theorem eq_of_bare : ∀ {s u : Shape}, s.Snug → u.Snug → s.bare = u.bare → s.tokens = u.tokens →
    s = u
  | mk kind field parts, mk kind' field' parts', hs, hu, hbare, htokens => by
    rw [bare, bare, mk.injEq] at hbare
    obtain ⟨rfl, rfl, hbare⟩ := hbare
    cases hs with
    | token t _ _ =>
      cases hu
      rfl
    | construct n _ _ _ hparts =>
      cases hu with
      | construct _ _ _ _ hparts' => rw [eq_of_bareAll hparts hparts' hbare htokens]

/-- Rows that differ in comments only are the same if their tokens are, comments included. -/
theorem eq_of_bareAll : ∀ {ss us : List Shape}, (∀ s ∈ ss, s.Snug) → (∀ u ∈ us, u.Snug) →
    bareAll ss = bareAll us → tokensAll ss = tokensAll us → ss = us
  | [], [], _, _, _, _ => rfl
  | [], u :: us, _, hu, _, htokens => by
    have hnil := (List.append_eq_nil_iff.1 htokens.symm).1
    exact absurd hnil (hu u (by simp)).tokens_ne_nil
  | s :: ss, [], hs, _, _, htokens => by
    have hnil := (List.append_eq_nil_iff.1 htokens).1
    exact absurd hnil (hs s (by simp)).tokens_ne_nil
  | s :: ss, u :: us, hs, hu, hbare, htokens => by
    have hss : ∀ s ∈ ss, s.Snug := fun s h => hs s (by simp [h])
    have hus : ∀ u ∈ us, u.Snug := fun u h => hu u (by simp [h])
    replace hs := hs s (by simp)
    replace hu := hu u (by simp)
    rw [tokensAll, tokensAll] at htokens
    have hkind : s.kind = .terminal .comment ↔ u.kind = .terminal .comment := by
      rw [hs.kind_eq_iff, hu.kind_eq_iff, ← List.head?_append_of_ne_nil _ hs.tokens_ne_nil, htokens,
        List.head?_append_of_ne_nil _ hu.tokens_ne_nil]
    rw [bareAll, bareAll] at hbare
    by_cases hc : s.kind = .terminal .comment
    · have hsu : s = u := (hs.eq_of_kind hc).trans (hu.eq_of_kind (hkind.1 hc)).symm
      rw [if_pos hc, if_pos (hkind.1 hc)] at hbare
      rw [hsu, List.append_cancel_left_eq] at htokens
      rw [hsu, eq_of_bareAll hss hus hbare htokens]
    · have hc' := fun h => hc (hkind.2 h)
      rw [if_neg hc, if_neg hc', List.cons.injEq] at hbare
      have hcore : s.tokens.filter (· ≠ .comment) = u.tokens.filter (· ≠ .comment) := by
        rw [← tokens_bare s hc, ← tokens_bare u hc', hbare.1]
      obtain ⟨hfirst, hrest⟩ := (hs.bounded hc).append_inj (hu.bounded hc') hcore htokens
      rw [eq_of_bare hs hu hbare.1 hfirst, eq_of_bareAll hss hus hbare.2 hrest]

end

end Shape

/-! ## What is shown with comments -/

namespace Node

open Shape (Bounded tokensAll)

mutual

/-- What is shown of a node, comments included. -/
def figure : Node → Shape
  | { kind := kind, field := field, children := cs, .. } => .mk kind field (figures cs)

def figures : List Node → List Shape
  | [] => []
  | n :: ns => figure n :: figures ns

end

theorem figure_eq (n : Node) : n.figure = .mk n.kind n.field (figures n.children) := by
  cases n
  rfl

theorem figures_eq (ns : List Node) : figures ns = ns.map figure := by
  induction ns with
  | nil => rfl
  | cons n ns ih => rw [figures, ih, List.map_cons]

theorem kind_figure (n : Node) : n.figure.kind = n.kind := by
  rw [figure_eq, Shape.kind]

mutual

theorem bare_figure : ∀ n : Node, n.figure.bare = n.shape
  | { children := cs, .. } => by rw [figure, Shape.bare, bareAll_figures cs, shape]

/-- What is shown but for comments. -/
theorem bareAll_figures : ∀ ns : List Node, Shape.bareAll (figures ns) = shapeAll ns
  | [] => rfl
  | n :: ns => by
    rw [figures, Shape.bareAll, kind_figure, bare_figure n, bareAll_figures ns, shapeAll]

end

/-- The tokens that are shown of nodes in a row. -/
def tokens (ns : List Node) : List Terminal :=
  tokensAll (figures ns)

theorem tokens_append (ns ms : List Node) : tokens (ns ++ ms) = tokens ns ++ tokens ms := by
  rw [tokens, figures_eq, List.map_append, ← figures_eq, ← figures_eq, Shape.tokensAll_append]
  rfl

theorem tokens_ofTree (p : Production) (cs : List Tree) (place stop : Extent)
    (field : Option Field) (ns : List Node) :
    tokens [ofTree (.node p cs) place stop field ns] = tokens ns := by
  rw [tokens, figures, figures, figure_eq, tokensAll, tokensAll, Shape.tokens, List.append_nil]
  · rfl
  · nofun

theorem tokens_layoutAll {cs : List Tree} (h : ∀ c ∈ cs, ∀ place field,
      (tokens (display place field c)).map .token = c.leaves.map Lexeme.kind)
    (roles : Nat → Option Field) (inherited : Option Field) : ∀ (i : Nat) (place : Extent),
    (tokens (layoutAll roles inherited i place cs).1).map .token =
      (Tree.leavesAll cs).map Lexeme.kind := by
  induction cs with
  | nil => exact fun _ _ => rfl
  | cons c cs ih =>
    intro i place
    rw [layoutAll_cons, tokens_append, List.map_append, h c (by simp),
      ih (fun d hd => h d (by simp [hd])), Tree.leavesAll, List.map_append]

theorem bounded_layoutAll {cs : List Tree} (hne : cs ≠ [])
    (hfirst : ∀ c ∈ cs.head?, ∀ place field, Bounded (tokens (display place field c)))
    (hlast : ∀ c ∈ cs.getLast?, ∀ place field, Bounded (tokens (display place field c)))
    (roles : Nat → Option Field) (inherited : Option Field) (i : Nat) (place : Extent) :
    Bounded (tokens (layoutAll roles inherited i place cs).1) := by
  obtain ⟨c, cs, rfl⟩ := List.exists_cons_of_ne_nil hne
  obtain ⟨front, c', hsplit⟩ := List.eq_nil_or_concat' (c :: cs) |>.resolve_left hne
  have hstart := congrArg tokens (layoutAll_cons roles inherited i place c cs)
  have hend := congrArg tokens (layoutAll_append roles inherited front [c'] i place)
  rw [layoutAll_cons, layoutAll_nil, List.append_nil, ← hsplit, tokens_append] at hend
  rw [tokens_append] at hstart
  rw [hstart]
  refine (hfirst c rfl _ _).append (hlast c' ?_ _ _) (hstart.symm.trans hend)
  rw [hsplit, List.getLast?_concat]
  rfl

theorem snug_layoutAll {cs : List Tree} (h : ∀ c ∈ cs, ∀ place field,
      (c.isExtra → field = none) → ∀ n ∈ display place field c, n.figure.Snug)
    (roles : Nat → Option Field) (inherited : Option Field) : ∀ (i : Nat) (place : Extent),
    ∀ n ∈ (layoutAll roles inherited i place cs).1, n.figure.Snug := by
  induction cs with
  | nil => simp [layoutAll_nil]
  | cons c cs ih =>
    intro i place n hn
    rw [layoutAll_cons] at hn
    rcases List.mem_append.1 hn with hn | hn
    · exact h c (by simp) place _ (fun he => by simp [fieldOf, he]) n hn
    · exact ih (fun d hd => h d (by simp [hd])) _ _ n hn

end Node

namespace Tree

open Node (display)

variable {t : Tree}

theorem figure_leaf {l : Lexeme} {a : Terminal} (hl : l.kind = .token a) (place : Extent)
    (field : Option Field) : Node.figures (display place field (.leaf l)) =
      [.mk (.terminal a) field []] := by
  simp [display, isVisible, kind, hl, Kind.isVisible, Node.figures, Node.figure, Node.ofTree,
    Node.under, children, Node.layoutAll_nil]

theorem tokens_node (p : Production) (cs : List Tree) (place : Extent) (field : Option Field) :
    ∃ inherited, Node.tokens (display place field (.node p cs)) =
      Node.tokens (Node.under place inherited (.node p cs)) := by
  unfold display
  split_ifs
  · exact ⟨none, Node.tokens_ofTree p cs place _ field _⟩
  · exact ⟨field, rfl⟩

theorem Snug.tokens_display (h : t.Snug) : ∀ place field,
    (Node.tokens (display place field t)).map .token = t.leaves.map Lexeme.kind := by
  induction h with
  | leaf l a hl =>
    intro place field
    rw [Node.tokens, figure_leaf hl]
    simp [Shape.tokensAll, Shape.tokens, leaves, hl]
  | finish blank => exact fun _ _ => rfl
  | node p cs hfirst hlast hcs ih =>
    intro place field
    obtain ⟨inherited, hunder⟩ := tokens_node p cs place field
    rw [hunder]
    exact Node.tokens_layoutAll ih _ _ _ _

/-- A construct in which comments stand between the parts shows no comment at its ends. -/
theorem Snug.bounded_display (h : t.Snug) (hb : t.Built) (hf : ¬ t.IsFile)
    (he : t.isExtra = false) :
    ∀ place field, Shape.Bounded (Node.tokens (display place field t)) := by
  induction h with
  | leaf l a hl =>
    intro place field
    have ha : a ≠ .comment := by simpa [isExtra, hl] using he
    rw [Node.tokens, figure_leaf hl]
    simpa [Shape.tokensAll, Shape.tokens, Shape.Bounded] using ha
  | finish blank => cases hb
  | node p cs hfirst hlast hcs ih =>
    cases hb with
    | node _ _ hp hbuilt =>
    intro place field
    have hlhs : p.lhs ≠ .sourceFile := by simpa [IsFile, symbol?] using hf
    have hpart : ∀ c ∈ cs, c.isExtra = false → ∀ place field,
        Shape.Bounded (Node.tokens (display place field c)) :=
      fun c hc => ih c hc (hbuilt c hc) (not_isFile_of_mem hp hc)
    obtain ⟨inherited, hunder⟩ := tokens_node p cs place field
    rw [hunder]
    exact Node.bounded_layoutAll (children_ne_nil hp hlhs)
      (fun c hc => hpart c (List.mem_of_head? hc) (hfirst c hc))
      (fun c hc => hpart c (List.mem_of_getLast? hc) (hlast c hc)) _ _ _ _

/-- What is shown of such a construct has no comments at its ends either. -/
theorem Snug.snug_display (h : t.Snug) (hb : t.Built) (hf : ¬ t.IsFile) : ∀ place field,
    (t.isExtra → field = none) → ∀ n ∈ display place field t, n.figure.Snug := by
  induction h with
  | leaf l a hl =>
    intro place field hfield n hn
    have hfigure : n.figure ∈ Node.figures (display place field (.leaf l)) := by
      rw [Node.figures_eq]
      exact List.mem_map_of_mem hn
    rw [figure_leaf hl, List.mem_singleton] at hfigure
    rw [hfigure]
    exact .token a field fun ha => hfield (by simp [isExtra, hl, ha])
  | finish blank => cases hb
  | node p cs hfirst hlast hcs ih =>
    intro place field _ n hn
    have hbounded := (Snug.node p cs hfirst hlast hcs).bounded_display hb hf rfl place field
    have hunder : ∀ inherited, ∀ n ∈ Node.under place inherited (.node p cs), n.figure.Snug := by
      cases hb with
      | node _ _ hp hbuilt =>
      exact fun inherited => Node.snug_layoutAll
        (fun c hc => ih c hc (hbuilt c hc) (not_isFile_of_mem hp hc)) _ _ _ _
    unfold display at hbounded hn
    split_ifs at hbounded hn
    · rw [Node.tokens_ofTree] at hbounded
      rw [List.mem_singleton.1 hn, Node.figure_eq]
      refine .construct p.lhs field _ hbounded fun s hs => ?_
      rw [Node.figures_eq] at hs
      obtain ⟨m, hm, rfl⟩ := List.mem_map.1 hs
      exact hunder none m hm
    · exact hunder field n hn

/-- A whole tree in which comments stand between the parts of constructs, or around them, shows the
tokens of its source in shapes that have no comments at their ends. -/
theorem Whole.snug_root {input : Scan} (h : t.Whole input) (hs : ∀ c ∈ t.children, c.Snug) :
    (∀ n ∈ (Node.root t).children, n.figure.Snug) ∧
      (Node.tokens (Node.root t).children).map .token = input.lexemes.map Lexeme.kind := by
  obtain ⟨cs, hcs, hb, hl⟩ := h.exists_children
  have hfile : ∀ c ∈ cs, ¬ c.IsFile := fun c hc => h.not_isFile_of_mem (by simp [hcs, hc])
  rw [Node.root_eq]
  constructor
  · refine Node.snug_layoutAll (fun c hc => ?_) _ _ _ _
    have hsnug := hs c hc
    rw [hcs] at hc
    rcases List.mem_append.1 hc with hc | hc
    · exact hsnug.snug_display (hb c hc) (hfile c hc)
    · rw [List.mem_singleton.1 hc]
      simp [Node.display_finish]
  · have htokens := Node.tokens_layoutAll (fun c hc => (hs c hc).tokens_display) t.roles none 0 0
    rw [hcs, leavesAll_append, hl, leavesAll, leaves, leavesAll, List.append_nil, List.append_nil,
      ← hcs] at htokens
    exact htokens

end Tree

/-- A document that passes the check shows the tokens of its source in shapes that have no comments
at their ends. -/
theorem Document.snug_of_check {source : String} {d : Document} (h : (check source).value = .ok d) :
    (∀ s ∈ Node.figures d.root.children, s.Snug) ∧
      (Shape.tokensAll (Node.figures d.root.children)).map .token =
        (Scan.ofChars source.toList).lexemes.map Lexeme.kind := by
  obtain ⟨h, hd⟩ := check_eq_ok_iff.1 h
  obtain ⟨P, hP, hs⟩ := grammatical_iff.1 (grammatical_of_parse h hd)
  obtain ⟨t, ht, hroot, hwhole⟩ := whole_of_parse h
  obtain ⟨u, hu, -, -, hsnug, -⟩ := Tree.ofScan?_of_settled_snug hs.1 P.valid_derivation
    P.symbol_derivation (P.yield_derivation.trans hs.2.symm) hP.settled
  obtain rfl : t = u := Option.some.inj (ht.symm.trans hu)
  obtain ⟨hfigures, htokens⟩ := hwhole.snug_root hsnug
  rw [hroot]
  refine ⟨fun s hs => ?_, htokens⟩
  rw [Node.figures_eq] at hs
  obtain ⟨n, hn, rfl⟩ := List.mem_map.1 hs
  exact hfigures n hn

end CalcTree
