import CalcTree.Proofs.Comments
import CalcTree.Proofs.Spacing
import Mathlib.Data.List.Chain

/-!
# Sources in one file

Two sources without damage that are put into one file, each on lines of its own, give a file without
damage (`Document.concatenates`). It has the statements of both, with all comments where they were
(`Document.figures_lines`), with one exception: where a statement that ends in an expression comes
before a minus, the minus continues it, and the two statements around it are one.
-/

namespace CalcTree

/-! ## Statements as shown -/

namespace Shape

/-- Whether a statement assigns a function to a name. -/
def AssignsFunction (s : Shape) : Prop :=
  ∃ a ∈ s.parts, a.kind = .nonterminal .assignment ∧
    ∃ v ∈ a.parts, v.field = some .value ∧ v.kind = .nonterminal .functionBody

instance (s : Shape) : Decidable s.AssignsFunction :=
  inferInstanceAs (Decidable (∃ a ∈ s.parts, _ ∧ ∃ v ∈ a.parts, _))

end Shape

namespace Derivation

mutual

/-- The tokens of a derivation are shown, each once. -/
theorem tokensAll_shapes : ∀ (field : Option Field) (d : Derivation),
    Shape.tokensAll (d.shapes field) = d.yield
  | field, token t => by simp [shapes, Shape.tokensAll, Shape.tokens, yield]
  | field, node p ds => by
    rw [shapes, yield]
    split_ifs
    · rw [Shape.tokensAll, Shape.tokensAll, Shape.tokens, tokensAll_shapesAll, List.append_nil]
      nofun
    · exact tokensAll_shapesAll _ _ _ ds

theorem tokensAll_shapesAll (roles : Nat → Option Field) (inherited : Option Field) :
    ∀ (i : Nat) (ds : List Derivation),
      Shape.tokensAll (shapesAll roles inherited i ds) = yieldAll ds
  | _, [] => rfl
  | i, d :: ds => by
    rw [shapesAll, Shape.tokensAll_append, tokensAll_shapes, tokensAll_shapesAll, yieldAll]

end

end Derivation

namespace Statement

variable (s : Statement)

theorem kind_shape : s.shape.kind = .nonterminal .statement := by
  cases s <;> rfl

theorem tokens_shape : s.shape.tokens = s.tokens := by
  have h := Derivation.tokensAll_shapes none s.derivation
  rwa [shapes_derivation, yield_derivation, Shape.tokensAll, Shape.tokensAll, List.append_nil] at h

theorem assignsFunction_shape : s.shape.AssignsFunction ↔ s.endsInExpression = false := by
  cases s <;>
    simp [Shape.AssignsFunction, shape, Shape.construct, Shape.token, Shape.parts, Shape.kind,
      Shape.field, endsInExpression]

end Statement

namespace Node

/-- The statements of a file. -/
def statements (root : Node) : List Node :=
  root.children.filter (·.kind = .nonterminal .statement)

theorem kind_shape (n : Node) : n.shape.kind = n.kind := by
  rw [shape_eq, Shape.kind]

theorem map_shape_statements (n : Node) : n.statements.map shape =
    (shapeAll n.children).filter (·.kind = .nonterminal .statement) := by
  rw [statements]
  induction n.children with
  | nil => rfl
  | cons n ns ih =>
    rw [shapeAll, List.filter_cons]
    by_cases hs : n.kind = .nonterminal .statement
    · simp [hs, ih, kind_shape]
    · split_ifs <;> simp_all [kind_shape]

theorem map_figure_statements (n : Node) : n.statements.map figure =
    (figures n.children).filter (·.kind = .nonterminal .statement) := by
  rw [figures_eq, List.filter_map, statements]
  simp only [Function.comp_def, kind_figure]

theorem shapeAll_children {root : Node} {P : Program} (h : root.shape = P.shape) :
    shapeAll root.children = P.map Statement.shape := by
  rw [shape_eq, Program.shape, Shape.construct, Shape.mk.injEq] at h
  exact h.2.2

theorem map_shape_statements_eq {root : Node} {P : Program} (h : root.shape = P.shape) :
    root.statements.map shape = P.map Statement.shape := by
  rw [map_shape_statements, shapeAll_children h, List.filter_eq_self]
  intro s hs
  obtain ⟨s, -, rfl⟩ := List.mem_map.1 hs
  simpa using s.kind_shape

/-- If two statements of two files are one in a third file, the third has one statement less than
both. -/
theorem statements_joined {d e f : Node} {P Q : Program} {s t u : Statement}
    (hd : d.shape = Program.shape (P ++ [s])) (he : e.shape = Program.shape (t :: Q))
    (hf : f.shape = Program.shape (P ++ u :: Q)) (hu : u.tokens = s.tokens ++ t.tokens) :
    ∃ s ∈ d.statements.getLast?, ∃ t ∈ e.statements.head?,
      ∃ u, u.tokens = s.shape.tokens ++ t.shape.tokens ∧
        f.statements.map shape =
          d.statements.dropLast.map shape ++ u :: e.statements.tail.map shape ∧
        f.statements.length = d.statements.length + e.statements.length - 1 := by
  have hd' := map_shape_statements_eq hd
  have he' := map_shape_statements_eq he
  have hf' := map_shape_statements_eq hf
  rw [List.map_append, List.map_singleton, List.map_eq_append_iff] at hd'
  rw [List.map_cons, List.map_eq_cons_iff] at he'
  obtain ⟨front, last, hfirst, hfront, hlast⟩ := hd'
  obtain ⟨n, rfl, hn⟩ := List.map_eq_singleton_iff.1 hlast
  obtain ⟨m, back, hsecond, hm, hback⟩ := he'
  rw [List.map_append, List.map_cons, ← hfront, ← hback] at hf'
  refine ⟨n, by simp [hfirst], m, by simp [hsecond], u.shape, ?_, ?_, ?_⟩
  · rw [hn, hm, Statement.tokens_shape, Statement.tokens_shape, Statement.tokens_shape, hu]
  · rw [hf', hfirst, hsecond, List.dropLast_concat, List.tail_cons]
  · have hlength := congrArg List.length hf'
    simp only [List.length_map, List.length_append, List.length_cons] at hlength
    simp only [hfirst, hsecond, List.length_append, List.length_cons, List.length_nil]
    omega

end Node

/-! ## Texts on lines of their own -/

namespace Lexeme

variable {l : Lexeme} {ls : List Lexeme} {rest tail : List Char}

theorem known_iff : Known ls ↔ .unknown ∉ ls.map Lexeme.kind := by
  simp [Known]

/-- A line feed ends every token. -/
theorem Stands.append_line_feed (h : l.Stands rest) (hk : l.kind ≠ .unknown) (cs : List Char) :
    l.Stands (rest ++ '\n' :: cs) := by
  obtain ⟨hblank, c, text, htext, hc, hfirst⟩ := h
  refine ⟨hblank, c, text, htext, hc, ?_⟩
  rcases hstart : starts? c with _ | t <;>
    simp only [first, hstart, htext, Prod.mk.injEq, List.cons.injEq, true_and] at hfirst ⊢
  · exact absurd hfirst.1.symm hk
  obtain ⟨hall, hend⟩ := takeWhile_append_eq hfirst.2
  refine ⟨hfirst.1, ?_⟩
  rw [List.takeWhile_append_of_pos hall, List.append_right_eq_self]
  rcases rest with _ | ⟨x, rest⟩
  · simp [continues_line_feed]
  · simp [hend x rfl]

theorem Reads.append_line_feed (h : Reads ls tail) (hknown : Known ls) (cs : List Char) :
    Reads ls (tail ++ '\n' :: cs) := by
  induction h with
  | nil tail => exact .nil _
  | @cons l ls tail hl h ih =>
    have hl' := hl.append_line_feed (hknown l List.mem_cons_self) cs
    rw [List.append_assoc] at hl'
    exact .cons hl' (ih fun m hm => hknown m (List.mem_cons_of_mem l hm))

end Lexeme

namespace Scan

/-- What comes on the lines after a text without unknown characters is cut up on its own. -/
theorem map_kind_append_line_feed {cs : List Char} (hknown : Lexeme.Known (plain cs).lexemes)
    (ds : List Char) : (plain (cs ++ '\n' :: ds)).lexemes.map Lexeme.kind =
      (plain cs).lexemes.map Lexeme.kind ++ (plain ds).lexemes.map Lexeme.kind := by
  obtain ⟨tail, hcs, hreads, htail⟩ :=
    Lexeme.Reads.of_plain (List.append_nil (plain cs).lexemes).symm
  have hblank : ∀ c ∈ tail, Lexeme.isBlank c := by
    rcases blank_or_first tail with h | ⟨blank, c, rest, rfl, hblank, hc⟩
    · exact h
    · rw [plain_of_first rest hblank hc] at htail
      cases htail
  have hline : ∀ c ∈ tail ++ ['\n'], Lexeme.isBlank c := by
    simpa [or_imp, forall_and] using ⟨hblank, rfl⟩
  nth_rewrite 1 [hcs]
  rw [List.append_assoc, (hreads.append_line_feed hknown ds).plain_eq, List.map_append,
    ← List.singleton_append, ← List.append_assoc, map_kind_blank_append hline]

theorem unmarked_append_line_feed (front back : List Char) :
    unmarked (front ++ '\n' :: back) = unmarked front ++ '\n' :: back := by
  rcases front with _ | ⟨c, front⟩
  · rfl
  · exact unmarked_append (List.cons_ne_nil c front) _

theorem unmarked_eq_self {source : List Char} (h : source.head? ≠ some Lexeme.byteOrderMark) :
    unmarked source = source := by
  rcases source with _ | ⟨c, cs⟩
  · rfl
  · rw [unmarked, if_neg (by simpa using h)]

end Scan

/-- A source on lines after another one is cut up as it is on its own. -/
theorem Scan.map_kind_lines {first second : String}
    (hknown : Lexeme.Known (ofChars first.toList).lexemes)
    (hmark : second.toList.head? ≠ some Lexeme.byteOrderMark) :
    (ofChars (first ++ "\n" ++ second).toList).lexemes.map Lexeme.kind =
      ((ofChars first.toList).lexemes ++ (ofChars second.toList).lexemes).map Lexeme.kind := by
  have htext : (first ++ "\n" ++ second).toList = first.toList ++ '\n' :: second.toList := by
    simp
  have hplain : Lexeme.Known (plain (unmarked first.toList)).lexemes := by
    simp only [Lexeme.known_iff, ← map_kind_ofChars] at hknown ⊢
    exact hknown
  rw [htext, map_kind_ofChars, unmarked_append_line_feed, map_kind_append_line_feed hplain,
    List.map_append, map_kind_ofChars, map_kind_ofChars, unmarked_eq_self hmark]

theorem Spells.append_line_feed {first second : String} {v w : List Terminal}
    (hv : Spells first v) (hw : Spells second w)
    (hmark : second.toList.head? ≠ some Lexeme.byteOrderMark) :
    Spells (first ++ "\n" ++ second) (v ++ w) := by
  have hwords := Lexeme.words_congr (Scan.map_kind_lines hv.1 hmark)
  rw [spells_iff_words] at hv hw ⊢
  rw [hwords, Lexeme.words, List.filterMap_append, ← Lexeme.words, ← Lexeme.words, hv, hw,
    List.map_append]

/-! ## Statements one after the other -/

namespace Program

variable {P Q : Program} {s t : Statement}

theorem tokens_append (P Q : Program) : tokens (P ++ Q) = P.tokens ++ Q.tokens :=
  List.flatMap_append

theorem head?_tokens (t : Statement) (Q : Program) :
    (tokens (t :: Q)).head? = t.tokens.head? := by
  rw [tokens_cons, List.head?_append_of_ne_nil _ t.tokens_ne_nil]

/-- Where two programs meet in statements of which the second continues the first, the two
statements become one. -/
theorem WellFormed.exists_join (hP : WellFormed (P ++ [s])) (hQ : WellFormed (t :: Q))
    (h : ¬ s.Follows t) : ∃ u : Statement, u.tokens = s.tokens ++ t.tokens ∧
      WellFormed (P ++ u :: Q) := by
  obtain ⟨u, hu, hfollows⟩ := Statement.exists_join h
  have hfront : WellFormed (P ++ [u]) := by
    refine List.isChain_append.2 ⟨(List.isChain_append.1 hP).1, .singleton u, ?_⟩
    intro v hv x hx hends
    obtain rfl : u = x := by simpa using hx
    have hstart := (List.isChain_append.1 hP).2.2 v hv s rfl hends
    rwa [hu, List.head?_append_of_ne_nil _ s.tokens_ne_nil]
  exact ⟨u, hu, List.isChain_split.2 ⟨hfront, List.IsChain.cons_of_imp hfollows hQ⟩⟩

end Program

namespace Document

/-- Whether the last statement of a document goes on in a source that comes after it. A minus
continues every statement but the assignment of a function. -/
def GoesOn (d : Document) (source : String) : Prop :=
  (∃ s ∈ d.root.statements.getLast?, ¬ s.shape.AssignsFunction) ∧
    (Lexeme.terminals (Scan.ofChars source.toList).lexemes).head? = some .minus

instance (d : Document) (source : String) : Decidable (d.GoesOn source) :=
  inferInstanceAs (Decidable ((∃ s ∈ d.root.statements.getLast?, _) ∧ _))

theorem goesOn_iff {d : Document} {source : String} {P Q : Program}
    (hd : d.root.shape = P.shape) (hs : Spells source Q.tokens) :
    d.GoesOn source ↔ ∃ s ∈ P.getLast?, ∃ t ∈ Q.head?, ¬ s.Follows t := by
  have hlast : (∃ s ∈ d.root.statements.getLast?, ¬ s.shape.AssignsFunction) ↔
      ∃ s ∈ P.getLast?, s.endsInExpression := by
    have hmap : (∃ s ∈ d.root.statements.getLast?, ¬ s.shape.AssignsFunction) ↔
        ∃ s ∈ (d.root.statements.map Node.shape).getLast?, ¬ s.AssignsFunction := by
      simp
    rw [hmap, Node.map_shape_statements_eq hd]
    simp [Statement.assignsFunction_shape]
  have hstart : Q.tokens.head? = some .minus ↔ ∃ t ∈ Q.head?, t.tokens.head? = some .minus := by
    rcases Q with _ | ⟨t, Q⟩
    · simp [Program.tokens]
    · simp [Program.head?_tokens]
  rw [GoesOn, hlast, hs.2, hstart]
  simp only [Statement.Follows, not_forall, not_not, exists_prop]
  constructor
  · rintro ⟨⟨s, hs, hends⟩, t, ht, hminus⟩
    exact ⟨s, hs, t, ht, hends, hminus⟩
  · rintro ⟨s, hs, t, ht, hends, hminus⟩
    exact ⟨⟨s, hs, hends⟩, t, ht, hminus⟩

/-- A document that passes the check shows a program in which its source is written. -/
theorem exists_program {source : String} {d : Document} (h : (check source).value = .ok d) :
    ∃ P : Program, P.WellFormed ∧ Spells source P.tokens ∧ d.root.shape = P.shape := by
  obtain ⟨h, hd⟩ := check_eq_ok_iff.1 h
  obtain ⟨P, hP, hs⟩ := grammatical_iff.1 (grammatical_of_parse h hd)
  exact ⟨P, hP, hs, shape_eq_of_parse h hP hs⟩

theorem check_of_wellFormed {source : String} {P : Program} (hP : P.WellFormed)
    (hs : Spells source P.tokens) :
    ∃ d, (check source).value = .ok d ∧ d.root.shape = P.shape := by
  obtain ⟨d, h, hd, hshape⟩ := parse_of_wellFormed hP hs
  exact ⟨d, check_eq_ok_iff.2 ⟨h, hd⟩, hshape⟩

variable {first second : String} {d e f : Document}

/-- If the statements of a file are those of two sources, so is all that is shown below its root:
the comments stand where they stand in the sources. -/
theorem figures_lines (hd : (check first).value = .ok d) (he : (check second).value = .ok e)
    (hf : (check (first ++ "\n" ++ second)).value = .ok f)
    (hmark : second.toList.head? ≠ some Lexeme.byteOrderMark)
    (h : Node.shapeAll f.root.children =
      Node.shapeAll d.root.children ++ Node.shapeAll e.root.children) :
    Node.figures f.root.children =
      Node.figures d.root.children ++ Node.figures e.root.children := by
  obtain ⟨P, -, hs, -⟩ := exists_program hd
  obtain ⟨hdsnug, hdtokens⟩ := snug_of_check hd
  obtain ⟨hesnug, hetokens⟩ := snug_of_check he
  obtain ⟨hfsnug, hftokens⟩ := snug_of_check hf
  refine Shape.eq_of_bareAll hfsnug (fun s hs => ?_) ?_ ?_
  · exact (List.mem_append.1 hs).elim (hdsnug s) (hesnug s)
  · rw [Shape.bareAll_append, Node.bareAll_figures, Node.bareAll_figures, Node.bareAll_figures, h]
  · have hinj : Function.Injective Lexeme.Kind.token := fun _ _ => Lexeme.Kind.token.inj
    refine List.map_injective_iff.2 hinj ?_
    rw [Shape.tokensAll_append, List.map_append, hdtokens, hetokens, hftokens,
      Scan.map_kind_lines hs.1 hmark, List.map_append]

/-- Two sources without damage in one file, the second of them on lines after the first, are a file
without damage. Unless the last statement of the first goes on in the second, the file has the
statements of the first and then those of the second; otherwise the two statements that meet are
one. -/
theorem concatenates (h : (check first).value = .ok d) (h' : (check second).value = .ok e)
    (hmark : second.toList.head? ≠ some Lexeme.byteOrderMark) :
    ∃ f, (check (first ++ "\n" ++ second)).value = .ok f ∧
      (d.GoesOn second → ∃ s ∈ d.root.statements.getLast?, ∃ t ∈ e.root.statements.head?,
        ∃ u, u.tokens = s.shape.tokens ++ t.shape.tokens ∧
          f.root.statements.map Node.shape = d.root.statements.dropLast.map Node.shape ++
            u :: e.root.statements.tail.map Node.shape ∧
          f.root.statements.length =
            d.root.statements.length + e.root.statements.length - 1) ∧
      (¬ d.GoesOn second → f.root.statements.map Node.figure =
          d.root.statements.map Node.figure ++ e.root.statements.map Node.figure ∧
        f.root.statements.length = d.root.statements.length + e.root.statements.length) := by
  obtain ⟨P, hP, hPs, hd⟩ := exists_program h
  obtain ⟨Q, hQ, hQs, he⟩ := exists_program h'
  have hs := hPs.append_line_feed hQs hmark
  by_cases hon : d.GoesOn second
  · obtain ⟨s, hlast, t, hhead, hjoin⟩ := (goesOn_iff hd hQs).1 hon
    obtain ⟨P, rfl⟩ := List.getLast?_eq_some_iff.1 hlast
    obtain ⟨Q, rfl⟩ := List.head?_eq_some_iff.1 hhead
    obtain ⟨u, hu, hwell⟩ := hP.exists_join hQ hjoin
    have htokens : Program.tokens (P ++ u :: Q) =
        Program.tokens (P ++ [s]) ++ Program.tokens (t :: Q) := by
      simp [Program.tokens, hu]
    rw [← htokens] at hs
    obtain ⟨f, hf, hshape⟩ := check_of_wellFormed hwell hs
    exact ⟨f, hf, fun _ => Node.statements_joined hd he hshape hu, absurd hon⟩
  · have hfollows : ∀ s ∈ P.getLast?, ∀ t ∈ Q.head?, s.Follows t := by
      simpa [goesOn_iff hd hQs] using hon
    rw [← Program.tokens_append] at hs
    obtain ⟨f, hf, hshape⟩ :=
      check_of_wellFormed (List.isChain_append.2 ⟨hP, hQ, hfollows⟩) hs
    refine ⟨f, hf, fun h => absurd h hon, fun _ => ?_⟩
    have hfigures := figures_lines h h' hf hmark (by
      rw [Node.shapeAll_children hshape, Node.shapeAll_children hd, Node.shapeAll_children he,
        List.map_append])
    have hstatements : f.root.statements.map Node.figure =
        d.root.statements.map Node.figure ++ e.root.statements.map Node.figure := by
      simp only [Node.map_figure_statements, hfigures, List.filter_append]
    exact ⟨hstatements, by simpa using congrArg List.length hstatements⟩

theorem concatenates_minus : ∃ d d' e f f', (check "x\\y").value = .ok d ∧
    (check "f:\x7b\\y\n1\x7d").value = .ok d' ∧ (check "-1").value = .ok e ∧
    (check ("x\\y" ++ "\n" ++ "-1")).value = .ok f ∧ f.root.statements.length = 1 ∧
    (check ("f:\x7b\\y\n1\x7d" ++ "\n" ++ "-1")).value = .ok f' ∧
    f'.root.statements.map Node.figure =
      d'.root.statements.map Node.figure ++ e.root.statements.map Node.figure := by
  obtain ⟨d, h, hon, hlength⟩ := exists_checked 1000 "x\\y"
    (fun d => d.GoesOn "-1" ∧ d.root.statements.length = 1) (by decide +kernel)
  obtain ⟨d', h', hon'⟩ := exists_checked 1000 "f:\x7b\\y\n1\x7d" (fun d => ¬ d.GoesOn "-1")
    (by decide +kernel)
  obtain ⟨e, he, hone⟩ := exists_checked 1000 "-1" (fun e => e.root.statements.length = 1)
    (by decide +kernel)
  obtain ⟨f, hf, hjoin, -⟩ := concatenates h he (by decide)
  obtain ⟨f', hf', -, hboth⟩ := concatenates h' he (by decide)
  refine ⟨d, d', e, f, f', h, h', he, hf, ?_, hf', (hboth hon').1⟩
  obtain ⟨s, -, t, -, u, -, -, hsum⟩ := hjoin hon
  rw [hsum, hlength, hone]

end Document

end CalcTree
