import CalcTree.Proofs.Calm
import CalcTree.Proofs.Regrouping
import CalcTree.Proofs.Round

/-!
# What is accepted

A source is parsed without damage exactly if it is cut up into tokens that the grammar derives
(`Document.accepts_iff`). Then the parser never gets into trouble, and otherwise a tree that it
gives is damaged.

The trees without damage are those of well formed programs (`Document.parse_inverse_tokens`): a
well formed program can be read off its tokens, however they are written, and a tree without damage
shows the well formed program that its source is written in.
-/

namespace CalcTree

/-- Whether a source is written in these tokens, with any blanks and comments in between. -/
def Spells (source : String) (w : List Terminal) : Prop :=
  Lexeme.Known (Scan.ofChars source.toList).lexemes ∧
    Lexeme.terminals (Scan.ofChars source.toList).lexemes = w

instance (source : String) (w : List Terminal) : Decidable (Spells source w) :=
  inferInstanceAs (Decidable ((∀ l ∈ (Scan.ofChars source.toList).lexemes, _) ∧ _))

/-- Whether a source is written in tokens that the grammar derives. -/
def Grammatical (source : String) : Prop :=
  ∃ w ∈ grammar.language, Spells source w

namespace Program

variable {P Q : Program} {source : String}

theorem ofChars?_of_wellFormed (hP : P.WellFormed) (hs : Spells source P.tokens) :
    ∃ t, Tree.ofChars? source.toList = some t ∧ t.isDamaged = false ∧
      t.bare = [derivation P] ∧
      ∀ r, (Run.start (.ofChars source.toList)).Reaches r → r.Untroubled :=
  Tree.ofScan?_of_settled hs.1 P.valid_derivation P.symbol_derivation
    (P.yield_derivation.trans hs.2.symm) hP.settled

theorem exists_spells (P : Program) : ∃ source, Spells source P.tokens := by
  refine Scan.exists_source P.tokens fun t ht h => ?_
  rw [h] at ht
  exact P.comment_not_mem_tokens ht

/-- A well formed program can be read off its tokens. -/
theorem eq_of_tokens_eq (hP : P.WellFormed) (hQ : Q.WellFormed) (h : P.tokens = Q.tokens) :
    P = Q := by
  obtain ⟨source, hs⟩ := P.exists_spells
  obtain ⟨t, ht, -, hbare, -⟩ := ofChars?_of_wellFormed hP hs
  obtain ⟨u, hu, -, hbare', -⟩ := ofChars?_of_wellFormed hQ (h ▸ hs)
  obtain rfl := Option.some.inj (ht.symm.trans hu)
  refine derivation_injective ?_
  rw [hbare, List.cons.injEq] at hbare'
  exact hbare'.1

end Program

theorem grammatical_iff {source : String} :
    Grammatical source ↔ ∃ P : Program, P.WellFormed ∧ Spells source P.tokens := by
  constructor
  · rintro ⟨w, hw, hs⟩
    obtain ⟨P, hP, rfl⟩ := Program.mem_language_iff.1 hw
    exact ⟨P, hP, hs⟩
  · rintro ⟨P, hP, hs⟩
    exact ⟨P.tokens, Program.mem_language_iff.2 ⟨P, hP, rfl⟩, hs⟩

namespace Document

variable {source : String} {d : Document}

/-- A well formed program is parsed without damage, and shown as it is. -/
theorem parse_of_wellFormed {P : Program} (hP : P.WellFormed) (hs : Spells source P.tokens) :
    ∃ d, (parse source).value = .ok d ∧ d.root.isDamaged = false ∧ d.root.shape = P.shape := by
  obtain ⟨t, ht, hd, hbare, -⟩ := Program.ofChars?_of_wellFormed hP hs
  refine ⟨⟨source, .root t⟩, parse_eq_ok_iff.2 (by rw [ofSource?, ht, Option.map_some]), hd, ?_⟩
  have hwhole := Tree.whole_of_ofScan? (Scan.spaced_ofChars _) ht
  obtain ⟨e, hbare', -, -, -, -, hshapes⟩ := hwhole.standsFor hd
  rw [hbare, List.cons.injEq] at hbare'
  rw [← hbare'.1, P.shapes_derivation, List.cons.injEq] at hshapes
  exact hshapes.1.symm

theorem grammatical_of_parse (h : (parse source).value = .ok d) (hd : d.root.isDamaged = false) :
    Grammatical source := by
  obtain ⟨t, -, hroot, hwhole⟩ := whole_of_parse h
  rw [hroot] at hd
  obtain ⟨e, -, hv, hsymbol, hyield, hknown, -⟩ := hwhole.standsFor hd
  exact ⟨_, Derivation.mem_language_iff.2 ⟨e, hsymbol, hyield, hv⟩, hknown, rfl⟩

theorem exists_sound_iff :
    (∃ d, (parse source).value = .ok d ∧ d.root.isDamaged = false) ↔ Grammatical source := by
  constructor
  · rintro ⟨d, h, hd⟩
    exact grammatical_of_parse h hd
  · intro h
    obtain ⟨P, hP, hs⟩ := grammatical_iff.1 h
    obtain ⟨d, h, hd, -⟩ := parse_of_wellFormed hP hs
    exact ⟨d, h, hd⟩

/-- The parser accepts the sources that the grammar derives, and does not recover from anything on
the way. It finds damage in all other sources of which it gives a tree. -/
theorem accepts_iff (source : String) :
    ((∃ d, (parse source).value = .ok d ∧ d.root.isDamaged = false) ↔ Grammatical source) ∧
      ((∃ d, (check source).value = .ok d) ↔ Grammatical source) ∧
      (Grammatical source →
        ∀ r, (Run.start (.ofChars source.toList)).Reaches r → r.Untroubled) ∧
      (¬ Grammatical source → ∀ d, (parse source).value = .ok d → d.root.isDamaged = true) := by
  refine ⟨exists_sound_iff, ?_, fun h => ?_, fun h d hd => ?_⟩
  · simp only [check_eq_ok_iff]
    exact exists_sound_iff
  · obtain ⟨P, hP, hs⟩ := grammatical_iff.1 h
    obtain ⟨t, -, -, -, hr⟩ := Program.ofChars?_of_wellFormed hP hs
    exact hr
  · by_contra hsound
    exact h (grammatical_of_parse hd (Bool.eq_false_iff.2 hsound))

/-- The assignment of a function that takes the factorial of its parameter. -/
def factorialFunction : Program :=
  [.function (some 1)
    (.ofProduct (.ofSigned (.ofRaised (.ofSuffixed (.factorial (.ofPrimary .name))))))]

theorem accepts_function :
    (∃ d, (check "f: \x7b[x] x!\x7d").value = .ok d) ∧
      ∀ d, (parse "1+").value = .ok d → d.root.isDamaged = true := by
  constructor
  · exact (accepts_iff _).2.1.2
      (grammatical_iff.2 ⟨factorialFunction, by decide, by decide +kernel⟩)
  · refine (accepts_iff _).2.2.2 fun h => ?_
    obtain ⟨d, hd, hsound⟩ := (accepts_iff _).1.2 h
    obtain ⟨d', hd', hdamaged⟩ := exists_of_within 1000 "1+" (fun d => d.root.isDamaged)
      (by decide +kernel)
    obtain rfl := Except.ok.inj (hd.symm.trans hd')
    rw [hdamaged] at hsound
    cases hsound

/-- The trees without damage are those of well formed programs, each of which can be read off its
tokens. -/
theorem parse_inverse_tokens :
    (∀ P : Program, P.WellFormed → (∃ source, Spells source P.tokens) ∧
      ∀ source, Spells source P.tokens →
        ∃ d, (parse source).value = .ok d ∧ d.root.isDamaged = false ∧
          d.root.shape = P.shape) ∧
    ∀ source d, (parse source).value = .ok d → d.root.isDamaged = false →
      ∃ P : Program, P.WellFormed ∧ Spells source P.tokens ∧ d.root.shape = P.shape ∧
        ∀ Q : Program, Q.WellFormed → Q.tokens = P.tokens → Q = P := by
  refine ⟨fun P hP => ⟨P.exists_spells, fun source hs => parse_of_wellFormed hP hs⟩, ?_⟩
  intro source d h hd
  obtain ⟨P, hP, hs⟩ := grammatical_iff.1 (grammatical_of_parse h hd)
  obtain ⟨d', h', -, hshape⟩ := parse_of_wellFormed hP hs
  obtain rfl : d = d' := by
    rw [h, Except.ok.injEq] at h'
    exact h'
  exact ⟨P, hP, hs, hshape, fun Q hQ htokens => Program.eq_of_tokens_eq hQ hP htokens⟩

/-- The difference of two numbers. -/
def difference : Program :=
  [.expression (.additive
    (.ofProduct (.ofSigned (.ofRaised (.ofSuffixed (.ofPrimary .number))))) .minus
    (.ofSigned (.ofRaised (.ofSuffixed (.ofPrimary .number)))))]

theorem parse_inverse_difference : ∃ d, (parse "1 -2").value = .ok d ∧ d.root.isDamaged = false ∧
    d.root.shape = difference.shape ∧
    ∃ P : Program, P.WellFormed ∧ Spells "1 -2" P.tokens ∧ d.root.shape = P.shape := by
  obtain ⟨d, h, hd, hshape⟩ :=
    (parse_inverse_tokens.1 difference (by decide)).2 "1 -2" (by decide +kernel)
  obtain ⟨P, hP, hs, hshape', -⟩ := parse_inverse_tokens.2 _ d h hd
  exact ⟨d, h, hd, hshape, P, hP, hs, hshape'⟩

end Document

end CalcTree
