import CalcTree.Grammar.Production
import Mathlib.Computability.ContextFreeGrammar

/-!
# Derivations

The productions form a context-free grammar. A word is in its language exactly when it is the
yield of a valid derivation of a whole file (`mem_language_iff`).

A valid derivation is not much larger than its yield (`nodes_le`): every production but the empty
file either has a token or leads closer to one.
-/

/-- The symbols of grammars in general; below, `Symbol` is the type of this grammar's own. -/
abbrev GrammarSymbol (T N : Type) : Type := Symbol T N

namespace CalcTree

namespace Production

def all : List Production :=
  [emptyFile, file, firstStatement, nextStatement, assignmentStatement, expressionStatement,
    assignFunction, assignExpression, expression, sumOfAdditive, sumOfProduct, addition,
    subtraction, productOfMultiplicative, productOfSigned, multiplication, division, remainder,
    signedOfUnary, signedOfRaised, negation, raisedOfPower, raisedOfSuffixed, power,
    suffixedOfFactorial, suffixedOfPrimary, factorial, numberPrimary, namePrimary, callPrimary,
    parenthesised, emptyCall, call, oneArgument, manyArguments, secondArgument, nextArgument,
    plainBody, parametrisedBody, noParameters, oneParameter, manyParameters, secondParameter,
    nextParameter]

theorem mem_all (p : Production) : p ∈ all := by
  cases p <;> decide

end Production

def Symbol.general : Symbol → GrammarSymbol Terminal Nonterminal
  | .terminal t => .terminal t
  | .nonterminal n => .nonterminal n

theorem Symbol.general_injective : Function.Injective Symbol.general := by
  rintro (a | a) (b | b) h <;> simp_all [Symbol.general]

def Production.rule (p : Production) : ContextFreeRule Terminal Nonterminal :=
  ⟨p.lhs, p.rhs.map Symbol.general⟩

/-- The grammar of the language. -/
abbrev grammar : ContextFreeGrammar Terminal where
  NT := Nonterminal
  initial := .sourceFile
  rules := (Production.all.map Production.rule).toFinset

theorem mem_rules {r : ContextFreeRule Terminal Nonterminal} :
    r ∈ grammar.rules ↔ ∃ p : Production, p.rule = r := by
  simp [grammar, Production.mem_all]

inductive Derivation where
  | token (t : Terminal)
  | node (p : Production) (parts : List Derivation)

namespace Derivation

def symbol : Derivation → Symbol
  | token t => .terminal t
  | node p _ => .nonterminal p.lhs

mutual

/-- The tokens that are derived. -/
def yield : Derivation → List Terminal
  | token t => [t]
  | node _ ds => yieldAll ds

def yieldAll : List Derivation → List Terminal
  | [] => []
  | d :: ds => yield d ++ yieldAll ds

end

mutual

/-- Whether the parts of each construct are those of its production. -/
def Valid : Derivation → Prop
  | token _ => True
  | node p ds => ds.map symbol = p.rhs ∧ ValidAll ds

def ValidAll : List Derivation → Prop
  | [] => True
  | d :: ds => Valid d ∧ ValidAll ds

end

mutual

/-- The number of productions that are used. -/
def nodes : Derivation → Nat
  | token _ => 0
  | node _ ds => 1 + nodesAll ds

def nodesAll : List Derivation → Nat
  | [] => 0
  | d :: ds => nodes d + nodesAll ds

end

theorem yieldAll_append (ds es : List Derivation) :
    yieldAll (ds ++ es) = yieldAll ds ++ yieldAll es := by
  induction ds with
  | nil => rfl
  | cons d ds ih => simp [yieldAll, ih]

theorem validAll_append (ds es : List Derivation) :
    ValidAll (ds ++ es) ↔ ValidAll ds ∧ ValidAll es := by
  induction ds with
  | nil => simp [ValidAll]
  | cons d ds ih => simp [ValidAll, ih, and_assoc]

/-! ## Derivations and the language -/

mutual

theorem derives : ∀ d : Derivation, d.Valid →
    grammar.Derives [d.symbol.general] (d.yield.map .terminal)
  | token _, _ => .refl _
  | node p ds, h => by
    have hstep : grammar.Produces [.nonterminal p.lhs] (p.rhs.map Symbol.general) :=
      ⟨p.rule, mem_rules.2 ⟨p, rfl⟩, .input_output⟩
    rw [← h.1] at hstep
    exact hstep.trans_derives (by simpa [yield] using derivesAll ds h.2)

theorem derivesAll : ∀ ds : List Derivation, ValidAll ds →
    grammar.Derives ((ds.map symbol).map Symbol.general) ((yieldAll ds).map .terminal)
  | [], _ => .refl _
  | d :: ds, h => by
    have hd := (derives d h.1).append_right ((ds.map symbol).map Symbol.general)
    have hds := (derivesAll ds h.2).append_left (d.yield.map .terminal)
    simpa [yieldAll] using hd.trans hds

end

/-- A rewriting step read backwards gathers parts to a construct. -/
theorem exists_of_produces {u v : List (GrammarSymbol Terminal Nonterminal)}
    (h : grammar.Produces u v) {ds : List Derivation} (hv : ds.map (fun d => d.symbol.general) = v)
    (hds : ValidAll ds) :
    ∃ es, es.map (fun d => d.symbol.general) = u ∧ yieldAll es = yieldAll ds ∧ ValidAll es := by
  obtain ⟨r, hr, hrw⟩ := h
  obtain ⟨p, rfl⟩ := mem_rules.1 hr
  obtain ⟨x, y, rfl, rfl⟩ := hrw.exists_parts
  obtain ⟨front, back, rfl, hfront, rfl⟩ := List.map_eq_append_iff.1 hv
  obtain ⟨left, parts, rfl, rfl, hparts⟩ := List.map_eq_append_iff.1 hfront
  rw [validAll_append, validAll_append] at hds
  obtain ⟨⟨hleft, hvalid⟩, hback⟩ := hds
  have hrhs : parts.map symbol = p.rhs := by
    refine List.map_injective_iff.2 Symbol.general_injective ?_
    rw [List.map_map]
    exact hparts
  refine ⟨left ++ node p parts :: back, ?_, ?_, ?_⟩
  · simp [symbol, Symbol.general, Production.rule]
  · simp [yieldAll_append, yieldAll, yield]
  · simp [validAll_append, ValidAll, Valid, hleft, hback, hrhs, hvalid]

theorem exists_of_derives {u : List (GrammarSymbol Terminal Nonterminal)} {w : List Terminal}
    (h : grammar.Derives u (w.map .terminal)) :
    ∃ ds, ds.map (fun d => d.symbol.general) = u ∧ yieldAll ds = w ∧ ValidAll ds := by
  induction h using Relation.ReflTransGen.head_induction_on with
  | refl =>
    refine ⟨w.map token, by simp [symbol, Symbol.general], ?_, ?_⟩
    · induction w with
      | nil => rfl
      | cons t w ih => simp [yieldAll, yield, ih]
    · induction w with
      | nil => trivial
      | cons t w ih => exact ⟨trivial, ih⟩
  | head hstep _ ih =>
    obtain ⟨ds, hv, hw, hds⟩ := ih
    obtain ⟨es, hu, hes, hvalid⟩ := exists_of_produces hstep hv hds
    exact ⟨es, hu, hes.trans hw, hvalid⟩

theorem mem_language_iff {w : List Terminal} :
    w ∈ grammar.language ↔
      ∃ d : Derivation, d.symbol = .nonterminal .sourceFile ∧ d.yield = w ∧ d.Valid := by
  constructor
  · intro h
    obtain ⟨ds, hu, rfl, hds⟩ := exists_of_derives h
    obtain ⟨d, rest, rfl, hd, hrest⟩ := List.map_eq_cons_iff.1 hu
    obtain rfl := List.map_eq_nil_iff.1 hrest
    exact ⟨d, Symbol.general_injective hd, by simp [yieldAll], hds.1⟩
  · rintro ⟨d, hd, rfl, hvalid⟩
    have h := derives d hvalid
    rwa [hd] at h

/-! ## The size of derivations -/

/-- How many productions at least one can still put on top of a construct without a token. -/
def slack : Nonterminal → Nat
  | .sourceFile => 0
  | .statements => 1
  | .statement => 2
  | .assignment => 3
  | .expression => 4
  | .sum => 5
  | .additive => 6
  | .product => 6
  | .multiplicative => 7
  | .signed => 7
  | .unary => 8
  | .raised => 8
  | .power => 9
  | .suffixed => 9
  | .factorial => 10
  | .primary => 10
  | .functionCall => 11
  | .argumentList => 0
  | .functionBody => 4
  | .parameterList => 0
  | .moreArguments => 0
  | .moreParameters => 0

/-- What a symbol is worth in productions. -/
def worth : Symbol → Nat
  | .terminal _ => 12
  | .nonterminal n => slack n

def worthAll : List Symbol → Nat
  | [] => 0
  | X :: Xs => worth X + worthAll Xs

theorem slack_lt (p : Production) (h : p ≠ .emptyFile) : slack p.lhs < worthAll p.rhs := by
  revert h
  cases p <;> decide

mutual

theorem nodes_add_le : ∀ d : Derivation, d.Valid → d.symbol ≠ .nonterminal .sourceFile →
    d.nodes + worth d.symbol ≤ 12 * d.yield.length
  | token _, _, _ => by simp [nodes, symbol, worth, yield]
  | node p ds, h, hp => by
    have hne : p ≠ .emptyFile := by
      rintro rfl
      exact hp rfl
    have hslack := slack_lt p hne
    have hds := nodesAll_add_le ds h.2 (by
      rw [h.1]
      cases p <;> decide)
    rw [h.1] at hds
    simp only [nodes, symbol, worth, yield]
    omega

theorem nodesAll_add_le : ∀ ds : List Derivation, ValidAll ds →
    (∀ X ∈ ds.map symbol, X ≠ .nonterminal .sourceFile) →
    nodesAll ds + worthAll (ds.map symbol) ≤ 12 * (yieldAll ds).length
  | [], _, _ => by simp [nodesAll, worthAll, yieldAll]
  | d :: ds, h, hX => by
    have hd := nodes_add_le d h.1 (hX _ (by simp))
    have hds := nodesAll_add_le ds h.2 fun X hX' => hX X (by simp [hX'])
    simp only [nodesAll, List.map_cons, worthAll, yieldAll, List.length_append]
    omega

end

theorem nodes_le (d : Derivation) (h : d.Valid) : d.nodes ≤ 12 * d.yield.length + 1 := by
  cases d with
  | token t => simp [nodes]
  | node p ds =>
    have hds := nodesAll_add_le ds h.2 (by
      rw [h.1]
      cases p <;> decide)
    simp only [nodes, yield]
    omega

end Derivation

end CalcTree
