import CalcTree.Proofs.Machine
import CalcTree.Proofs.Shape

/-!
# Programs

Programs as lists of statements. The levels of binding are part of the types, so a program has its
operations in the order in which they bind, and only parentheses can change it.

A program stands for a derivation of its tokens (`Program.derivation`), which shows what the program
shows (`Program.shapes_derivation`). In a well formed program no statement starts with a minus where
it would continue the expression before it, so no expression of its derivation is completed before
a minus (`Program.WellFormed.settled`).
-/

namespace CalcTree

/-! ## Phrases -/

/-- The parts of statements: the levels of binding, loosest first, and the lists of arguments. -/
inductive Level where
  | sum
  | product
  | signed
  | raised
  | suffixed
  | primary
  | arguments
  | moreArguments
deriving DecidableEq, Repr

def Level.nonterminal : Level → Nonterminal
  | sum => .sum
  | product => .product
  | signed => .signed
  | raised => .raised
  | suffixed => .suffixed
  | primary => .primary
  | arguments => .argumentList
  | moreArguments => .moreArguments

inductive SumOperator where
  | plus
  | minus
deriving DecidableEq, Repr

namespace SumOperator

def terminal : SumOperator → Terminal
  | plus => .plus
  | minus => .minus

def production : SumOperator → Production
  | plus => .addition
  | minus => .subtraction

end SumOperator

inductive ProductOperator where
  | star
  | slash
  | percent
deriving DecidableEq, Repr

namespace ProductOperator

def terminal : ProductOperator → Terminal
  | star => .star
  | slash => .slash
  | percent => .percent

def production : ProductOperator → Production
  | star => .multiplication
  | slash => .division
  | percent => .remainder

end ProductOperator

/-- A part of a statement. Sums and products group to the left, powers to the right. -/
inductive Phrase : Level → Type where
  | additive (left : Phrase .sum) (op : SumOperator) (right : Phrase .product) : Phrase .sum
  | ofProduct (e : Phrase .product) : Phrase .sum
  | multiplicative (left : Phrase .product) (op : ProductOperator) (right : Phrase .signed) :
      Phrase .product
  | ofSigned (e : Phrase .signed) : Phrase .product
  | negation (operand : Phrase .signed) : Phrase .signed
  | ofRaised (e : Phrase .raised) : Phrase .signed
  | power (base : Phrase .suffixed) (exponent : Phrase .signed) : Phrase .raised
  | ofSuffixed (e : Phrase .suffixed) : Phrase .raised
  | factorial (operand : Phrase .suffixed) : Phrase .suffixed
  | ofPrimary (e : Phrase .primary) : Phrase .suffixed
  | number : Phrase .primary
  | name : Phrase .primary
  | parenthesised (e : Phrase .sum) : Phrase .primary
  | emptyCall : Phrase .primary
  | call (args : Phrase .arguments) : Phrase .primary
  | oneArgument (e : Phrase .sum) : Phrase .arguments
  | manyArguments (e : Phrase .sum) (more : Phrase .moreArguments) : Phrase .arguments
  | secondArgument (e : Phrase .sum) : Phrase .moreArguments
  | nextArgument (more : Phrase .moreArguments) (e : Phrase .sum) : Phrase .moreArguments
deriving DecidableEq, Repr

namespace Shape

def token (t : Terminal) (field : Option Field) : Shape :=
  .mk (.terminal t) field []

def construct (n : Nonterminal) (field : Option Field) (parts : List Shape) : Shape :=
  .mk (.nonterminal n) field parts

end Shape

namespace Phrase

variable {l : Level}

def tokens {l : Level} : Phrase l → List Terminal
  | additive left op right => left.tokens ++ op.terminal :: right.tokens
  | multiplicative left op right => left.tokens ++ op.terminal :: right.tokens
  | negation e => .minus :: e.tokens
  | power base exponent => base.tokens ++ .caret :: exponent.tokens
  | factorial e => e.tokens ++ [.bang]
  | ofProduct e | ofSigned e | ofRaised e | ofSuffixed e | ofPrimary e | oneArgument e => e.tokens
  | number => [.number]
  | name => [.identifier]
  | parenthesised e => .leftParen :: e.tokens ++ [.rightParen]
  | emptyCall => [.identifier, .leftBracket, .rightBracket]
  | call args => .identifier :: .leftBracket :: args.tokens ++ [.rightBracket]
  | manyArguments e more => e.tokens ++ more.tokens
  | secondArgument e => .semicolon :: e.tokens
  | nextArgument more e => more.tokens ++ .semicolon :: e.tokens

/-- The nodes that are shown for a phrase in a role: only one, except for further arguments. -/
def shapes {l : Level} (field : Option Field) : Phrase l → List Shape
  | additive left op right =>
    [.construct .additive field (left.shapes (some .left) ++
      .token op.terminal (some .operator) :: right.shapes (some .right))]
  | multiplicative left op right =>
    [.construct .multiplicative field (left.shapes (some .left) ++
      .token op.terminal (some .operator) :: right.shapes (some .right))]
  | negation e =>
    [.construct .unary field (.token .minus (some .operator) :: e.shapes (some .operand))]
  | power base exponent =>
    [.construct .power field (base.shapes (some .base) ++
      .token .caret (some .operator) :: exponent.shapes (some .exponent))]
  | factorial e =>
    [.construct .factorial field (e.shapes (some .operand) ++ [.token .bang (some .operator)])]
  | ofProduct e | ofSigned e | ofRaised e | ofSuffixed e | ofPrimary e => e.shapes field
  | number => [.construct .primary field [.token .number none]]
  | name => [.construct .primary field [.token .identifier none]]
  | parenthesised e =>
    [.construct .primary field [.token .leftParen none,
      .construct .expression none (e.shapes none), .token .rightParen none]]
  | emptyCall =>
    [.construct .primary field [.construct .functionCall none
      [.token .identifier (some .function), .token .leftBracket none, .token .rightBracket none]]]
  | call args =>
    [.construct .primary field [.construct .functionCall none
      (.token .identifier (some .function) :: .token .leftBracket none ::
        args.shapes (some .args) ++ [.token .rightBracket none])]]
  | oneArgument e =>
    [.construct .argumentList field [.construct .expression none (e.shapes none)]]
  | manyArguments e more =>
    [.construct .argumentList field
      (.construct .expression none (e.shapes none) :: more.shapes none)]
  | secondArgument e => [.token .semicolon field, .construct .expression field (e.shapes none)]
  | nextArgument more e =>
    more.shapes field ++
      [.token .semicolon field, .construct .expression field (e.shapes none)]

end Phrase

/-! ## Statements -/

inductive Statement where
  | expression (e : Phrase .sum)
  | assignment (value : Phrase .sum)
  /-- The assignment of a function, perhaps with a list of so many parameters. -/
  | function (parameters : Option Nat) (body : Phrase .sum)
deriving DecidableEq, Repr

namespace Statement

def moreNames : Nat → List Terminal
  | 0 => []
  | n + 1 => moreNames n ++ [.semicolon, .identifier]

/-- The tokens of a list of parameters. -/
def parameterTokens : Nat → List Terminal
  | 0 => [.leftBracket, .rightBracket]
  | n + 1 => .leftBracket :: .identifier :: moreNames n ++ [.rightBracket]

def tokens : Statement → List Terminal
  | expression e => e.tokens
  | assignment e => .identifier :: .colon :: e.tokens
  | function parameters body =>
    [.identifier, .colon, .leftBrace] ++ (parameters.map parameterTokens).getD [] ++
      body.tokens ++ [.rightBrace]

def shape : Statement → Shape
  | expression e => .construct .statement none [.construct .expression none (e.shapes none)]
  | assignment e =>
    .construct .statement none [.construct .assignment none
      [.token .identifier (some .name), .token .colon none,
        .construct .expression (some .value) (e.shapes none)]]
  | function parameters body =>
    .construct .statement none [.construct .assignment none
      [.token .identifier (some .name), .token .colon none,
        .construct .functionBody (some .value)
          (.token .leftBrace none ::
            parameters.toList.map (fun n => .construct .parameterList (some .params)
              ((parameterTokens n).map (.token · none))) ++
            [.construct .expression (some .body) (body.shapes none), .token .rightBrace none])]]

/-- Whether a statement ends in an expression. A function ends in a brace. -/
def endsInExpression : Statement → Bool
  | expression _ | assignment _ => true
  | function _ _ => false

/-- Whether a statement can follow another: a minus would continue an expression. -/
def Follows (s t : Statement) : Prop :=
  s.endsInExpression → t.tokens.head? ≠ some .minus

instance (s t : Statement) : Decidable (Follows s t) :=
  inferInstanceAs (Decidable (_ → _))

end Statement

abbrev Program : Type := List Statement

namespace Program

def tokens (P : Program) : List Terminal :=
  P.flatMap Statement.tokens

def shape (P : Program) : Shape :=
  .construct .sourceFile none (P.map Statement.shape)

/-- No statement that starts with a minus comes right after one that ends in an expression. -/
def WellFormed (P : Program) : Prop :=
  P.IsChain Statement.Follows

instance (P : Program) : Decidable P.WellFormed :=
  inferInstanceAs (Decidable (List.IsChain _ _))

end Program

theorem Phrase.comment_not_mem_tokens {l : Level} (e : Phrase l) : .comment ∉ e.tokens := by
  induction e with
  | additive left op right => cases op <;> simp_all [tokens, SumOperator.terminal]
  | multiplicative left op right => cases op <;> simp_all [tokens, ProductOperator.terminal]
  | _ => simp_all [tokens]

theorem Statement.comment_not_mem_tokens (s : Statement) : .comment ∉ s.tokens := by
  have hmore : ∀ n, .comment ∉ moreNames n := by
    intro n
    induction n with
    | zero => simp [moreNames]
    | succ n ih => simp [moreNames, ih]
  rcases s with e | e | ⟨_ | _ | n, e⟩ <;>
    simp [tokens, parameterTokens, hmore, e.comment_not_mem_tokens]

theorem Program.comment_not_mem_tokens (P : Program) : .comment ∉ P.tokens := by
  simp only [tokens, List.mem_flatMap, not_exists, not_and]
  exact fun s _ => s.comment_not_mem_tokens

/-! ## Derivations -/

namespace Derivation

@[simp] theorem symbol_token (t : Terminal) : (token t).symbol = .terminal t :=
  rfl

@[simp] theorem symbol_node (p : Production) (ds : List Derivation) :
    (node p ds).symbol = .nonterminal p.lhs :=
  rfl

end Derivation

attribute [local simp] Derivation.yield Derivation.yieldAll Derivation.Valid Derivation.ValidAll
  Derivation.shapes Derivation.shapesAll Shape.construct Shape.token Production.lhs Production.rhs
  Production.fieldAt Production.roles Nonterminal.isVisible Level.nonterminal
  SumOperator.terminal SumOperator.production ProductOperator.terminal ProductOperator.production

namespace Phrase

variable {l : Level}

def derivation {l : Level} : Phrase l → Derivation
  | additive left op right =>
    .node .sumOfAdditive [.node op.production
      [left.derivation, .token op.terminal, right.derivation]]
  | ofProduct e => .node .sumOfProduct [e.derivation]
  | multiplicative left op right =>
    .node .productOfMultiplicative [.node op.production
      [left.derivation, .token op.terminal, right.derivation]]
  | ofSigned e => .node .productOfSigned [e.derivation]
  | negation e => .node .signedOfUnary [.node .negation [.token .minus, e.derivation]]
  | ofRaised e => .node .signedOfRaised [e.derivation]
  | power base exponent =>
    .node .raisedOfPower [.node .power [base.derivation, .token .caret, exponent.derivation]]
  | ofSuffixed e => .node .raisedOfSuffixed [e.derivation]
  | factorial e => .node .suffixedOfFactorial [.node .factorial [e.derivation, .token .bang]]
  | ofPrimary e => .node .suffixedOfPrimary [e.derivation]
  | number => .node .numberPrimary [.token .number]
  | name => .node .namePrimary [.token .identifier]
  | parenthesised e =>
    .node .parenthesised
      [.token .leftParen, .node .expression [e.derivation], .token .rightParen]
  | emptyCall =>
    .node .callPrimary [.node .emptyCall
      [.token .identifier, .token .leftBracket, .token .rightBracket]]
  | call args =>
    .node .callPrimary [.node .call
      [.token .identifier, .token .leftBracket, args.derivation, .token .rightBracket]]
  | oneArgument e => .node .oneArgument [.node .expression [e.derivation]]
  | manyArguments e more =>
    .node .manyArguments [.node .expression [e.derivation], more.derivation]
  | secondArgument e =>
    .node .secondArgument [.token .semicolon, .node .expression [e.derivation]]
  | nextArgument more e =>
    .node .nextArgument [more.derivation, .token .semicolon, .node .expression [e.derivation]]

@[simp] theorem symbol_derivation (e : Phrase l) :
    e.derivation.symbol = .nonterminal l.nonterminal := by
  cases e <;> rfl

@[simp] theorem yield_derivation (e : Phrase l) : e.derivation.yield = e.tokens := by
  induction e <;> simp_all [derivation, tokens]

theorem valid_derivation (e : Phrase l) : e.derivation.Valid := by
  induction e with
  | additive left op right => cases op <;> simp_all [derivation]
  | multiplicative left op right => cases op <;> simp_all [derivation]
  | _ => simp_all [derivation]

theorem shapes_derivation (e : Phrase l) (field : Option Field) :
    e.derivation.shapes field = e.shapes field := by
  induction e generalizing field with
  | additive left op right => cases op <;> simp_all [derivation, shapes]
  | multiplicative left op right => cases op <;> simp_all [derivation, shapes]
  | _ => simp_all [derivation, shapes]

end Phrase

/-! ## Statements and files -/

namespace Statement

def moreParameters : Nat → Derivation
  | 0 => .node .secondParameter [.token .semicolon, .token .identifier]
  | n + 1 => .node .nextParameter [moreParameters n, .token .semicolon, .token .identifier]

def parameterList : Nat → Derivation
  | 0 => .node .noParameters [.token .leftBracket, .token .rightBracket]
  | 1 => .node .oneParameter [.token .leftBracket, .token .identifier, .token .rightBracket]
  | n + 2 =>
    .node .manyParameters
      [.token .leftBracket, .token .identifier, moreParameters n, .token .rightBracket]

def body (parameters : Option Nat) (e : Phrase .sum) : Derivation :=
  match parameters with
  | none =>
    .node .plainBody [.token .leftBrace, .node .expression [e.derivation], .token .rightBrace]
  | some n =>
    .node .parametrisedBody
      [.token .leftBrace, parameterList n, .node .expression [e.derivation], .token .rightBrace]

def derivation : Statement → Derivation
  | expression e => .node .expressionStatement [.node .expression [e.derivation]]
  | assignment e =>
    .node .assignmentStatement [.node .assignExpression
      [.token .identifier, .token .colon, .node .expression [e.derivation]]]
  | function parameters e =>
    .node .assignmentStatement [.node .assignFunction
      [.token .identifier, .token .colon, body parameters e]]

@[simp] theorem symbol_moreParameters (n : Nat) :
    (moreParameters n).symbol = .nonterminal .moreParameters := by
  cases n <;> rfl

@[simp] theorem symbol_parameterList (n : Nat) :
    (parameterList n).symbol = .nonterminal .parameterList := by
  rcases n with _ | _ | n <;> rfl

@[simp] theorem symbol_derivation (s : Statement) :
    s.derivation.symbol = .nonterminal .statement := by
  cases s <;> rfl

theorem yield_moreParameters (n : Nat) : (moreParameters n).yield = moreNames (n + 1) := by
  induction n with
  | zero => simp [moreParameters, moreNames]
  | succ n ih => simp [moreParameters, moreNames, ih]

theorem yield_parameterList (n : Nat) : (parameterList n).yield = parameterTokens n := by
  rcases n with _ | _ | n <;>
    simp [parameterList, parameterTokens, moreNames, yield_moreParameters]

@[simp] theorem yield_derivation (s : Statement) : s.derivation.yield = s.tokens := by
  rcases s with e | e | ⟨_ | n, e⟩ <;>
    simp [derivation, body, tokens, yield_parameterList]

theorem valid_moreParameters (n : Nat) : (moreParameters n).Valid := by
  induction n with
  | zero => simp [moreParameters]
  | succ n ih => simp [moreParameters, ih]

theorem valid_parameterList (n : Nat) : (parameterList n).Valid := by
  rcases n with _ | _ | n <;> simp [parameterList, valid_moreParameters]

theorem valid_derivation (s : Statement) : s.derivation.Valid := by
  rcases s with e | e | ⟨_ | n, e⟩ <;>
    simp [derivation, body, Phrase.valid_derivation, valid_parameterList]

theorem shapes_moreParameters (n : Nat) :
    (moreParameters n).shapes none = (moreNames (n + 1)).map (.token · none) := by
  induction n with
  | zero => simp [moreParameters, moreNames]
  | succ n ih =>
    rw [moreNames, List.map_append, ← ih]
    simp [moreParameters]

theorem shapes_parameterList (n : Nat) (field : Option Field) :
    (parameterList n).shapes field =
      [.construct .parameterList field ((parameterTokens n).map (.token · none))] := by
  rcases n with _ | _ | n <;>
    simp [parameterList, parameterTokens, moreNames, shapes_moreParameters]

theorem shapes_derivation (s : Statement) : s.derivation.shapes none = [s.shape] := by
  rcases s with e | e | ⟨_ | n, e⟩ <;>
    simp [derivation, body, shape, Phrase.shapes_derivation, shapes_parameterList]

end Statement

namespace Program

/-- Statements after those that have been collected already. -/
def collect : Derivation → List Statement → Derivation
  | d, [] => d
  | d, s :: P => collect (.node .nextStatement [d, s.derivation]) P

def derivation : Program → Derivation
  | [] => .node .emptyFile []
  | s :: P => .node .file [collect (.node .firstStatement [s.derivation]) P]

theorem tokens_cons (s : Statement) (P : Program) : tokens (s :: P) = s.tokens ++ tokens P :=
  rfl

theorem symbol_collect : ∀ (P : Program) {d : Derivation},
    d.symbol = .nonterminal .statements → (collect d P).symbol = .nonterminal .statements
  | [], _, h => h
  | _ :: P, _, _ => symbol_collect P rfl

theorem yield_collect : ∀ (P : Program) (d : Derivation),
    (collect d P).yield = d.yield ++ tokens P
  | [], d => by simp [collect, tokens]
  | s :: P, d => by simp [collect, yield_collect P, tokens_cons]

theorem valid_collect : ∀ (P : Program) {d : Derivation},
    d.symbol = .nonterminal .statements → d.Valid → (collect d P).Valid
  | [], _, _, h => h
  | s :: P, d, hd, h => valid_collect P rfl (by simp [hd, h, s.valid_derivation])

theorem shapes_collect : ∀ (P : Program) (d : Derivation),
    (collect d P).shapes none = d.shapes none ++ P.map Statement.shape
  | [], d => by simp [collect]
  | s :: P, d => by simp [collect, shapes_collect P, s.shapes_derivation]

@[simp] theorem symbol_derivation (P : Program) :
    (derivation P).symbol = .nonterminal .sourceFile := by
  cases P <;> rfl

@[simp] theorem yield_derivation (P : Program) : (derivation P).yield = P.tokens := by
  cases P with
  | nil => rfl
  | cons s P => simp [derivation, yield_collect, tokens_cons]

theorem valid_derivation (P : Program) : (derivation P).Valid := by
  cases P with
  | nil => simp [derivation]
  | cons s P =>
    have hs : (Derivation.node .firstStatement [s.derivation]).Valid := by
      simp [s.valid_derivation]
    refine ⟨?_, valid_collect P rfl hs, trivial⟩
    rw [List.map_singleton, symbol_collect P rfl]
    rfl

theorem shapes_derivation (P : Program) : (derivation P).shapes none = [P.shape] := by
  cases P with
  | nil => simp [derivation, shape]
  | cons s P => simp [derivation, shape, shapes_collect, s.shapes_derivation]

end Program

/-! ## Before a minus -/

open Machine (lookOf)

theorem Phrase.tokens_ne_nil {l : Level} (e : Phrase l) : e.tokens ≠ [] := by
  induction e <;> simp_all [tokens]

theorem Statement.tokens_ne_nil (s : Statement) : s.tokens ≠ [] := by
  cases s <;> simp [tokens, Phrase.tokens_ne_nil]

@[simp] theorem Machine.lookOf_cons (t : Terminal) (w : List Terminal) :
    lookOf (t :: w) = .token t :=
  rfl

theorem Machine.lookOf_append {v : List Terminal} (hv : v ≠ []) (w : List Terminal) :
    lookOf (v ++ w) = lookOf v := by
  rcases v with _ | ⟨t, v⟩
  · exact absurd rfl hv
  · rfl

/-- Whether a phrase ends in a whole expression, as arguments do. -/
def Level.endsInExpression : Level → Bool
  | arguments | moreArguments => true
  | _ => false

theorem Phrase.lookOf_moreArguments {l : Level} (e : Phrase l) (hl : l = .moreArguments) :
    lookOf e.tokens = .token .semicolon := by
  induction e with
  | secondArgument e => rfl
  | nextArgument more e ih =>
    rw [tokens, Machine.lookOf_append more.tokens_ne_nil]
    exact ih rfl
  | _ => cases hl

attribute [local simp] Derivation.Settled Derivation.SettledAll Level.endsInExpression

/-- Within a phrase, whole expressions are followed by a closing token or by a semicolon. -/
theorem Phrase.settled {l : Level} (e : Phrase l) (w : List Terminal)
    (hw : l.endsInExpression → lookOf w ≠ .token .minus) : e.derivation.Settled w := by
  induction e generalizing w with
  | additive left op right => cases op <;> simp_all [derivation]
  | multiplicative left op right => cases op <;> simp_all [derivation]
  | manyArguments e more =>
    have hmore := more.lookOf_moreArguments rfl
    simp_all [derivation, Machine.lookOf_append more.tokens_ne_nil]
  | _ => simp_all [derivation]

theorem Statement.settled (s : Statement) (w : List Terminal)
    (hw : s.endsInExpression → lookOf w ≠ .token .minus) : s.derivation.Settled w := by
  have hsum : ∀ (e : Phrase .sum) (w : List Terminal), e.derivation.Settled w :=
    fun e w => e.settled w (by simp)
  have hmore : ∀ (n : Nat) (w : List Terminal), (moreParameters n).Settled w := by
    intro n
    induction n with
    | zero => simp [moreParameters]
    | succ n ih => simp [moreParameters, ih]
  rcases s with e | e | ⟨_ | _ | _ | n, e⟩ <;>
    simp_all [derivation, body, parameterList, endsInExpression]

namespace Program

theorem WellFormed.tail {s : Statement} {P : Program} (h : WellFormed (s :: P)) :
    P.WellFormed :=
  List.isChain_of_isChain_cons h

theorem WellFormed.settled_head {s : Statement} {P : Program} (h : WellFormed (s :: P)) :
    s.derivation.Settled P.tokens := by
  refine s.settled _ fun he => ?_
  cases P with
  | nil => simp [tokens, lookOf]
  | cons t P =>
    have hst := (List.isChain_cons_cons.1 h).1 he
    rw [tokens_cons, Machine.lookOf_append t.tokens_ne_nil]
    rcases ht : t.tokens with _ | ⟨a, v⟩
    · exact absurd ht t.tokens_ne_nil
    · simpa [ht] using hst

theorem settled_collect : ∀ (P : Program) {d : Derivation}, d.Settled P.tokens →
    P.WellFormed → (collect d P).Settled []
  | [], _, h, _ => h
  | s :: P, d, h, hP => by
    refine settled_collect P ?_ hP.tail
    rw [tokens_cons] at h
    simp [h, hP.settled_head]

theorem WellFormed.settled {P : Program} (h : P.WellFormed) : (derivation P).Settled [] := by
  cases P with
  | nil => simp [derivation]
  | cons s P =>
    have hs : (Derivation.node .firstStatement [s.derivation]).Settled (tokens P) := by
      simp [h.settled_head]
    simp [derivation, settled_collect P hs h.tail]

end Program

end CalcTree
