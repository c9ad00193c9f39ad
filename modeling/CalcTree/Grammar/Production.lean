import CalcTree.Grammar.Symbol

/-!
# Productions

The context-free grammar, one constructor for each way to build a construct, and the roles that
the parts of a construct play in it. Statements follow each other without a separator; where a
minus could either continue an expression or start the next statement, it continues.
-/

namespace CalcTree

/-- The role of a part in its construct. -/
inductive Field where
  | args
  | base
  | body
  | exponent
  | function
  | left
  | name
  | operand
  | operator
  | params
  | right
  | value
deriving DecidableEq, Repr

namespace Field

/-- All fields, in the order of their numbers, the first of which is 1. -/
def all : List Field :=
  [.args, .base, .body, .exponent, .function, .left, .name, .operand, .operator, .params,
    .right, .value]

def label : Field → String
  | .args => "args"
  | .base => "base"
  | .body => "body"
  | .exponent => "exponent"
  | .function => "function"
  | .left => "left"
  | .name => "name"
  | .operand => "operand"
  | .operator => "operator"
  | .params => "params"
  | .right => "right"
  | .value => "value"

def ofId? (id : Nat) : Option Field :=
  match id with
  | 0 => none
  | n + 1 => all[n]?

def id (f : Field) : Nat :=
  all.idxOf f + 1

def ofLabel? (s : String) : Option Field :=
  all.find? fun f => f.label == s

end Field

inductive Production where
  | emptyFile
  | file
  | firstStatement
  | nextStatement
  | assignmentStatement
  | expressionStatement
  | assignFunction
  | assignExpression
  | expression
  | sumOfAdditive
  | sumOfProduct
  | addition
  | subtraction
  | productOfMultiplicative
  | productOfSigned
  | multiplication
  | division
  | remainder
  | signedOfUnary
  | signedOfRaised
  | negation
  | raisedOfPower
  | raisedOfSuffixed
  | power
  | suffixedOfFactorial
  | suffixedOfPrimary
  | factorial
  | numberPrimary
  | namePrimary
  | callPrimary
  | parenthesised
  | emptyCall
  | call
  | oneArgument
  | manyArguments
  | secondArgument
  | nextArgument
  | plainBody
  | parametrisedBody
  | noParameters
  | oneParameter
  | manyParameters
  | secondParameter
  | nextParameter
deriving DecidableEq, Repr

namespace Production

/-- The construct that a production builds. -/
def lhs : Production → Nonterminal
  | emptyFile | file => .sourceFile
  | firstStatement | nextStatement => .statements
  | assignmentStatement | expressionStatement => .statement
  | assignFunction | assignExpression => .assignment
  | expression => .expression
  | sumOfAdditive | sumOfProduct => .sum
  | addition | subtraction => .additive
  | productOfMultiplicative | productOfSigned => .product
  | multiplication | division | remainder => .multiplicative
  | signedOfUnary | signedOfRaised => .signed
  | negation => .unary
  | raisedOfPower | raisedOfSuffixed => .raised
  | power => .power
  | suffixedOfFactorial | suffixedOfPrimary => .suffixed
  | factorial => .factorial
  | numberPrimary | namePrimary | callPrimary | parenthesised => .primary
  | emptyCall | call => .functionCall
  | oneArgument | manyArguments => .argumentList
  | secondArgument | nextArgument => .moreArguments
  | plainBody | parametrisedBody => .functionBody
  | noParameters | oneParameter | manyParameters => .parameterList
  | secondParameter | nextParameter => .moreParameters

/-- The parts that a production builds it from. -/
def rhs : Production → List Symbol
  | emptyFile => []
  | file => [.nonterminal .statements]
  | firstStatement => [.nonterminal .statement]
  | nextStatement => [.nonterminal .statements, .nonterminal .statement]
  | assignmentStatement => [.nonterminal .assignment]
  | expressionStatement => [.nonterminal .expression]
  | assignFunction => [.terminal .identifier, .terminal .colon, .nonterminal .functionBody]
  | assignExpression => [.terminal .identifier, .terminal .colon, .nonterminal .expression]
  | expression => [.nonterminal .sum]
  | sumOfAdditive => [.nonterminal .additive]
  | sumOfProduct => [.nonterminal .product]
  | addition => [.nonterminal .sum, .terminal .plus, .nonterminal .product]
  | subtraction => [.nonterminal .sum, .terminal .minus, .nonterminal .product]
  | productOfMultiplicative => [.nonterminal .multiplicative]
  | productOfSigned => [.nonterminal .signed]
  | multiplication => [.nonterminal .product, .terminal .star, .nonterminal .signed]
  | division => [.nonterminal .product, .terminal .slash, .nonterminal .signed]
  | remainder => [.nonterminal .product, .terminal .percent, .nonterminal .signed]
  | signedOfUnary => [.nonterminal .unary]
  | signedOfRaised => [.nonterminal .raised]
  | negation => [.terminal .minus, .nonterminal .signed]
  | raisedOfPower => [.nonterminal .power]
  | raisedOfSuffixed => [.nonterminal .suffixed]
  | power => [.nonterminal .suffixed, .terminal .caret, .nonterminal .signed]
  | suffixedOfFactorial => [.nonterminal .factorial]
  | suffixedOfPrimary => [.nonterminal .primary]
  | factorial => [.nonterminal .suffixed, .terminal .bang]
  | numberPrimary => [.terminal .number]
  | namePrimary => [.terminal .identifier]
  | callPrimary => [.nonterminal .functionCall]
  | parenthesised => [.terminal .leftParen, .nonterminal .expression, .terminal .rightParen]
  | emptyCall => [.terminal .identifier, .terminal .leftBracket, .terminal .rightBracket]
  | call =>
    [.terminal .identifier, .terminal .leftBracket, .nonterminal .argumentList,
      .terminal .rightBracket]
  | oneArgument => [.nonterminal .expression]
  | manyArguments => [.nonterminal .expression, .nonterminal .moreArguments]
  | secondArgument => [.terminal .semicolon, .nonterminal .expression]
  | nextArgument => [.nonterminal .moreArguments, .terminal .semicolon, .nonterminal .expression]
  | plainBody => [.terminal .leftBrace, .nonterminal .expression, .terminal .rightBrace]
  | parametrisedBody =>
    [.terminal .leftBrace, .nonterminal .parameterList, .nonterminal .expression,
      .terminal .rightBrace]
  | noParameters => [.terminal .leftBracket, .terminal .rightBracket]
  | oneParameter => [.terminal .leftBracket, .terminal .identifier, .terminal .rightBracket]
  | manyParameters =>
    [.terminal .leftBracket, .terminal .identifier, .nonterminal .moreParameters,
      .terminal .rightBracket]
  | secondParameter => [.terminal .semicolon, .terminal .identifier]
  | nextParameter => [.nonterminal .moreParameters, .terminal .semicolon, .terminal .identifier]

/-- The roles of the parts, part by part; parts past the end of the list have none. -/
def roles : Production → List (Option Field)
  | assignFunction | assignExpression => [some .name, none, some .value]
  | addition | subtraction | multiplication | division | remainder =>
    [some .left, some .operator, some .right]
  | negation => [some .operator, some .operand]
  | power => [some .base, some .operator, some .exponent]
  | factorial => [some .operand, some .operator]
  | emptyCall => [some .function]
  | call => [some .function, none, some .args]
  | plainBody => [none, some .body]
  | parametrisedBody => [none, some .params, some .body]
  | _ => []

def fieldAt (p : Production) (i : Nat) : Option Field :=
  p.roles[i]?.join

end Production

end CalcTree
