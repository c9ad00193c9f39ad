/-!
# Grammar symbols

The language is a list of statements: expressions over numbers and names, and assignments of an
expression or a function to a name. Its terminals are the tokens a source is made of; its
nonterminals are the constructs.

Expressions have five levels of binding. Each level has a nonterminal of its own, `sum`,
`product`, `signed`, `raised` and `suffixed`, that covers the operation of that level and
everything which binds tighter. The last three nonterminals collect the items of a list.
-/

namespace CalcTree

inductive Terminal where
  | identifier
  | colon
  | plus
  | minus
  | star
  | slash
  | percent
  | caret
  | bang
  | leftParen
  | rightParen
  | leftBracket
  | rightBracket
  | semicolon
  | leftBrace
  | rightBrace
  | number
  | comment
deriving DecidableEq, Repr

inductive Nonterminal where
  | sourceFile
  | statement
  | assignment
  | expression
  | sum
  | additive
  | product
  | multiplicative
  | signed
  | unary
  | raised
  | power
  | suffixed
  | factorial
  | primary
  | functionCall
  | argumentList
  | functionBody
  | parameterList
  | statements
  | moreArguments
  | moreParameters
deriving DecidableEq, Repr

inductive Symbol where
  | terminal (t : Terminal)
  | nonterminal (n : Nonterminal)
deriving DecidableEq, Repr

/-- What an automaton sees next: a token, or that there is none left. -/
inductive Lookahead where
  | token (t : Terminal)
  | finish
deriving DecidableEq, Repr

namespace Terminal

/-- All terminals, in the order of their numbers. -/
def all : List Terminal :=
  [.identifier, .colon, .plus, .minus, .star, .slash, .percent, .caret, .bang, .leftParen,
    .rightParen, .leftBracket, .rightBracket, .semicolon, .leftBrace, .rightBrace, .number,
    .comment]

theorem mem_all (t : Terminal) : t ∈ all := by
  cases t <;> decide

/-- The character of a token that is always spelt the same. -/
def char? : Terminal → Option Char
  | .colon => some ':'
  | .plus => some '+'
  | .minus => some '-'
  | .star => some '*'
  | .slash => some '/'
  | .percent => some '%'
  | .caret => some '^'
  | .bang => some '!'
  | .leftParen => some '('
  | .rightParen => some ')'
  | .leftBracket => some '['
  | .rightBracket => some ']'
  | .semicolon => some ';'
  | .leftBrace => some '\x7b'
  | .rightBrace => some '\x7d'
  | .identifier | .number | .comment => none

/-- The token that a character is on its own. -/
def ofChar? (c : Char) : Option Terminal :=
  all.find? fun t => t.char? == some c

/-- Comments stand anywhere and take no part in a construct. -/
def isExtra (t : Terminal) : Bool :=
  t == .comment

def name (t : Terminal) : String :=
  match t.char? with
  | some c => c.toString
  | none =>
    match t with
    | .identifier => "identifier"
    | .number => "number"
    | _ => "comment"

/-- A token spelt in one way only is known by its spelling and has no name. -/
def isNamed (t : Terminal) : Bool :=
  t.char?.isNone

end Terminal

namespace Nonterminal

/-- All nonterminals, in the order of their numbers. -/
def all : List Nonterminal :=
  [.sourceFile, .statement, .assignment, .expression, .sum, .additive, .product,
    .multiplicative, .signed, .unary, .raised, .power, .suffixed, .factorial, .primary,
    .functionCall, .argumentList, .functionBody, .parameterList, .statements, .moreArguments,
    .moreParameters]

theorem mem_all (n : Nonterminal) : n ∈ all := by
  cases n <;> decide

def name : Nonterminal → String
  | .sourceFile => "source_file"
  | .statement => "statement"
  | .assignment => "assignment"
  | .expression => "expression"
  | .sum => "_additive"
  | .additive => "additive"
  | .product => "_multiplicative"
  | .multiplicative => "multiplicative"
  | .signed => "_unary"
  | .unary => "unary"
  | .raised => "_power"
  | .power => "power"
  | .suffixed => "_postfix"
  | .factorial => "postfix"
  | .primary => "primary"
  | .functionCall => "function_call"
  | .argumentList => "argument_list"
  | .functionBody => "function_body"
  | .parameterList => "parameter_list"
  | .statements => "source_file_repeat1"
  | .moreArguments => "argument_list_repeat1"
  | .moreParameters => "parameter_list_repeat1"

/-- The binding levels and the list collectors leave no node of their own in a tree. -/
def isVisible : Nonterminal → Bool
  | .sum | .product | .signed | .raised | .suffixed
  | .statements | .moreArguments | .moreParameters => false
  | _ => true

/-- Only the list collectors are nameless. -/
def isNamed : Nonterminal → Bool
  | .statements | .moreArguments | .moreParameters => false
  | _ => true

end Nonterminal

end CalcTree
