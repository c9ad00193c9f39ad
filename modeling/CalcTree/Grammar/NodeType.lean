import CalcTree.Grammar.Production
import CalcTree.Kind
import CalcTree.Text.Json

/-!
# Node types

What each kind of visible node may look like: which fields it has, which kinds may stand in them,
and which named children it may have besides. A description like this is what programs rely on
that read trees.
-/

namespace CalcTree

/-- What may stand in a place below a node. -/
structure Slot where
  multiple : Bool
  required : Bool
  kinds : List Kind
deriving DecidableEq, Repr

/-- The inside of a node: its fields, and its named children without a field. -/
structure Inside where
  fields : List (Field × Slot)
  children : Option Slot
deriving DecidableEq, Repr

/-- A kind of nodes; tokens have no inside. -/
structure NodeType where
  kind : Kind
  inside : Option Inside
deriving DecidableEq, Repr

namespace NodeType

/-- The kinds that a binding level can come down to, for the levels that fields are of. -/
def suffixedKinds : List Kind :=
  [.nonterminal .factorial, .nonterminal .primary]

def signedKinds : List Kind :=
  [.nonterminal .factorial, .nonterminal .power, .nonterminal .primary, .nonterminal .unary]

def productKinds : List Kind :=
  .nonterminal .multiplicative :: signedKinds

def sumKinds : List Kind :=
  .nonterminal .additive :: productKinds

def one (kinds : List Kind) : Slot :=
  ⟨false, true, kinds⟩

def optional (kinds : List Kind) : Slot :=
  ⟨false, false, kinds⟩

def several (kinds : List Kind) : Slot :=
  ⟨true, true, kinds⟩

def many (kinds : List Kind) : Slot :=
  ⟨true, false, kinds⟩

def tokens (ts : List Terminal) : List Kind :=
  ts.map .terminal

/-- A construct whose parts have fields. -/
def withFields (n : Nonterminal) (fields : List (Field × Slot)) : NodeType :=
  ⟨.nonterminal n, some ⟨fields, none⟩⟩

/-- A construct whose parts have none. -/
def withChildren (n : Nonterminal) (children : Slot) : NodeType :=
  ⟨.nonterminal n, some ⟨[], some children⟩⟩

def token (t : Terminal) : NodeType :=
  ⟨.terminal t, none⟩

def all : List NodeType := [
  withFields .additive [
    (.left, one sumKinds),
    (.operator, one (tokens [.minus, .plus])),
    (.right, one productKinds)],
  withChildren .argumentList (several [.nonterminal .expression]),
  withFields .assignment [
    (.name, one (tokens [.identifier])),
    (.value, one [.nonterminal .expression, .nonterminal .functionBody])],
  withChildren .expression (one sumKinds),
  withFields .functionBody [
    (.body, one [.nonterminal .expression]),
    (.params, optional [.nonterminal .parameterList])],
  withFields .functionCall [
    (.args, optional [.nonterminal .argumentList]),
    (.function, one (tokens [.identifier]))],
  withFields .multiplicative [
    (.left, one productKinds),
    (.operator, one (tokens [.star, .slash, .percent])),
    (.right, one signedKinds)],
  withChildren .parameterList (many (tokens [.identifier])),
  withFields .factorial [
    (.operand, one suffixedKinds),
    (.operator, one (tokens [.bang]))],
  withFields .power [
    (.base, one suffixedKinds),
    (.exponent, one signedKinds),
    (.operator, one (tokens [.caret]))],
  withChildren .primary (one [.nonterminal .expression, .nonterminal .functionCall,
    .terminal .identifier, .terminal .number]),
  withChildren .sourceFile (many [.nonterminal .statement]),
  withChildren .statement (one [.nonterminal .assignment, .nonterminal .expression]),
  withFields .unary [
    (.operand, one signedKinds),
    (.operator, one (tokens [.minus]))],
  token .minus, token .semicolon, token .colon, token .bang, token .leftParen, token .rightParen,
  token .leftBracket, token .rightBracket, token .leftBrace, token .rightBrace, token .star,
  token .slash, token .percent, token .caret, token .plus, token .comment, token .identifier,
  token .number]

/-! ## The written form -/

open Text (Json)

def writeKind (k : Kind) : List (String × Json) :=
  [("type", .text k.name), ("named", .flag k.isNamed)]

def writeSlot (s : Slot) : Json :=
  .object [
    ("multiple", .flag s.multiple),
    ("required", .flag s.required),
    ("types", .array (s.kinds.map fun k => .object (writeKind k)))]

def writeInside (i : Inside) : List (String × Json) :=
  ("fields", .object (i.fields.map fun (f, s) => (f.label, writeSlot s))) ::
    (i.children.map fun s => ("children", writeSlot s)).toList

def write (t : NodeType) : Json :=
  .object (writeKind t.kind ++ t.inside.elim [] writeInside)

/-- All node types as text. -/
def written : String :=
  (Json.array (all.map write)).write "" ++ "\n"

end NodeType

end CalcTree
