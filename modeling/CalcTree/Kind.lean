import CalcTree.Grammar.Symbol

/-!
# Kinds of tree nodes

Every node of a tree is of a kind, with a number and a name: the symbols of the grammar, the end
of input, and two kinds for damaged text. An `error` node shows what could not be understood; a
`skipped` node collects passed-over input inside it and is never shown itself.
-/

namespace CalcTree

inductive Kind where
  | finish
  | terminal (t : Terminal)
  | nonterminal (n : Nonterminal)
  | error
  | skipped
deriving DecidableEq, Repr

namespace Kind

/-- The kinds numbered from zero on. -/
def all : List Kind :=
  .finish :: (Terminal.all.map .terminal ++ Nonterminal.all.map .nonterminal)

def id : Kind → Nat
  | error => 65535
  | skipped => 65534
  | k => all.idxOf k

def ofId? (n : Nat) : Option Kind :=
  if n = 65535 then some .error
  else if n = 65534 then some .skipped
  else all[n]?

def name : Kind → String
  | finish => "end"
  | terminal t => t.name
  | nonterminal n => n.name
  | error => "ERROR"
  | skipped => "_ERROR"

/-- Whether nodes of this kind are shown in a tree. -/
def isVisible : Kind → Bool
  | finish => false
  | terminal _ => true
  | nonterminal n => n.isVisible
  | error => true
  | skipped => false

def isNamed : Kind → Bool
  | finish => true
  | terminal t => t.isNamed
  | nonterminal n => n.isNamed
  | error => true
  | skipped => false

/-- Whether a name stands for the error kind: any beginning of its name does, the empty one too,
and so does anything in which a NUL ends the whole name. -/
def isErrorName (name : String) : Bool :=
  name.toList.isPrefixOf error.name.toList ||
    (error.name.toList ++ ['\x00']).isPrefixOf name.toList

/-- The kind that a name stands for: the error kind, or else the first visible kind with this name
and namedness. -/
def ofName? (name : String) (named : Bool) : Option Kind :=
  if isErrorName name then some .error
  else all.find? fun k => k.isVisible && k.isNamed == named && k.name == name

end Kind

end CalcTree
