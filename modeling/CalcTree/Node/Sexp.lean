import CalcTree.Node.Basic

/-!
# Parenthesised form

A tree as one line of nested parentheses: the named nodes by their kinds, and the tokens that are
missing. Characters that start no token are shown by the first of them.
-/

namespace CalcTree.Node

/-- A character on its own: control characters that have one by their letter, other printable
ASCII as it is, and anything else by its number. -/
def showChar (c : Char) : String :=
  match c with
  | '\x00' => "'\\0'"
  | '\n' => "'\\n'"
  | '\t' => "'\\t'"
  | '\r' => "'\\r'"
  | c =>
    if 32 ≤ c.toNat && c.toNat < 127 then String.ofList ['\'', c, '\'']
    else toString c.toNat

def fieldLabel (n : Node) : String :=
  match n.field with
  | some f => f.label ++ ": "
  | none => ""

/-- A missing token is shown by its name if it has one, else by its spelling in quotes. -/
def missingName (n : Node) : String :=
  if n.isNamed then n.kind.name else "\"" ++ n.kind.name ++ "\""

mutual

def sexp : Node → String
  | n@{ children := cs, .. } =>
    match n.unexpected with
    | some c => "(UNEXPECTED " ++ showChar c ++ ")"
    | none =>
      if n.isMissing then "(MISSING " ++ n.missingName ++ ")"
      else "(" ++ n.kind.name ++ sexpAll cs ++ ")"

def sexpAll : List Node → String
  | [] => ""
  | n :: ns =>
    (if n.isNamed || n.isMissing then " " ++ n.fieldLabel ++ sexp n else "") ++ sexpAll ns

end

end CalcTree.Node
