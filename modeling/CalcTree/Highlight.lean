import CalcTree.Node.Basic

/-!
# Highlighting

Rules that give parts of a tree a name by which an editor colours them, and their written form.
A rule looks for tokens of a kind anywhere, or only as children of a construct, possibly in a given
role and before another given child. Several rules may name the same token.
-/

namespace CalcTree

namespace Highlight

inductive Pattern where
  /-- A token that has a name. -/
  | token (t : Terminal)
  /-- A token directly below a construct, in a role if one is given, and with a construct in
  another role after it if one is given. -/
  | child (parent : Nonterminal) (role : Option Field) (t : Terminal)
    (before : Option (Field × Nonterminal))
  /-- Any of several tokens that have no name. -/
  | anyOf (ts : List Terminal)
deriving DecidableEq, Repr

structure Rule where
  pattern : Pattern
  name : String
deriving DecidableEq, Repr

def rules : List Rule := [
  ⟨.token .comment, "comment"⟩,
  ⟨.token .number, "number"⟩,
  ⟨.child .assignment (some .name) .identifier (some (.value, .functionBody)), "function"⟩,
  ⟨.child .assignment (some .name) .identifier none, "variable"⟩,
  ⟨.child .functionCall (some .function) .identifier none, "function.call"⟩,
  ⟨.child .parameterList none .identifier none, "variable.parameter"⟩,
  ⟨.token .identifier, "variable"⟩,
  ⟨.anyOf [.plus, .minus, .star, .slash, .percent, .caret, .bang], "operator"⟩,
  ⟨.anyOf [.colon, .semicolon], "punctuation.delimiter"⟩,
  ⟨.anyOf [.leftParen, .rightParen, .leftBracket, .rightBracket, .leftBrace, .rightBrace],
    "punctuation.bracket"⟩]

/-! ## The written form -/

def writeToken (t : Terminal) : String :=
  "(" ++ t.name ++ ")"

def writeRole (role : Option Field) : String :=
  match role with
  | some f => f.label ++ ": "
  | none => ""

def Rule.write (r : Rule) : String :=
  match r.pattern with
  | .token t => writeToken t ++ " @" ++ r.name ++ "\n"
  | .child parent role t before =>
    "(" ++ parent.name ++ "\n  " ++ writeRole role ++ writeToken t ++ " @" ++ r.name ++
      (match before with
      | some (f, n) => "\n  " ++ f.label ++ ": (" ++ n.name ++ ")"
      | none => "") ++ ")\n"
  | .anyOf ts =>
    "[\n" ++ String.join (ts.map fun t => "  \"" ++ t.name ++ "\"\n") ++ "] @" ++ r.name ++ "\n"

/-- All rules as text, with an empty line between them. -/
def written : String :=
  "\n".intercalate (rules.map Rule.write)

/-! ## What the rules find -/

def isToken (t : Terminal) (n : Node) : Bool :=
  n.kind == .terminal t

/-- The children, out of those given in order, that a child pattern finds. -/
def findChildren (role : Option Field) (t : Terminal) (before : Option (Field × Nonterminal)) :
    List Node → List Node
  | [] => []
  | n :: ns =>
    let found := isToken t n && role.all (n.field == some ·) &&
      before.all fun (f, k) => ns.any fun m => m.field == some f && m.kind == .nonterminal k
    (if found then [n] else []) ++ findChildren role t before ns

/-- What a pattern finds at a node. -/
def Pattern.find (p : Pattern) (n : Node) : List Node :=
  match p with
  | .token t => if isToken t n then [n] else []
  | .child parent role t before =>
    if n.kind == .nonterminal parent then findChildren role t before n.children else []
  | .anyOf ts => if ts.any (isToken · n) then [n] else []

/-- A named range of bytes, and the number of the rule that found it. -/
structure Capture where
  start : Nat
  stop : Nat
  rule : Nat
  name : String
deriving DecidableEq, Repr

namespace Capture

/-- By place, then by rule. -/
def inOrder (a b : Capture) : Bool :=
  ((compare a.start b.start).then
    ((compare a.stop b.stop).then (compare a.rule b.rule))).isLE

end Capture

/-- What a rule captures in a tree. Nothing is captured that ends where the source starts. -/
def Rule.captures (root : Node) (i : Nat) (r : Rule) : List Capture :=
  ((root.nodes.flatMap r.pattern.find).filter (0 < ·.stop.bytes)).map fun n =>
    ⟨n.start.bytes, n.stop.bytes, i, r.name⟩

/-- All that the rules capture in a tree, in order. -/
def captures (root : Node) : List Capture :=
  (rules.mapIdx (Rule.captures root)).flatten.mergeSort Capture.inOrder

end Highlight

end CalcTree
