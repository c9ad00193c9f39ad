import CalcTree.Node.Cursor
import CalcTree.Text.Quoted
import CalcTree.Text.Slice

/-!
# Outlines

A tree with one line for each node: indented by depth, with its field, its kind and its range of
bytes, and for leaves the text in that range. Kinds without a name and leaf texts are quoted, so a
line break in the text does not break the line.

The text may be another than the source of the tree. Then a leaf may reach beyond its end, which
leaves nothing to show, or cut a character in two, which is shown by a stand-in.
-/

namespace CalcTree.Node

def decimal (n : Nat) : List Char :=
  Nat.toDigits 10 n

def indent (depth : Nat) : List Char :=
  List.replicate (2 * depth) ' '

/-- What is shown in place of a text that cannot be. -/
def standIn : List Char :=
  "<error>".toList

/-- The text of a leaf as it is shown; `none` if the leaf reaches beyond the end of the text. -/
def leafText? (text : List Char) (n : Node) : Option (List Char) :=
  match Slice.ofRange text n.start.bytes n.stop.bytes with
  | .chars cs => some cs
  | .splitCharacter => some standIn
  | .beyondEnd => none

def outlineKind (n : Node) : List Char :=
  if n.isNamed then n.kind.name.toList else Text.Quoted.encode n.kind.name.toList

/-- The part of a line that does not depend on the text. -/
def outlineHead (depth : Nat) (n : Node) : List Char :=
  indent depth ++ n.field.elim [] (fun f => f.label.toList ++ ": ".toList) ++ n.outlineKind ++
    " [".toList ++ decimal n.start.bytes ++ "-".toList ++ decimal n.stop.bytes ++ "]".toList

def outlineLine? (text : List Char) (depth : Nat) (n : Node) : Option (List Char) :=
  if n.children.isEmpty then
    (n.leafText? text).map fun cs =>
      n.outlineHead depth ++ " ".toList ++ Text.Quoted.encode cs ++ "\n".toList
  else some (n.outlineHead depth ++ "\n".toList)

/-- The outline of a tree over a text; `none` if a leaf reaches beyond the end of the text. -/
def outline? (text : List Char) (n : Node) : Option (List Char) :=
  ((Cursor.walk n).bind fun seen =>
    seen.mapM fun (depth, m) => outlineLine? text depth m).map List.flatten

end CalcTree.Node
