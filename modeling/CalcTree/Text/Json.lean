/-!
# Indented JSON

A value per line, two blanks for each level, and empty arrays and objects closed at once. Texts
are written as they are, for there is none among them that would need an escape.
-/

namespace CalcTree.Text

inductive Json where
  | flag (b : Bool)
  | text (s : String)
  | array (items : List Json)
  | object (members : List (String × Json))

namespace Json

/-- Items on lines of their own, between brackets. -/
def bracket (opening closing indent : String) (items : List String) : String :=
  if items.isEmpty then opening ++ closing
  else
    let inner := "\n" ++ indent ++ "  "
    opening ++ inner ++ ("," ++ inner).intercalate items ++ "\n" ++ indent ++ closing

mutual

/-- Writes a value after so much indentation. -/
def write (indent : String) : Json → String
  | flag b => if b then "true" else "false"
  | text s => "\"" ++ s ++ "\""
  | array items => bracket "[" "]" indent (writeItems (indent ++ "  ") items)
  | object members => bracket "\x7b" "\x7d" indent (writeMembers (indent ++ "  ") members)

def writeItems (indent : String) : List Json → List String
  | [] => []
  | j :: js => write indent j :: writeItems indent js

def writeMembers (indent : String) : List (String × Json) → List String
  | [] => []
  | (name, j) :: ms => ("\"" ++ name ++ "\": " ++ write indent j) :: writeMembers indent ms

end

end Json

end CalcTree.Text
