import CalcTree.Text.Printable

/-!
# Quoted text

A text between double quotes. Quote, backslash, tab, line feed, carriage return and NUL have an
escape of one letter; every other character without a glyph is written by its code point in
hexadecimal; the rest stand for themselves. So a quoted text never holds a line feed, and its only
bare quotes are the two around it.
-/

namespace CalcTree.Text.Quoted

def escape (c : Char) : List Char :=
  match c with
  | '\x00' => ['\\', '0']
  | '\t' => ['\\', 't']
  | '\n' => ['\\', 'n']
  | '\r' => ['\\', 'r']
  | '"' => ['\\', '"']
  | '\\' => ['\\', '\\']
  | c =>
    if isPrintable c then [c]
    else ['\\', 'u', '\x7b'] ++ Nat.toDigits 16 c.toNat ++ ['\x7d']

def encode (s : List Char) : List Char :=
  '"' :: s.flatMap escape ++ ['"']

def ofString (s : String) : String :=
  String.ofList (encode s.toList)

end CalcTree.Text.Quoted
