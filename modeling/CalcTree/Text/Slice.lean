/-!
# Byte ranges of a text

A range counts bytes, a text is made of characters. Cutting out a range gives characters exactly
when both ends stand between two characters; an empty range cuts nothing wherever it stands.
-/

namespace CalcTree

/-- What a byte range of a text holds. -/
inductive Slice where
  | chars (cs : List Char)
  | splitCharacter
  | beyondEnd
deriving DecidableEq, Repr

namespace Slice

def byteSize : List Char → Nat
  | [] => 0
  | c :: cs => c.utf8Size + byteSize cs

/-- The text after its first `n` bytes, if a character ends there. -/
def dropBytes? : Nat → List Char → Option (List Char)
  | 0, cs => some cs
  | _ + 1, [] => none
  | n + 1, c :: cs => if c.utf8Size ≤ n + 1 then dropBytes? (n + 1 - c.utf8Size) cs else none

/-- The first `n` bytes of the text, if a character ends there. -/
def takeBytes? : Nat → List Char → Option (List Char)
  | 0, _ => some []
  | _ + 1, [] => none
  | n + 1, c :: cs =>
    if c.utf8Size ≤ n + 1 then (takeBytes? (n + 1 - c.utf8Size) cs).map (c :: ·) else none

/-- The bytes of `text` from `start` up to `stop`, for `start ≤ stop`. -/
def ofRange (text : List Char) (start stop : Nat) : Slice :=
  if byteSize text < stop then .beyondEnd
  else if start = stop then .chars []
  else
    match (dropBytes? start text).bind (takeBytes? (stop - start)) with
    | some cs => .chars cs
    | none => .splitCharacter

end Slice

end CalcTree
