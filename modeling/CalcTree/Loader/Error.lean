/-!
# Load errors

Why a descriptor does not give a grammar. Each cause has a message for people and a dump, which
shows the value as it is built.
-/

namespace CalcTree

inductive LoadError where
  | nullDescriptor
  | incompatibleVersion (version min max : Nat)
  | emptyTables (symbols states : Nat)
  /-- The parser itself refused the grammar. -/
  | rejected (version : Nat)
deriving DecidableEq, Repr

namespace LoadError

/-- The grammar versions that can be read. -/
def minVersion : Nat := 13

def maxVersion : Nat := 14

def message : LoadError → String
  | nullDescriptor => "grammar descriptor is null"
  | incompatibleVersion version min max =>
    s!"grammar ABI version {version} is outside the supported range {min}..={max}"
  | emptyTables symbols states =>
    s!"grammar descriptor has empty tables ({symbols} symbols, {states} states)"
  | rejected version =>
    s!"Incompatible language version {version}. Expected minimum {minVersion}, maximum {maxVersion}"

def dump : LoadError → String
  | nullDescriptor => "NullDescriptor"
  | incompatibleVersion version min max =>
    s!"IncompatibleVersion \x7b version: {version}, min: {min}, max: {max} \x7d"
  | emptyTables symbols states => s!"EmptyTables \x7b symbols: {symbols}, states: {states} \x7d"
  | rejected version => s!"Rejected(LanguageError \x7b version: {version} \x7d)"

/-- The messages of what lies behind an error, outermost first. The parser's refusal is not behind
this error: it is the error itself, and it names no reason of its own. -/
def causes : LoadError → List String
  | nullDescriptor => []
  | incompatibleVersion .. => []
  | emptyTables .. => []
  | rejected _ => []

theorem causes_eq_nil (e : LoadError) : e.causes = [] := by
  cases e <;> rfl

end LoadError

end CalcTree
