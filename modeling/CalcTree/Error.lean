import CalcTree.Issue
import CalcTree.Loader.Load
import CalcTree.Text.Quoted

/-!
# Errors

Why a document cannot be read. As with load errors, there is a message for people and a dump that
shows how the error value is built.
-/

namespace CalcTree

namespace Query

/-- What is wrong with a query over trees. -/
inductive ErrorKind where
  | malformed
  | nodeKind
  | field
  | capture
  | predicate
  | impossible
  | language
deriving DecidableEq, Repr

structure Error where
  row : Nat
  column : Nat
  offset : Nat
  message : String
  kind : ErrorKind
deriving DecidableEq, Repr

def ErrorKind.dump : ErrorKind → String
  | malformed => "Syntax"
  | nodeKind => "NodeType"
  | field => "Field"
  | capture => "Capture"
  | predicate => "Predicate"
  | impossible => "Structure"
  | language => "Language"

/-- What introduces the message, if anything does. -/
def ErrorKind.introduction? : ErrorKind → Option String
  | malformed => some "Invalid syntax:\n"
  | nodeKind => some "Invalid node type "
  | field => some "Invalid field name "
  | capture => some "Invalid capture name "
  | predicate => some "Invalid predicate: "
  | impossible => some "Impossible pattern:\n"
  | language => none

namespace Error

/-- Rows and columns are counted from one here. -/
def text (e : Error) : String :=
  match e.kind.introduction? with
  | some intro => s!"Query error at {e.row + 1}:{e.column + 1}. {intro}{e.message}"
  | none => e.message

def dump (e : Error) : String :=
  s!"QueryError \x7b row: {e.row}, column: {e.column}, offset: {e.offset}, message: " ++
    Text.Quoted.ofString e.message ++ ", kind: " ++ e.kind.dump ++ " \x7d"

end Error

end Query

inductive ParseError where
  | load (error : LoadError)
  | cancelled
  | query (error : Query.Error)
  /-- The source has issues, the first of them in this line and column, counted from one. -/
  | invalid (line column : Nat) (issues : List Issue)
deriving DecidableEq, Repr

namespace GrammarLoadError

def dump (e : GrammarLoadError) : String :=
  "GrammarLoadError \x7b grammar: " ++ Text.Quoted.ofString e.grammar ++ ", source: " ++
    e.source.dump ++ " \x7d"

/-- The messages of what lies behind an error, outermost first. -/
def causes (e : GrammarLoadError) : List String :=
  e.source.message :: e.source.causes

/-- The chain of causes ends with the load error. -/
theorem causes_eq (e : GrammarLoadError) : e.causes = [e.source.message] := by
  rw [causes, e.source.causes_eq_nil]

end GrammarLoadError

namespace Issue

def Kind.dump : Issue.Kind → String
  | .unexpected => "Unexpected"
  | .missing token => "Missing(" ++ Text.Quoted.ofString token.name ++ ")"

def dump (i : Issue) : String :=
  let start := i.start
  "SyntaxIssue \x7b kind: " ++ i.kind.dump ++
    s!", byte_range: {start.bytes}..{i.stop}, start: Point \x7b row: {start.rows}, " ++
    s!"column: {start.columns} \x7d \x7d"

end Issue

namespace ParseError

def message : ParseError → String
  | load e => e.message
  | cancelled => "parsing was cancelled before a tree was produced"
  | query e => "invalid query: " ++ e.text
  | invalid line column _ => s!"syntax error at line {line}, column {column}"

def dump : ParseError → String
  | load e => "Load(" ++ e.dump ++ ")"
  | cancelled => "Cancelled"
  | query e => "Query(" ++ e.dump ++ ")"
  | invalid line column issues =>
    s!"Syntax \x7b line: {line}, column: {column}, issues: [" ++
      ", ".intercalate (issues.map Issue.dump) ++ "] \x7d"

/-- The messages of what lies behind an error. A load error is not behind this error: it is the
error itself, and what lies behind it lies behind this one. -/
def causes : ParseError → List String
  | load e => e.causes
  | cancelled => []
  | query e => [e.text]
  | invalid .. => []

end ParseError

end CalcTree
