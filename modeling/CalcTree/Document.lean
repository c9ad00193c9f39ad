import CalcTree.Error
import CalcTree.Run.Step

/-!
# Documents

A source with its tree. A source with errors has a tree too, and the parser may take as many steps
as it needs, so reading a document goes wrong only if the grammar does not load or the parser does
not come to an end with a tree; `check` refuses documents that have issues.
-/

namespace CalcTree

structure Document where
  source : String
  root : Node
deriving Repr

namespace Document

/-- The document of a source, if the parser comes to an end with a tree. -/
def ofSource? (source : String) : Option Document :=
  (Tree.ofChars? source.toList).map fun t => ⟨source, .root t⟩

/-- Loads the grammar for a parser. -/
def prepare : Logged (Except LoadError Unit) :=
  Language.loadAndInstall (some .builtin)

def parse (source : String) : Logged (Except ParseError Document) := do
  match ← prepare with
  | .error e => return .error (.load e)
  | .ok () =>
    match ofSource? source with
    | none => return .error .cancelled
    | some d =>
      Logged.log (.sourceParsed source.utf8ByteSize d.root.isDamaged)
      return .ok d

/-- The issues of a tree. Only of a damaged tree they are collected at all. -/
def issues (root : Node) : Logged (List Issue) := do
  if root.isDamaged then
    Logged.log (.issuesCollected (Issue.ofRoot root).length)
  return Issue.ofRoot root

/-- Parses a source that has to be free of issues. -/
def check (source : String) : Logged (Except ParseError Document) := do
  match ← parse source with
  | .error e => return .error e
  | .ok d =>
    if d.root.isDamaged then
      let found ← issues d.root
      let start := (found.head?.map Issue.start).getD d.root.start
      return .error (.invalid (start.rows + 1) (start.columns + 1) found)
    else return .ok d

end Document

end CalcTree
