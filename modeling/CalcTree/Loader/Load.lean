import CalcTree.Event
import CalcTree.Loader.Descriptor

/-!
# Loading grammars

A descriptor is looked at before it is trusted: it has to lead somewhere, be of a version that can
be read, and describe at least one symbol and one state, in this order. The smoke test loads a
grammar and installs it in a parser, only to see whether that works.
-/

namespace CalcTree

/-- A grammar failed the smoke test. -/
structure GrammarLoadError where
  grammar : String
  source : LoadError
deriving DecidableEq, Repr

namespace GrammarLoadError

def message (e : GrammarLoadError) : String :=
  "Error loading " ++ e.grammar ++ " grammar"

end GrammarLoadError

namespace Language

def checkVersion (version : Nat) : Except LoadError Unit :=
  if LoadError.minVersion ≤ version && version ≤ LoadError.maxVersion then .ok ()
  else .error (.incompatibleVersion version LoadError.minVersion LoadError.maxVersion)

def checkTables (symbols states : Nat) : Except LoadError Unit :=
  if symbols = 0 || states = 0 then .error (.emptyTables symbols states) else .ok ()

def check (l : Language) : Except LoadError Language := do
  checkVersion l.version
  checkTables l.symbols l.states
  return l

def load (d : Descriptor) : Logged (Except LoadError Language) := do
  match d with
  | none =>
    Logged.log .descriptorNull
    return .error .nullDescriptor
  | some header =>
    match header.language.check with
    | .error e =>
      Logged.log (.descriptorRefused e)
      return .error e
    | .ok l =>
      Logged.log (.descriptorAccepted l.version l.symbols l.states)
      return .ok l

/-- A parser takes any grammar of a version that it can read. -/
def install (l : Language) : Except LoadError Unit :=
  if l.version < LoadError.minVersion || LoadError.maxVersion < l.version then
    .error (.rejected l.version)
  else .ok ()

def loadAndInstall (d : Descriptor) : Logged (Except LoadError Unit) := do
  match ← load d with
  | .error e => return .error e
  | .ok l => return l.install

def smokeTest (d : Descriptor) : Logged (Except GrammarLoadError Unit) := do
  match ← loadAndInstall d with
  | .error e =>
    Logged.log (.grammarFailed e)
    return .error ⟨grammarName, e⟩
  | .ok () =>
    Logged.log .grammarLoaded
    return .ok ()

end Language

end CalcTree
