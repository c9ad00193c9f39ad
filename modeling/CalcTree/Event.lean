import CalcTree.Loader.Error

/-!
# Events

What the library reports about its work while it does it. An operation that reports gives its
events, in order, along with its result.
-/

namespace CalcTree

/-- The name of the grammar. -/
def grammarName : String := "Wabznasm"

inductive Event where
  | descriptorNull
  | descriptorRefused (error : LoadError)
  | descriptorAccepted (version symbols states : Nat)
  | grammarLoaded
  | grammarFailed (error : LoadError)
  | sourceParsed (bytes : Nat) (hasError : Bool)
  | issuesCollected (count : Nat)
deriving DecidableEq, Repr

namespace Event

inductive Level where
  | trace
  | debug
  | warn
  | error
deriving DecidableEq, Repr

/-- The part of the library that an event comes from. -/
inductive Origin where
  | loader
  | smokeTest
  | parser
deriving DecidableEq, Repr

inductive Value where
  | number (n : Nat)
  | flag (b : Bool)
  | text (s : String)
deriving DecidableEq, Repr

def level : Event → Level
  | descriptorNull | descriptorRefused _ => .warn
  | descriptorAccepted .. | grammarLoaded | sourceParsed .. => .debug
  | grammarFailed _ => .error
  | issuesCollected _ => .trace

def origin : Event → Origin
  | descriptorNull | descriptorRefused _ | descriptorAccepted .. => .loader
  | grammarLoaded | grammarFailed _ => .smokeTest
  | sourceParsed .. | issuesCollected _ => .parser

def message : Event → String
  | descriptorNull => "grammar descriptor is null"
  | descriptorRefused _ => "grammar descriptor refused"
  | descriptorAccepted .. => "grammar descriptor accepted"
  | grammarLoaded => "grammar loaded"
  | grammarFailed _ => "grammar failed to load"
  | sourceParsed .. => "parsed source"
  | issuesCollected _ => "collected syntax issues"

/-- The particulars of an event, by name. -/
def details : Event → List (String × Value)
  | descriptorNull => []
  | descriptorRefused e => [("err", .text e.message)]
  | descriptorAccepted version symbols states =>
    [("version", .number version), ("symbols", .number symbols), ("states", .number states)]
  | grammarLoaded => [("grammar", .text grammarName)]
  | grammarFailed e => [("grammar", .text grammarName), ("source", .text e.message)]
  | sourceParsed bytes hasError => [("bytes", .number bytes), ("has_error", .flag hasError)]
  | issuesCollected count => [("count", .number count)]

end Event

/-- A result and the events on the way to it. -/
structure Logged (α : Type) where
  value : α
  events : List Event
deriving Repr

namespace Logged

instance : Monad Logged where
  pure a := ⟨a, []⟩
  bind x f := ⟨(f x.value).value, x.events ++ (f x.value).events⟩

def log (e : Event) : Logged Unit :=
  ⟨(), [e]⟩

end Logged

end CalcTree
