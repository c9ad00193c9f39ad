import CalcTree.Grammar.Automaton
import CalcTree.Kind

/-!
# Grammar descriptors

A grammar is handed over as a descriptor: a place in memory that starts with a header of 32-bit
words, or no place at all. What is built from a descriptor knows the grammar's version and the
sizes of its tables.
-/

namespace CalcTree

/-- The counts at the start of a descriptor. -/
structure Header where
  version : UInt32 := 0
  symbolCount : UInt32 := 0
  aliasCount : UInt32 := 0
  tokenCount : UInt32 := 0
  externalTokenCount : UInt32 := 0
  stateCount : UInt32 := 0
  largeStateCount : UInt32 := 0
deriving DecidableEq, Repr

/-- The header that a descriptor leads to, if it leads anywhere. -/
abbrev Descriptor := Option Header

/-- What is known of a grammar once it is loaded. -/
structure Language where
  version : Nat
  symbols : Nat
  states : Nat
deriving DecidableEq, Repr

namespace Header

/-- The header of the grammar in this library. -/
def builtin : Header :=
  { version := 14
    symbolCount := Kind.all.length.toUInt32
    tokenCount := (Terminal.all.length + 1).toUInt32
    stateCount := State.rows.length.toUInt32
    largeStateCount := State.rows.length.toUInt32 }

/-- Symbols and aliases are counted together, in a 32-bit word. -/
def language (h : Header) : Language :=
  ⟨h.version.toNat, (h.symbolCount + h.aliasCount).toNat, h.stateCount.toNat⟩

end Header

end CalcTree
