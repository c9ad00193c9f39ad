import CalcTree.Grammar.Automaton
import CalcTree.Kind

/-!
# What a state expects

The automaton's table as seen from outside: for each state the kinds of nodes it has an entry for,
and where they lead.
-/

namespace CalcTree.State

def expects (s : State) : Kind → Bool
  | .finish => (s.action .finish).isSome
  | .terminal t => (s.action (.token t)).isSome
  | .nonterminal n => (s.goto? n).isSome
  | .error | .skipped => false

/-- The kinds that a state has an entry for, in the order of their numbers. -/
def expected (s : State) : List Kind :=
  Kind.all.filter s.expects

/-- The state after a node of some kind, the error state if no node of that kind is read here. -/
def nextOn (s : State) : Kind → State
  | .terminal t => s.next (.terminal t)
  | .nonterminal n => s.next (.nonterminal n)
  | .finish | .error | .skipped => error

end CalcTree.State
