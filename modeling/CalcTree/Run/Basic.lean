import CalcTree.Stack.Walk

/-!
# Parses in progress

The state of the parser: the graph of stacks and a list of heads, one for each parse that is still
in the race. The order of the heads is the order in which they are tried. A head is active as
long as it can read on; it pauses at a token it has no use for, and is halted when it has nothing
more to contribute.
-/

namespace CalcTree

inductive Status where
  | active
  | paused
  | halted
deriving DecidableEq, Repr, Inhabited

structure Head where
  /-- The top of the stack. -/
  top : Nat
  /-- The weight at the last error; what has been read since then speaks for a parse. -/
  base : Nat
  status : Status
  /-- Where the parse could go on, if it is in the error state. -/
  marks : Option (List Graph.Mark)
deriving Inhabited, Repr

structure Run where
  input : Scan
  graph : Graph
  heads : List Head
  /-- The best tree finished so far, and how many there were. -/
  best : Option Measured
  finished : Nat
  /-- The head whose turn it is. -/
  turn : Nat
  /-- The byte up to which a head had read when it last passed on its turn. -/
  frontier : Nat

namespace Run

def start (input : Scan) : Run :=
  { input := input
    graph := .start
    heads := [⟨0, 0, .active, none⟩]
    best := none
    finished := 0
    turn := 0
    frontier := 0 }

def head (r : Run) (v : Nat) : Head :=
  r.heads[v]?.getD default

def top (r : Run) (v : Nat) : Vertex :=
  r.graph.vertex (r.head v).top

def state (r : Run) (v : Nat) : State :=
  (r.top v).state

def offset (r : Run) (v : Nat) : Nat :=
  (r.top v).position.bytes

def setHead (r : Run) (v : Nat) (h : Head) : Run :=
  { r with heads := r.heads.set v h }

def setStatus (r : Run) (v : Nat) (status : Status) : Run :=
  r.setHead v { r.head v with status := status }

def addHead (r : Run) (h : Head) : Run :=
  { r with heads := r.heads ++ [h] }

def remove (r : Run) (v : Nat) : Run :=
  { r with heads := r.heads.eraseIdx v }

/-- Lets head `w` take the place of head `v`. Places to go on from stay with the place. -/
def renumber (r : Run) (w v : Nat) : Run :=
  let h := r.head w
  (r.setHead v { h with marks := h.marks.or (r.head v).marks }).remove w

/-- The tree that a head would read next. -/
def lookahead (r : Run) (v : Nat) : Tree :=
  match r.input.lexemes[(r.top v).read]? with
  | some l => .leaf l
  | none => .finish r.input.trailing

/-- Pushes a tree on the stack of a head. -/
def push (r : Run) (v : Nat) (tree : Measured) (state : State) : Run :=
  { r with
    graph := r.graph.push (r.head v).top (some tree) state
    heads := r.heads.set v { r.head v with top := r.graph.vertices.size } }

/-- Lets a head fall into the error state, from where its progress is counted anew. -/
def fall (r : Run) (v : Nat) : Run :=
  { r with
    graph := r.graph.push (r.head v).top none .error
    heads := r.heads.set v
      { r.head v with top := r.graph.vertices.size, base := (r.top v).weight } }

/-- What a parse has cost so far. One that has just fallen into the error state, or is about to,
pays for that too. -/
def cost (r : Run) (v : Nat) : Nat :=
  let a := r.top v
  let fallen := a.state = .error && (a.links.head?.all fun l => l.tree.isNone)
  a.cost + if (r.head v).status = .paused || fallen then Cost.recovery else 0

/-- Brings the base of a head down to its weight, which may have shrunk by pops. -/
def rebase (r : Run) (v : Nat) : Run :=
  r.setHead v { r.head v with base := min (r.head v).base (r.top v).weight }

/-- What a head has read since its last error. -/
def progress (r : Run) (v : Nat) : Nat :=
  (r.top v).weight - (r.head v).base

def canMerge (r : Run) (v w : Nat) : Bool :=
  (r.head v).status == .active && (r.head w).status == .active &&
    r.graph.interchangeable (r.head v).top (r.head w).top

/-- Merges head `w` into head `v`, if their tops are interchangeable. -/
def merge? (r : Run) (v w : Nat) : Option Run :=
  if r.canMerge v w then
    let h := r.head v
    let graph := r.graph.join h.top (r.head w).top
    let a := graph.vertex h.top
    let h := if a.state = .error then { h with base := a.weight } else h
    some ({ r with graph := graph, heads := r.heads.set v h }.remove w)
  else none

/-- Merges head `w` into the first of the given heads that it can be merged into. -/
def mergeAny? (r : Run) (vs : List Nat) (w : Nat) : Option Run :=
  vs.findSome? fun v => r.merge? v w

end Run

end CalcTree
