import CalcTree.Grammar.Automaton
import CalcTree.Tree.Measured

/-!
# The graph of parse stacks

Several parses go on side by side and share what they have in common, so their stacks form one
graph. A vertex stands for the automaton's state after some of the input; its links lead back to
the vertices before it, over the tree that was read in between. A link without a tree marks the
place where a parse fell into the error state.

Two vertices that agree in state, place and cost are interchangeable for what follows, and are
made one by giving the links of one to the other (`addLink`).
-/

namespace CalcTree

structure Link where
  target : Nat
  tree : Option Measured
deriving Inhabited

structure Vertex where
  state : State
  links : List Link
  /-- The number of lexemes read. -/
  read : Nat
  position : Extent
  cost : Nat
  /-- The weight of the trees read since the bottom, on the heaviest way. -/
  weight : Nat
deriving Inhabited

/-- Vertices are known by their index, and only ever added. -/
structure Graph where
  vertices : Array Vertex
deriving Inhabited

namespace Graph

/-- Nothing read yet. -/
def start : Graph :=
  ⟨#[⟨.start, [], 0, 0, 0, 0⟩]⟩

def vertex (g : Graph) (v : Nat) : Vertex :=
  g.vertices[v]?.getD default

def linksOf (g : Graph) (v : Nat) : List Link :=
  (g.vertex v).links

/-- Adds a vertex on top of `v`; it gets the index `g.vertices.size`. -/
def push (g : Graph) (v : Nat) (tree : Option Measured) (state : State) : Graph :=
  let below := g.vertex v
  ⟨g.vertices.push
    { state := state
      links := [⟨v, tree⟩]
      read := below.read + ((tree.map Measured.leafCount).getD 0)
      position := below.position + ((tree.map Measured.reach).getD 0)
      cost := below.cost + ((tree.map Measured.cost).getD 0)
      weight := below.weight + ((tree.map Measured.weight).getD 0) }⟩

/-- Adds vertices on top of `v` for trees that leave the state as it is, and gives the last. -/
def pushAll (g : Graph) (v : Nat) (trees : List Measured) (state : State) : Graph × Nat :=
  trees.foldl (fun (g, v) t => (g.push v (some t) state, g.vertices.size)) (g, v)

/-- Whether two vertices can be made one. -/
def interchangeable (g : Graph) (v w : Nat) : Bool :=
  let a := g.vertex v
  let b := g.vertex w
  a.state == b.state && a.position.bytes == b.position.bytes && a.cost == b.cost

/-- Whether two links carry trees that count as one. -/
def sameTree (a b : Link) : Bool :=
  match a.tree, b.tree with
  | some s, some t => s.alike t
  | none, none => true
  | _, _ => false

def maxLinks : Nat := 8

/-- Gives `v` one more link. A link over a tree that counts as one with that of an old link, to
an interchangeable vertex, joins that vertex's links to the old one's instead; `fuel` bounds how
deep this goes. A vertex that has all the links it may have gets no more. -/
def addLink : Nat → Graph → Nat → Link → Graph
  | 0, g, _, _ => g
  | fuel + 1, g, v, link =>
    if link.target = v then g
    else
      match (g.linksOf v).find? fun old =>
        sameTree old link &&
          (old.target == link.target || g.interchangeable old.target link.target) with
      | some old =>
        if old.target = link.target then g
        else (g.linksOf link.target).foldl (fun g l => addLink fuel g old.target l) g
      | none =>
        let a := g.vertex v
        if a.links.length = maxLinks then g
        else
          let weight := (g.vertex link.target).weight + ((link.tree.map Measured.weight).getD 0)
          ⟨g.vertices.setIfInBounds v
            { a with links := a.links ++ [link], weight := max a.weight weight }⟩

/-- Makes `v` stand for `w` too. -/
def join (g : Graph) (v w : Nat) : Graph :=
  (g.linksOf w).foldl (fun g l => addLink (g.vertices.size + 1) g v l) g

end Graph

end CalcTree
