import CalcTree.Stack.Graph

/-!
# Walks down the stack graph

A walk follows all ways down from a vertex at once, one link per round, and looks at each vertex
it comes to. On the way it gathers the trees it passes. It counts the links, except those over
extra trees: the count is how many parts of a construct have been passed.

A vertex with several links splits a way; the first link continues it and the others go to the
end of the queue, as long as fewer than `maxWays` ways are open.
-/

namespace CalcTree

/-- A way down: where it is, what it passed (leftmost first), and how many parts that were. -/
structure Way where
  vertex : Nat
  trees : List Measured
  depth : Nat
deriving Inhabited

namespace Way

def follow (w : Way) (l : Link) : Way :=
  match l.tree with
  | some t => ⟨l.target, t :: w.trees, if t.isExtra then w.depth else w.depth + 1⟩
  | none => ⟨l.target, w.trees, w.depth + 1⟩

end Way

namespace Graph

def maxWays : Nat := 64

/-- One round of a walk. `visit` looks at a way and says whether it ends here. -/
def walkRound {σ : Type} (g : Graph) (visit : σ → Way → σ × Bool) :
    List Way → List Way → List Way → σ → List Way × σ
  | [], kept, split, s => (kept ++ split, s)
  | w :: ws, kept, split, s =>
    match visit s w with
    | (s, true) => walkRound g visit ws kept split s
    | (s, false) =>
      match g.linksOf w.vertex with
      | [] => walkRound g visit ws kept split s
      | l :: others =>
        let room := maxWays - (kept.length + (ws.length + 1) + split.length)
        walkRound g visit ws (kept ++ [w.follow l]) (split ++ (others.take room).map w.follow) s

def walkFrom {σ : Type} (g : Graph) (visit : σ → Way → σ × Bool) : Nat → List Way → σ → σ
  | 0, _, s => s
  | _ + 1, [], s => s
  | fuel + 1, w :: ws, s =>
    let (ways, s) := g.walkRound visit (w :: ws) [] [] s
    walkFrom g visit fuel ways s

/-- Walks down from `v` until every way has ended. No way is longer than the graph. -/
def walk {σ : Type} (g : Graph) (v : Nat) (visit : σ → Way → σ × Bool) (s : σ) : σ :=
  g.walkFrom visit (g.vertices.size + 1) [⟨v, [], 0⟩] s

/-- Ways that end in one vertex: the vertex, and what each of them passed. -/
structure Pop where
  vertex : Nat
  alternatives : List (List Measured)
deriving Inhabited

/-- Files a way under the vertex where it ends. -/
def addPop (pops : List Pop) (w : Way) : List Pop :=
  match pops with
  | [] => [⟨w.vertex, [w.trees]⟩]
  | p :: ps =>
    if p.vertex = w.vertex then { p with alternatives := p.alternatives ++ [w.trees] } :: ps
    else p :: addPop ps w

/-- All ways to take `n` parts off the stack, by the vertex they uncover. -/
def pop (g : Graph) (v n : Nat) : List Pop :=
  g.walk v (fun pops w => if w.depth = n then (addPop pops w, true) else (pops, false)) []

/-- All ways to take everything off the stack. -/
def popAll (g : Graph) (v : Nat) : List Pop :=
  g.walk v (fun pops w => (if (g.linksOf w.vertex).isEmpty then addPop pops w else pops, false)) []

/-- A state that a parse went through, how many parts ago, and where that was. -/
structure Mark where
  depth : Nat
  state : State
  position : Extent
deriving DecidableEq, Repr

/-- How many parts back a parse looks for a state to go on from. -/
def maxDepth : Nat := 16

/-- The states that lie below `v`, nearest first. -/
def marks (g : Graph) (v : Nat) : List Mark :=
  (g.walk v (fun (found : List Mark) w =>
    let a := g.vertex w.vertex
    if maxDepth < w.depth then (found, true)
    else if (found.takeWhile fun m => w.depth ≤ m.depth).any fun m =>
        m.depth == w.depth && m.state == a.state then (found, false)
    else (⟨w.depth, a.state, a.position⟩ :: found, false)) []).reverse

/-- Takes an error node off the top of the stack: the vertex below it and its children, along the
first link that has one. -/
def popError? (g : Graph) (v : Nat) : Option (Nat × List Measured) :=
  (g.linksOf v).findSome? fun l =>
    match l.tree with
    | some t => if t.kind = .error then some (l.target, t.tree.children.map .ofTree) else none
    | none => none

end Graph

end CalcTree
