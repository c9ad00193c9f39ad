import CalcTree.Tree.Basic

/-!
# Nodes

The view of a tree that is shown to its users: visible nodes with their places in the source. The
children of a hidden node are handed up to the node above it, with the field of the hidden node
where they have none of their own.

Places are not stored in a tree. They follow from laying its parts out one after the other, each
after the blanks in front of it.
-/

namespace CalcTree

structure Node where
  kind : Kind
  field : Option Field
  start : Extent
  stop : Extent
  isExtra : Bool
  isMissing : Bool
  /-- Whether there is damage that costs, here or below. -/
  isDamaged : Bool
  /-- The first of the characters that start no token, for a leaf that holds such. -/
  unexpected : Option Char
  children : List Node
deriving Repr

namespace Node

def isNamed (n : Node) : Bool :=
  n.kind.isNamed

def isError (n : Node) : Bool :=
  n.kind == .error

/-- The node of a visible tree that takes up the room between two places, the blanks in front of
it included. -/
def ofTree (t : Tree) (place stop : Extent) (field : Option Field) (children : List Node) : Node :=
  { kind := t.kind
    field := field
    start := place + t.pad
    stop := stop
    isExtra := t.isExtra
    isMissing :=
      match t with
      | .missing _ => true
      | _ => false
    isDamaged := t.isDamaged
    unexpected :=
      match t with
      | .leaf ⟨.unknown, _, text⟩ => text.head?
      | _ => none
    children := children }

mutual

/-- Lays a tree out at `place`: the nodes shown directly below it, and the place where it ends. -/
def layout (place : Extent) (inherited : Option Field) : Tree → List Node × Extent
  | .leaf l => ([], place + (l.pad + l.size))
  | .missing _ => ([], place)
  | .finish blank => ([], place + .ofChars blank)
  | .node p cs => layoutAll p.fieldAt inherited 0 place cs
  | .error _ cs | .skipped cs => layoutAll (fun _ => none) inherited 0 place cs

/-- Lays some of its parts out, each where the one before it ends: `i` is the number of the first
of them, with extra ones not counted. -/
def layoutAll (roles : Nat → Option Field) (inherited : Option Field) :
    Nat → Extent → List Tree → List Node × Extent
  | _, place, [] => ([], place)
  | i, place, c :: cs =>
    let field := if c.isExtra then none else (roles i).or inherited
    let (below, stop) := layout place (if c.isVisible then none else field) c
    let (after, last) := layoutAll roles inherited (if c.isExtra then i else i + 1) stop cs
    ((if c.isVisible then [ofTree c place stop field below] else below) ++ after, last)

end

mutual

/-- A tree that is laid out takes the room that it needs. -/
theorem layout_stop (place : Extent) (inherited : Option Field) :
    ∀ t : Tree, (layout place inherited t).2 = place + t.reach
  | .leaf _ => by simp [layout, Tree.reach, Tree.pad, Tree.size]
  | .missing _ => by simp [layout, Tree.reach, Tree.pad, Tree.size]
  | .finish _ => by simp [layout, Tree.reach, Tree.pad, Tree.size]
  | .node _ cs | .error _ cs | .skipped cs => by
    rw [layout, layoutAll_stop, Tree.reach, Tree.pad, Tree.size, Tree.reachAll_eq]

theorem layoutAll_stop (roles : Nat → Option Field) (inherited : Option Field) :
    ∀ (i : Nat) (place : Extent) (ts : List Tree),
      (layoutAll roles inherited i place ts).2 = place + Tree.reachAll ts
  | _, _, [] => by simp [layoutAll, Tree.reachAll]
  | i, place, c :: cs => by
    rw [layoutAll, layoutAll_stop, layout_stop, Tree.reachAll, Extent.add_assoc', Tree.reach]

end

/-- The node of a whole tree. -/
def root (t : Tree) : Node :=
  let (below, stop) := layout 0 none t
  ofTree t 0 stop none below

mutual

/-- A node and all below it, parents before children, each with its depth. -/
def entries (depth : Nat) : Node → List (Nat × Node)
  | n@{ children := cs, .. } => (depth, n) :: entriesAll (depth + 1) cs

def entriesAll (depth : Nat) : List Node → List (Nat × Node)
  | [] => []
  | n :: ns => entries depth n ++ entriesAll depth ns

end

/-- A node and all below it, parents before children. -/
def nodes (n : Node) : List Node :=
  (n.entries 0).map (·.2)

mutual

theorem entries_snd : ∀ (n : Node) (depth : Nat), (n.entries depth).map (·.2) = n.nodes
  | { children := cs, .. }, depth => by
    simp only [nodes, entries, List.map_cons, entriesAll_snd cs]

theorem entriesAll_snd : ∀ (ns : List Node) (depth : Nat),
    (entriesAll depth ns).map (·.2) = ns.flatMap nodes
  | [], _ => rfl
  | n :: ns, depth => by
    simp only [entriesAll, List.map_append, entries_snd n, entriesAll_snd ns, List.flatMap_cons]

end

theorem nodes_eq (n : Node) : n.nodes = n :: n.children.flatMap nodes := by
  obtain ⟨kind, field, start, stop, extra, missing, damaged, unexpected, cs⟩ := n
  simp only [nodes, entries, List.map_cons, entriesAll_snd]

/-- The children that have a name. -/
def namedChildren (n : Node) : List Node :=
  n.children.filter isNamed

end Node

end CalcTree
