import CalcTree.Node.Search

/-!
# Issues

What is wrong with a source, read off its tree: text that does not fit, and tokens that are
missing. Issues come in the order of the source, longer ones first where several start together.
Of damage that lies within text already reported only that report is kept.

The search for missing tokens goes through the tree with a cursor. It comes to the same as a search
node by node, which is easier to reason about (`collectMissing_ofRoot`).
-/

namespace CalcTree

inductive Issue.Kind where
  | unexpected
  | missing (token : CalcTree.Kind)
deriving DecidableEq, Repr

structure Issue where
  kind : Issue.Kind
  start : Extent
  /-- The byte after the last. -/
  stop : Nat
deriving DecidableEq, Repr

namespace Issue

def ofNode (n : Node) : Issue :=
  ⟨if n.isMissing then .missing n.kind else .unexpected, n.start, n.stop.bytes⟩

/-- Adds a node to those that were found, last first, if it is a missing token. -/
def note (found : List Node) (n : Node) : List Node :=
  if n.isMissing then n :: found else found

/-- Searches for missing tokens from a cursor on, and goes down into damaged nodes only: the tokens
found on the way, after those found before, and the cursor in the end. What was found before comes
last first. -/
def collectMissing (found : List Node) (c : Cursor) : List Node × Cursor :=
  match h : c.advance Node.isDamaged with
  | .inr d =>
    have := Cursor.length_left_lt h
    collectMissing (note found c.node) d
  | .inl d => ((note found c.node).reverse, d)
termination_by c.left.length

/-- All damage in a tree: text that does not fit, then missing tokens. -/
def damage (root : Node) : List Node :=
  root.nodes.filter Node.isError ++ (collectMissing [] (.ofRoot root)).1

/-- Earlier ones come first, and of those that start together the longer ones. -/
def inOrder (a b : Node) : Bool :=
  a.start.bytes < b.start.bytes ||
    (a.start.bytes == b.start.bytes && b.stop.bytes ≤ a.stop.bytes)

/-- Whether text that is reported as unexpected takes in a node. -/
def covers (i : Issue) (n : Node) : Bool :=
  i.kind == .unexpected && i.start.bytes ≤ n.start.bytes && n.stop.bytes ≤ i.stop

/-- The issues of nodes in order, given the last one before. -/
def report : Option Issue → List Node → List Issue
  | _, [] => []
  | last, n :: ns =>
    if last.any (covers · n) then report last ns
    else ofNode n :: report (some (ofNode n)) ns

/-- The issues of a whole tree. -/
def ofRoot (root : Node) : List Issue :=
  if root.isDamaged then report none ((damage root).mergeSort inOrder) else []

/-! ## Missing tokens, node by node -/

mutual

/-- The missing tokens of a tree. Only damaged nodes are searched. -/
def missingIn : Node → List Node
  | n@{ children := cs, .. } =>
    (if n.isMissing then [n] else []) ++ if n.isDamaged then missingInAll cs else []

def missingInAll : List Node → List Node
  | [] => []
  | n :: ns => missingIn n ++ missingInAll ns

end

theorem missingInAll_eq (ns : List Node) : missingInAll ns = ns.flatMap missingIn := by
  induction ns with
  | nil => rfl
  | cons n ns ih => rw [missingInAll, ih, List.flatMap_cons]

theorem missingIn_unfold (n : Node) : missingIn n =
    (if n.isMissing then [n] else []) ++
      if n.isDamaged then n.children.flatMap missingIn else [] := by
  cases n
  rw [missingIn, missingInAll_eq]

theorem reverse_note (found : List Node) (n : Node) :
    (note found n).reverse = found.reverse ++ if n.isMissing then [n] else [] := by
  unfold note
  split <;> simp

theorem collectMissing_of_inl {found : List Node} {c d : Cursor}
    (h : c.advance Node.isDamaged = .inl d) :
    collectMissing found c = ((note found c.node).reverse, d) := by
  rw [collectMissing.eq_def]
  split <;> simp_all

theorem collectMissing_of_inr {found : List Node} {c d : Cursor}
    (h : c.advance Node.isDamaged = .inr d) :
    collectMissing found c = collectMissing (note found c.node) d := by
  rw [collectMissing.eq_def]
  split <;> simp_all

/-- A search finds the missing tokens of all nodes that are left, one after the other, and ends at
the top. -/
theorem collectMissing_eq (found : List Node) (c : Cursor) (h : c.home.later = []) :
    collectMissing found c =
      (found.reverse ++ (c.node :: c.rest).flatMap missingIn, c.home) := by
  have hleft : (c.node :: c.rest).flatMap missingIn =
      (if c.node.isMissing then [c.node] else []) ++
        ((if c.node.isDamaged then c.node.children else []) ++ c.rest).flatMap missingIn := by
    rw [List.flatMap_cons, missingIn_unfold, List.flatMap_append, List.append_assoc]
    by_cases hd : c.node.isDamaged <;> simp [hd]
  rcases c.advance_cases Node.isDamaged with ⟨hend, hrest⟩ | ⟨d, hd, hrest, hhome⟩
  · rw [collectMissing_of_inl hend, reverse_note, hleft, hrest, List.flatMap_nil,
      List.append_nil]
  · have := Cursor.length_left_lt hd
    rw [collectMissing_of_inr hd, collectMissing_eq _ d (by rw [hhome h, h]), hhome h,
      reverse_note, hleft, hrest, List.append_assoc]
termination_by c.left.length

theorem collectMissing_ofRoot (root : Node) :
    collectMissing [] (.ofRoot root) = (missingIn root, .ofRoot root) := by
  rw [collectMissing_eq [] (.ofRoot root) rfl]
  simp [Cursor.ofRoot, Cursor.rest, Cursor.home, Cursor.home.top]

theorem damage_eq (root : Node) :
    damage root = root.nodes.filter Node.isError ++ missingIn root := by
  rw [damage, collectMissing_ofRoot]

end Issue

end CalcTree
