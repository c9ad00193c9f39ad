import CalcTree.Tree.Basic

/-!
# Measured trees

The parser asks for the measure of the same tree again and again: where it ends, what it costs, how
much it shows. A measured tree has its measure with it. The measure of a tree follows from those of
its children, so building a tree from measured parts takes no look inside the parts.
-/

namespace CalcTree

structure Measure where
  pad : Extent
  size : Extent
  cost : Nat
  leafCount : Nat
  shown : Nat
  shownBelow : Nat
deriving DecidableEq, Repr

def Tree.measure (t : Tree) : Measure :=
  ⟨t.pad, t.size, t.cost, t.leafCount, t.shown, t.shownBelow⟩

structure Measured where
  tree : Tree
  measure : Measure
  measure_eq : measure = tree.measure

namespace Measured

def ofTree (t : Tree) : Measured :=
  ⟨t, t.measure, rfl⟩

instance : Inhabited Measured := ⟨ofTree default⟩

def pad (m : Measured) : Extent :=
  m.measure.pad

def size (m : Measured) : Extent :=
  m.measure.size

def reach (m : Measured) : Extent :=
  m.pad + m.size

def cost (m : Measured) : Nat :=
  m.measure.cost

def leafCount (m : Measured) : Nat :=
  m.measure.leafCount

def shown (m : Measured) : Nat :=
  m.measure.shown

def shownBelow (m : Measured) : Nat :=
  m.measure.shownBelow

@[simp]
theorem pad_eq (m : Measured) : m.pad = m.tree.pad := by
  rw [pad, m.measure_eq, Tree.measure]

@[simp]
theorem size_eq (m : Measured) : m.size = m.tree.size := by
  rw [size, m.measure_eq, Tree.measure]

@[simp]
theorem reach_eq (m : Measured) : m.reach = m.tree.reach := by
  rw [reach, pad_eq, size_eq, Tree.reach]

@[simp]
theorem cost_eq (m : Measured) : m.cost = m.tree.cost := by
  rw [cost, m.measure_eq, Tree.measure]

@[simp]
theorem leafCount_eq (m : Measured) : m.leafCount = m.tree.leafCount := by
  rw [leafCount, m.measure_eq, Tree.measure]

@[simp]
theorem shown_eq (m : Measured) : m.shown = m.tree.shown := by
  rw [shown, m.measure_eq, Tree.measure]

@[simp]
theorem shownBelow_eq (m : Measured) : m.shownBelow = m.tree.shownBelow := by
  rw [shownBelow, m.measure_eq, Tree.measure]

def kind (m : Measured) : Kind :=
  m.tree.kind

def isVisible (m : Measured) : Bool :=
  m.tree.isVisible

def isExtra (m : Measured) : Bool :=
  m.tree.isExtra

/-! ## Trees from parts -/

def trees (ms : List Measured) : List Tree :=
  ms.map tree

theorem trees_cons (m : Measured) (ms : List Measured) : trees (m :: ms) = m.tree :: trees ms :=
  rfl

def padAll : List Measured → Extent
  | [] => 0
  | m :: _ => m.pad

def reachAll : List Measured → Extent
  | [] => 0
  | m :: ms => m.pad + m.size + reachAll ms

def sizeAll : List Measured → Extent
  | [] => 0
  | m :: ms => m.size + reachAll ms

def costAll : List Measured → Nat
  | [] => 0
  | m :: ms => (if m.kind = .skipped then 0 else m.cost) + costAll ms

def leafCountAll : List Measured → Nat
  | [] => 0
  | m :: ms => m.leafCount + leafCountAll ms

def shownAll : List Measured → Nat
  | [] => 0
  | m :: ms => (if m.isVisible then 1 else m.shown) + shownAll ms

def shownBelowAll : List Measured → Nat
  | [] => 0
  | m :: ms => (if m.isVisible then 1 else 0) + m.shownBelow + shownBelowAll ms

/-- What a part of an error node adds for being there. -/
def discarded (m : Measured) : Nat :=
  if m.isExtra || (m.kind = .error && m.tree.children.isEmpty) then 0
  else if m.isVisible then Cost.perTree
  else Cost.perTree * m.shown

def discardedAll : List Measured → Nat
  | [] => 0
  | m :: ms => m.discarded + discardedAll ms

theorem padAll_eq (ms : List Measured) : padAll ms = Tree.padAll (trees ms) := by
  cases ms <;> simp [padAll, trees, Tree.padAll]

theorem reachAll_eq (ms : List Measured) : reachAll ms = Tree.reachAll (trees ms) := by
  induction ms with
  | nil => simp [reachAll, trees, Tree.reachAll]
  | cons m ms ih => simpa [reachAll, trees, Tree.reachAll] using congrArg _ ih

theorem sizeAll_eq (ms : List Measured) : sizeAll ms = Tree.sizeAll (trees ms) := by
  cases ms with
  | nil => simp [sizeAll, trees, Tree.sizeAll]
  | cons m ms => simpa [sizeAll, trees, Tree.sizeAll] using congrArg _ (reachAll_eq ms)

theorem costAll_eq (ms : List Measured) : costAll ms = Tree.costAll (trees ms) := by
  induction ms with
  | nil => simp [costAll, trees, Tree.costAll]
  | cons m ms ih => simpa [costAll, trees, Tree.costAll, kind] using ih

theorem leafCountAll_eq (ms : List Measured) : leafCountAll ms = Tree.leafCountAll (trees ms) := by
  induction ms with
  | nil => simp [leafCountAll, trees, Tree.leafCountAll]
  | cons m ms ih => simpa [leafCountAll, trees, Tree.leafCountAll] using ih

theorem shownAll_eq (ms : List Measured) : shownAll ms = Tree.shownAll (trees ms) := by
  induction ms with
  | nil => simp [shownAll, trees, Tree.shownAll]
  | cons m ms ih => simpa [shownAll, trees, Tree.shownAll, isVisible] using ih

theorem shownBelowAll_eq (ms : List Measured) :
    shownBelowAll ms = Tree.shownBelowAll (trees ms) := by
  induction ms with
  | nil => simp [shownBelowAll, trees, Tree.shownBelowAll]
  | cons m ms ih =>
    rw [trees_cons, shownBelowAll, Tree.shownBelowAll, shownBelow_eq, ih]
    rfl

theorem discarded_eq (m : Measured) : m.discarded = m.tree.discarded := by
  rw [discarded, shown_eq]
  rfl

theorem discardedAll_eq (ms : List Measured) :
    discardedAll ms = Tree.discardedAll (trees ms) := by
  induction ms with
  | nil => simp [discardedAll, trees, Tree.discardedAll]
  | cons m ms ih => rw [trees_cons, discardedAll, Tree.discardedAll, discarded_eq, ih]

def node (p : Production) (ms : List Measured) : Measured where
  tree := .node p (trees ms)
  measure :=
    ⟨padAll ms, sizeAll ms, costAll ms, leafCountAll ms, shownAll ms, shownBelowAll ms⟩
  measure_eq := by
    simp only [Tree.measure, Tree.pad, Tree.size, Tree.cost, Tree.leafCount, Tree.shown,
      Tree.shownBelow, padAll_eq, sizeAll_eq, costAll_eq, leafCountAll_eq, shownAll_eq,
      shownBelowAll_eq]

/-- The measure of text that was thrown out, part by part. -/
def lossMeasure (ms : List Measured) : Measure :=
  let size := sizeAll ms
  ⟨padAll ms, size,
    costAll ms + discardedAll ms + Cost.recovery + Cost.ofExtent size,
    leafCountAll ms, shownAll ms, shownBelowAll ms⟩

def error (extra : Bool) (ms : List Measured) : Measured where
  tree := .error extra (trees ms)
  measure := lossMeasure ms
  measure_eq := by
    simp only [lossMeasure, Tree.measure, Tree.pad, Tree.size, Tree.cost, Tree.leafCount,
      Tree.shown, Tree.shownBelow, padAll_eq, sizeAll_eq, costAll_eq, leafCountAll_eq, shownAll_eq,
      shownBelowAll_eq, discardedAll_eq]

def skipped (ms : List Measured) : Measured where
  tree := .skipped (trees ms)
  measure := lossMeasure ms
  measure_eq := by
    simp only [lossMeasure, Tree.measure, Tree.pad, Tree.size, Tree.cost, Tree.leafCount,
      Tree.shown, Tree.shownBelow, padAll_eq, sizeAll_eq, costAll_eq, leafCountAll_eq, shownAll_eq,
      shownBelowAll_eq, discardedAll_eq]

/-! ## Comparisons -/

/-- The weight of a tree in comparisons of progress; passed-over input counts as a node. -/
def weight (m : Measured) : Nat :=
  m.shownBelow + (if m.isVisible then 1 else 0) + (if m.kind = .skipped then 1 else 0)

/-- Whether a new tree for the same construct takes the place of an old one: a cheaper tree does,
of two equally damaged trees the new one, of two sound trees the one that compares less. -/
def yieldsTo (old new : Measured) : Bool :=
  if new.cost ≠ old.cost then new.cost < old.cost
  else if 0 < old.cost then true
  else new.tree.compareShape old.tree == .lt

/-- Whether two trees in the same place count as one: same kind, and both damaged or of the same
outline. -/
def alike (a b : Measured) : Bool :=
  a.kind == b.kind &&
    ((0 < a.cost && 0 < b.cost) ||
      (a.pad.bytes == b.pad.bytes && a.size.bytes == b.size.bytes &&
        a.tree.children.length == b.tree.children.length && a.isExtra == b.isExtra))

/-! ## Rows of trees -/

/-- Parts that are extra at the end of a construct move out of it. -/
def splitExtras (ms : List Measured) : List Measured × List Measured :=
  ((ms.reverse.dropWhile isExtra).reverse, (ms.reverse.takeWhile isExtra).reverse)

/-- The root of a finished parse: the last tree that is not extra takes in all that surrounds
it. -/
def root? (ms : List Measured) : Option Measured :=
  let (kept, extras) := splitExtras ms
  match kept.getLast?.map tree with
  | some (.node p cs) => some (node p (kept.dropLast ++ cs.map ofTree ++ extras))
  | some (.error _ cs) => some (error false (kept.dropLast ++ cs.map ofTree ++ extras))
  | _ => none

end Measured

end CalcTree
