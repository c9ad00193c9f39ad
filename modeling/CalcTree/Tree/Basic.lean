import CalcTree.Grammar.Production
import CalcTree.Kind
import CalcTree.Lexeme

/-!
# Trees

What the parser builds. A tree holds every lexeme of the source it covers, in order, and so also
every blank: a leaf brings its own, and the padding of an inner node is that of its first child.
Where the source is damaged a tree has leaves for tokens that should have been there, which take
no room, and error nodes around the text that does not fit.

The cost of a tree grows with the damage in it. A parser that has to choose takes the cheaper
tree.
-/

namespace CalcTree

inductive Tree where
  | leaf (l : Lexeme)
  /-- A token that the source lacks. -/
  | missing (t : Terminal)
  /-- The end of the source, with the blanks before it. -/
  | finish (blank : List Char)
  | node (p : Production) (children : List Tree)
  /-- Parts that form no construct. An extra one stands between the parts of another construct. -/
  | error (extra : Bool) (children : List Tree)
  /-- Input that was passed over in search of a place to go on. -/
  | skipped (children : List Tree)
deriving Repr

namespace Tree

instance : Inhabited Tree := ⟨.skipped []⟩

def children : Tree → List Tree
  | leaf _ | missing _ | finish _ => []
  | node _ cs | error _ cs | skipped cs => cs

def kind : Tree → Kind
  | leaf l =>
    match l.kind with
    | .token t => .terminal t
    | .unknown => .error
  | missing t => .terminal t
  | finish _ => .finish
  | node p _ => .nonterminal p.lhs
  | error _ _ => .error
  | skipped _ => .skipped

def isVisible (t : Tree) : Bool :=
  t.kind.isVisible

/-- Extra trees stand between the parts of a construct and are none themselves. -/
def isExtra : Tree → Bool
  | leaf l => l.kind == .token .comment
  | finish _ => true
  | error extra _ => extra
  | _ => false

mutual

/-- The lexemes of a tree, from left to right. -/
def leaves : Tree → List Lexeme
  | leaf l => [l]
  | missing _ | finish _ => []
  | node _ cs | error _ cs | skipped cs => leavesAll cs

def leavesAll : List Tree → List Lexeme
  | [] => []
  | c :: cs => leaves c ++ leavesAll cs

end

mutual

/-- The number of lexemes of a tree. -/
def leafCount : Tree → Nat
  | leaf _ => 1
  | missing _ | finish _ => 0
  | node _ cs | error _ cs | skipped cs => leafCountAll cs

def leafCountAll : List Tree → Nat
  | [] => 0
  | c :: cs => leafCount c + leafCountAll cs

end

mutual

theorem leafCount_eq : ∀ t : Tree, t.leafCount = t.leaves.length
  | leaf _ => rfl
  | missing _ | finish _ => rfl
  | node _ cs | error _ cs | skipped cs => leafCountAll_eq cs

theorem leafCountAll_eq : ∀ ts : List Tree, leafCountAll ts = (leavesAll ts).length
  | [] => rfl
  | t :: ts => by
    rw [leafCountAll, leavesAll, List.length_append, leafCount_eq t, leafCountAll_eq ts]

end

mutual

/-- The blanks in front of a tree. -/
def pad : Tree → Extent
  | leaf l => l.pad
  | missing _ => 0
  | finish blank => .ofChars blank
  | node _ cs | error _ cs | skipped cs => padAll cs

def padAll : List Tree → Extent
  | [] => 0
  | c :: _ => pad c

end

mutual

/-- The room a tree takes after the blanks in front of it. -/
def size : Tree → Extent
  | leaf l => l.size
  | missing _ | finish _ => 0
  | node _ cs | error _ cs | skipped cs => sizeAll cs

def sizeAll : List Tree → Extent
  | [] => 0
  | c :: cs => size c + reachAll cs

/-- The room that trees take in a row, all blanks included. -/
def reachAll : List Tree → Extent
  | [] => 0
  | c :: cs => pad c + size c + reachAll cs

end

theorem reachAll_eq (ts : List Tree) : padAll ts + sizeAll ts = reachAll ts := by
  cases ts with
  | nil => simp [padAll, sizeAll, reachAll]
  | cons t ts => rw [padAll, sizeAll, reachAll, Extent.add_assoc']

def reach (t : Tree) : Extent :=
  t.pad + t.size

mutual

/-- How many nodes are shown directly below a tree: hidden ones hand theirs up. -/
def shown : Tree → Nat
  | leaf _ | missing _ | finish _ => 0
  | node _ cs | error _ cs | skipped cs => shownAll cs

def shownAll : List Tree → Nat
  | [] => 0
  | c :: cs => (if c.isVisible then 1 else shown c) + shownAll cs

end

mutual

/-- How many nodes are shown anywhere below a tree. -/
def shownBelow : Tree → Nat
  | leaf _ | missing _ | finish _ => 0
  | node _ cs | error _ cs | skipped cs => shownBelowAll cs

def shownBelowAll : List Tree → Nat
  | [] => 0
  | c :: cs => (if c.isVisible then 1 else 0) + shownBelow c + shownBelowAll cs

end

end Tree

/-! What damage costs. -/

namespace Cost

/-- To give up on the state the parser is in. -/
def recovery : Nat := 500

/-- To make up a token, on top of `recovery`. -/
def missing : Nat := 110

/-- For each node that is thrown out. -/
def perTree : Nat := 100

def perLine : Nat := 30

def perByte : Nat := 1

/-- For a stretch of text that is thrown out. -/
def ofExtent (e : Extent) : Nat :=
  e.bytes * perByte + e.rows * perLine

end Cost

namespace Tree

/-- What a child of an error node adds for being there: nothing if it would be no part of a
construct anyway, else a charge for each node it shows. -/
def discarded (c : Tree) : Nat :=
  if c.isExtra || (c.kind = .error && c.children.isEmpty) then 0
  else if c.isVisible then Cost.perTree
  else Cost.perTree * c.shown

def discardedAll : List Tree → Nat
  | [] => 0
  | c :: cs => discarded c + discardedAll cs

mutual

def cost : Tree → Nat
  | leaf _ | finish _ => 0
  | missing _ => Cost.recovery + Cost.missing
  | node _ cs => costAll cs
  | error _ cs | skipped cs =>
    costAll cs + discardedAll cs + Cost.recovery + Cost.ofExtent (sizeAll cs)

/-- The cost that children bring with them. What passed-over input cost when it was passed over
is charged again by the node around it, and so does not count. -/
def costAll : List Tree → Nat
  | [] => 0
  | c :: cs => (if c.kind = .skipped then 0 else cost c) + costAll cs

end

mutual

/-- Whether there is damage in a tree that costs. -/
def isDamaged : Tree → Bool
  | leaf _ | finish _ => false
  | missing _ | error _ _ | skipped _ => true
  | node _ cs => anyDamaged cs

def anyDamaged : List Tree → Bool
  | [] => false
  | c :: cs => (c.kind != .skipped && isDamaged c) || anyDamaged cs

end

mutual

theorem isDamaged_iff : ∀ t : Tree, t.isDamaged = true ↔ 0 < t.cost
  | leaf _ | finish _ => by simp [isDamaged, cost]
  | missing _ => by simp [isDamaged, cost, Cost.recovery, Cost.missing]
  | error _ _ | skipped _ => by
    simp only [isDamaged, cost, Cost.recovery, true_iff]
    omega
  | node _ cs => by rw [isDamaged, cost, anyDamaged_iff cs]

theorem anyDamaged_iff : ∀ ts : List Tree, anyDamaged ts = true ↔ 0 < costAll ts
  | [] => by simp [anyDamaged, costAll]
  | t :: ts => by
    rw [anyDamaged, costAll, Bool.or_eq_true, Bool.and_eq_true, isDamaged_iff t,
      anyDamaged_iff ts, bne_iff_ne]
    by_cases h : t.kind = .skipped
    · simp [h]
    · rw [if_neg h]
      simp only [ne_eq, h, not_false_eq_true, true_and]
      omega

end

def compareRoot (a b : Tree) : Ordering :=
  (compare a.kind.id b.kind.id).then (compare a.children.length b.children.length)

mutual

/-- Compares two trees by kind and number of children, in pre-order, at the first difference. -/
def compareShape : Tree → Tree → Ordering
  | a@(leaf _), b | a@(missing _), b | a@(finish _), b => compareRoot a b
  | a@(node _ cs), b | a@(error _ cs), b | a@(skipped cs), b =>
    (compareRoot a b).then (compareShapes cs b.children)

def compareShapes : List Tree → List Tree → Ordering
  | a :: as, b :: bs => (compareShape a b).then (compareShapes as bs)
  | _, _ => .eq

end

end Tree

end CalcTree
