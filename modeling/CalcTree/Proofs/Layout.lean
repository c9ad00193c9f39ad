import CalcTree.Node.Basic
import CalcTree.Proofs.Built

/-!
# What a tree shows

The nodes that a tree shows, one tree at a time: a visible tree shows itself, a hidden one what is
shown below it (`display`). Parts that are laid out show theirs one after the other
(`layoutAll_cons`, `layoutAll_append`).

A well built tree shows at least one node, unless it is a whole file (`Built.display_ne_nil`).
-/

namespace CalcTree

namespace Tree

/-- The roles of a tree's children. -/
def roles : Tree → Nat → Option Field
  | node p _ => p.fieldAt
  | _ => fun _ => none

end Tree

namespace Node

/-- The nodes shown directly below a tree that is laid out at a place. -/
def under (place : Extent) (inherited : Option Field) (t : Tree) : List Node :=
  (layoutAll t.roles inherited 0 place t.children).1

theorem layout_fst (place : Extent) (inherited : Option Field) (t : Tree) :
    (layout place inherited t).1 = under place inherited t := by
  cases t <;> rfl

/-- The nodes that a tree shows. -/
def display (place : Extent) (field : Option Field) (t : Tree) : List Node :=
  if t.isVisible then [ofTree t place (place + t.reach) field (under place none t)]
  else under place field t

theorem layoutAll_nil (roles : Nat → Option Field) (inherited : Option Field) (i : Nat)
    (place : Extent) : (layoutAll roles inherited i place []).1 = [] :=
  rfl

/-- The role of a child, if it is a part. -/
def fieldOf (roles : Nat → Option Field) (inherited : Option Field) (i : Nat) (t : Tree) :
    Option Field :=
  if t.isExtra then none else (roles i).or inherited

theorem layoutAll_cons (roles : Nat → Option Field) (inherited : Option Field) (i : Nat)
    (place : Extent) (c : Tree) (cs : List Tree) :
    (layoutAll roles inherited i place (c :: cs)).1 =
      display place (fieldOf roles inherited i c) c ++
        (layoutAll roles inherited (if c.isExtra then i else i + 1) (place + c.reach) cs).1 := by
  simp only [layoutAll, layout_stop, layout_fst, display, fieldOf]
  cases c.isVisible <;> rfl

theorem layoutAll_append (roles : Nat → Option Field) (inherited : Option Field) :
    ∀ (cs ds : List Tree) (i : Nat) (place : Extent),
      (layoutAll roles inherited i place (cs ++ ds)).1 =
        (layoutAll roles inherited i place cs).1 ++
          (layoutAll roles inherited (i + (Tree.parts cs).length) (place + Tree.reachAll cs) ds).1
  | [], ds, i, place => by simp [layoutAll_nil, Tree.parts, Tree.reachAll]
  | c :: cs, ds, i, place => by
    rw [List.cons_append, layoutAll_cons, layoutAll_cons, layoutAll_append, List.append_assoc,
      Tree.reachAll, Extent.add_assoc', Tree.reach]
    cases he : c.isExtra <;> simp [Tree.parts, he, Nat.add_assoc, Nat.add_comm 1]

theorem display_finish (place : Extent) (field : Option Field) (blank : List Char) :
    display place field (.finish blank) = [] :=
  rfl

theorem root_eq (t : Tree) : root t = ofTree t 0 (0 + t.reach) none (under 0 none t) := by
  simp only [root, layout_stop, layout_fst]

theorem layoutAll_ne_nil {roles : Nat → Option Field} {inherited : Option Field} {i : Nat}
    {place : Extent} {cs : List Tree} (hne : cs ≠ [])
    (h : ∀ c ∈ cs, ∀ place field, display place field c ≠ []) :
    (layoutAll roles inherited i place cs).1 ≠ [] := by
  rcases cs with _ | ⟨c, cs⟩
  · exact absurd rfl hne
  · rw [layoutAll_cons]
    intro hnil
    exact h c (by simp) _ _ (List.append_eq_nil_iff.1 hnil).1

end Node

namespace Tree

theorem rhs_ne_nil {p : Production} (h : p.lhs ≠ .sourceFile) : p.rhs ≠ [] := by
  revert h
  cases p <;> decide

/-- Only an empty file has no children. -/
theorem children_ne_nil {p : Production} {cs : List Tree}
    (hp : (parts cs).map symbol? = p.rhs.map some) (h : p.lhs ≠ .sourceFile) : cs ≠ [] := by
  rintro rfl
  exact rhs_ne_nil h (by simpa [parts] using hp.symm)

theorem Built.display_ne_nil {t : Tree} (h : t.Built) (hf : ¬ t.IsFile) :
    ∀ place field, Node.display place field t ≠ [] := by
  induction h with
  | leaf l =>
    have hv : (Tree.leaf l).isVisible = true := by
      rcases hk : l.kind <;> simp [isVisible, kind, hk, Kind.isVisible]
    simp [Node.display, hv]
  | missing t ht => simp [Node.display, isVisible, kind, Kind.isVisible]
  | node p cs hp hcs ih =>
    have hfile : p.lhs ≠ .sourceFile := by simpa [IsFile, symbol?] using hf
    intro place field
    unfold Node.display
    split_ifs
    · simp
    · exact Node.layoutAll_ne_nil (children_ne_nil hp hfile)
        fun c hc => ih c hc (not_isFile_of_mem hp hc)
  | error cs hne hcs hfile ih => simp [Node.display, isVisible, kind, Kind.isVisible]
  | skipped cs hne hcs hfile ih =>
    intro place field
    exact Node.layoutAll_ne_nil hne fun c hc => ih c hc (hfile c hc)

end Tree

end CalcTree
