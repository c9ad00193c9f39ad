import CalcTree.Proofs.Layout

/-!
# Shapes

What is shown of a source, without places and comments: kinds, fields and nesting. The shape of a
tree without damage follows from the derivation that it stands for (`Whole.standsFor`).
-/

namespace CalcTree

/-- A node with its field and the nodes below it. -/
inductive Shape where
  | mk (kind : Kind) (field : Option Field) (parts : List Shape)
deriving Repr

namespace Node

mutual

/-- The shape of a node; comments below it are left out. -/
def shape : Node → Shape
  | { kind := kind, field := field, children := cs, .. } => .mk kind field (shapeAll cs)

def shapeAll : List Node → List Shape
  | [] => []
  | n :: ns => if n.kind = .terminal .comment then shapeAll ns else shape n :: shapeAll ns

end

theorem shape_eq (n : Node) : n.shape = .mk n.kind n.field (shapeAll n.children) := by
  cases n
  rfl

theorem shapeAll_append (ns ms : List Node) :
    shapeAll (ns ++ ms) = shapeAll ns ++ shapeAll ms := by
  induction ns with
  | nil => rfl
  | cons n ns ih =>
    rw [List.cons_append, shapeAll, shapeAll, ih]
    split_ifs <;> rfl

end Node

namespace Derivation

mutual

/-- What is shown of a derivation: a hidden construct shows its parts, which take its field if
they have none. -/
def shapes (field : Option Field) : Derivation → List Shape
  | token t => [.mk (.terminal t) field []]
  | node p ds =>
    if p.lhs.isVisible then [.mk (.nonterminal p.lhs) field (shapesAll p.fieldAt none 0 ds)]
    else shapesAll p.fieldAt field 0 ds

/-- What is shown of parts in a row, of which `i` is the number of the first. -/
def shapesAll (roles : Nat → Option Field) (inherited : Option Field) :
    Nat → List Derivation → List Shape
  | _, [] => []
  | i, d :: ds => shapes ((roles i).or inherited) d ++ shapesAll roles inherited (i + 1) ds

end

end Derivation

namespace Tree

open Node (display shapeAll layoutAll)

/-- A tree that shows what the derivation shows that it stands for. An extra one shows nothing. -/
inductive Faithful (t : Tree) : Prop
  | extra (he : t.isExtra) (hb : t.bare = [])
      (hs : ∀ place field, shapeAll (display place field t) = [])
  | part (d : Derivation) (he : t.isExtra = false) (hb : t.bare = [d])
      (hs : ∀ place field, shapeAll (display place field t) = d.shapes field)

theorem shapeAll_layoutAll (roles : Nat → Option Field) (inherited : Option Field) :
    ∀ (cs : List Tree) (i : Nat) (place : Extent), (∀ c ∈ cs, c.Faithful) →
      shapeAll (layoutAll roles inherited i place cs).1 =
        Derivation.shapesAll roles inherited i (bareAll cs)
  | [], i, place, _ => by simp [Node.layoutAll_nil, shapeAll, bareAll, Derivation.shapesAll]
  | c :: cs, i, place, h => by
    have ih := fun i place => shapeAll_layoutAll roles inherited cs i place
      fun c hc => h c (by simp [hc])
    rw [Node.layoutAll_cons, Node.shapeAll_append, ih, bareAll]
    cases h c (by simp) with
    | extra he hb hs => simp [he, hb, hs]
    | part d he hb hs => simp [he, hb, hs, Node.fieldOf, Derivation.shapesAll]

theorem IsComment.faithful {t : Tree} (h : t.IsComment) : t.Faithful := by
  refine .extra h.isExtra h.bare fun place field => ?_
  obtain ⟨l, rfl, hl⟩ := h
  simp [display, isVisible, kind, hl, Kind.isVisible, Node.ofTree, shapeAll]

theorem faithful_finish (blank : List Char) : (Tree.finish blank).Faithful :=
  .extra rfl rfl fun place field => by rw [Node.display_finish, shapeAll]

theorem faithful_of_mem {p : Production} {cs : List Tree}
    (hp : (parts cs).map symbol? = p.rhs.map some) (hcs : ∀ c ∈ cs, c.Built)
    (hd : anyDamaged cs = false)
    (h : ∀ c ∈ cs, ∀ {X : Symbol}, c.isDamaged = false → c.isExtra = false →
      c.symbol? = some X → c.Faithful) : ∀ c ∈ cs, c.Faithful := by
  intro c hc
  have hdc := isDamaged_of_mem hp hd hc
  rcases he : c.isExtra with _ | _
  · obtain ⟨X, -, hX⟩ := symbol?_mem_rhs hp hc he
    exact h c hc hdc he hX
  · exact ((hcs c hc).comment_of_isExtra hdc he).faithful

theorem Built.faithful {t : Tree} {X : Symbol} (h : t.Built) (hd : t.isDamaged = false)
    (he : t.isExtra = false) (hX : t.symbol? = some X) : t.Faithful := by
  induction h generalizing X with
  | leaf l =>
    rcases hk : l.kind with a | _ <;> simp only [symbol?, isExtra, hk, reduceCtorEq] at hX he
    have ha : a ≠ .comment := by simpa using he
    refine .part (.token a) (by simp [isExtra, hk, ha])
      (by simp [bare, Lexeme.terminal?, hk, Terminal.isExtra, ha]) fun place field => ?_
    simp [display, isVisible, kind, hk, Kind.isVisible, Node.ofTree, shapeAll, ha, Node.shape,
      Node.under, children, Node.layoutAll_nil, Derivation.shapes]
  | missing | error | skipped => simp [isDamaged] at hd
  | node p cs hp hcs ih =>
    have hall := faithful_of_mem hp hcs hd fun c hc => ih c hc
    refine .part (.node p (bareAll cs)) rfl rfl fun place field => ?_
    have hunder : ∀ inherited, shapeAll (Node.under place inherited (.node p cs)) =
        Derivation.shapesAll p.fieldAt inherited 0 (bareAll cs) :=
      fun inherited => shapeAll_layoutAll _ _ cs 0 place hall
    rcases hv : p.lhs.isVisible with _ | _
    · simp [display, isVisible, kind, Kind.isVisible, hv, hunder, Derivation.shapes]
    · simp [display, isVisible, kind, Kind.isVisible, hv, hunder, Derivation.shapes, shapeAll,
        Node.shape_eq, Node.ofTree]

/-! ## Whole trees -/

/-- A whole tree without damage stands for a derivation of its source, and shows what the
derivation shows. -/
theorem Whole.standsFor {input : Scan} {t : Tree} (h : t.Whole input) (hd : t.isDamaged = false) :
    ∃ d : Derivation, t.bare = [d] ∧ d.Valid ∧ d.symbol = .nonterminal .sourceFile ∧
      d.yield = Lexeme.terminals input.lexemes ∧ Lexeme.Known input.lexemes ∧
      d.shapes none = [(Node.root t).shape] := by
  cases h with
  | lost => simp [isDamaged] at hd
  | file p cs hp hb hl =>
    cases hb with
    | node _ _ hparts hcs =>
    have hsound : anyDamaged cs = false := by
      rw [isDamaged, anyDamaged_append, Bool.or_eq_false_iff] at hd
      exact hd.1
    obtain ⟨d, hbare, hv, hs, hy, hk⟩ := (Built.node p cs hparts hcs).standsFor hsound rfl
      (X := .nonterminal .sourceFile) (by rw [symbol?, hp])
    obtain rfl : .node p (bareAll cs) = d := by simpa [bare] using hbare
    have hbareAll : bareAll (cs ++ [.finish input.trailing]) = bareAll cs := by
      rw [bareAll_append]
      simp [bareAll, bare]
    rw [leaves, hl] at hy hk
    refine ⟨_, by rw [bare, hbareAll], hv, hs, hy, hk, ?_⟩
    have hall : ∀ c ∈ cs ++ [.finish input.trailing], c.Faithful := by
      intro c hc
      rcases List.mem_append.1 hc with hc | hc
      · exact faithful_of_mem hparts hcs hsound (fun c hc => (hcs c hc).faithful) c hc
      · rw [List.mem_singleton.1 hc]
        exact faithful_finish _
    have hshape := shapeAll_layoutAll p.fieldAt none _ 0 0 hall
    rw [hbareAll] at hshape
    rw [Derivation.shapes, hp, Node.shape_eq, Node.root_eq, ← hshape]
    simp [Nonterminal.isVisible, Node.ofTree, kind, hp, Node.under, roles, children]

end Tree

end CalcTree
