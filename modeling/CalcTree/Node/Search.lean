import CalcTree.Node.Cursor

/-!
# Searches

A search takes a cursor through a tree as a walk does, but goes down into some nodes only and does
not count. Where it does not go down it goes up until there is a next sibling; it is over where it
can go up no further, and the cursor is left there.

A step takes one node off those whose trees have yet to be searched, and may put its children in
place of it (`advance_cases`). So a search comes to an end, and then the cursor is back at the root.
-/

namespace CalcTree

namespace Cursor

variable {c d : Cursor} {enter : Node → Bool}

theorem length_above_lt (h : c.parent? = some d) : d.above.length < c.above.length := by
  obtain ⟨n, later, _ | ⟨⟨m, ms⟩, above⟩⟩ := c <;> cases h
  exact Nat.lt_succ_self _

/-- Goes up until there is a next sibling: to that sibling on the right, or else, on the left, to
where there is nothing above. -/
def rise (c : Cursor) : Cursor ⊕ Cursor :=
  match c.nextSibling? with
  | some d => .inr d
  | none =>
    match h : c.parent? with
    | some d =>
      have := length_above_lt h
      rise d
    | none => .inl c
termination_by c.above.length

/-- A step of a search that goes down into some nodes only. -/
def advance (enter : Node → Bool) (c : Cursor) : Cursor ⊕ Cursor :=
  match if enter c.node then c.firstChild? else none with
  | some d => .inr d
  | none => c.rise

/-! ## What is left of a search -/

/-- The nodes after that of a cursor and the nodes above it whose trees have yet to be searched. -/
def rest (c : Cursor) : List Node :=
  c.later ++ c.above.flatMap (·.2)

/-- The cursor at the top of the tree. -/
def home : Cursor → Cursor
  | ⟨n, later, above⟩ => top n later above
where
  top : Node → List Node → List (Node × List Node) → Cursor
    | n, later, [] => ⟨n, later, []⟩
    | _, _, (m, ms) :: above => top m ms above

theorem home_cons (n m : Node) (later ms : List Node) (above : List (Node × List Node)) :
    home ⟨n, later, (m, ms) :: above⟩ = home ⟨m, ms, above⟩ :=
  rfl

theorem home_of_above {above : List (Node × List Node)} (h : above ≠ []) (n m : Node)
    (later ms : List Node) : home ⟨n, later, above⟩ = home ⟨m, ms, above⟩ := by
  rcases above with _ | ⟨p, above⟩
  · exact absurd rfl h
  · rfl

theorem rise_of_later (n m : Node) (ms : List Node) (above : List (Node × List Node)) :
    rise ⟨n, m :: ms, above⟩ = .inr ⟨m, ms, above⟩ := by
  rw [rise.eq_def]
  rfl

theorem rise_of_above (n m : Node) (ms : List Node) (above : List (Node × List Node)) :
    rise ⟨n, [], (m, ms) :: above⟩ = rise ⟨m, ms, above⟩ := by
  rw [rise.eq_def]
  rfl

/-- What can come of going up: the search is over only if nothing is left, and then the cursor is
at the top. -/
theorem rise_cases : ∀ (above : List (Node × List Node)) (n : Node) (later : List Node),
    (rise ⟨n, later, above⟩ = .inl (home ⟨n, later, above⟩) ∧ rest ⟨n, later, above⟩ = []) ∨
    ∃ d, rise ⟨n, later, above⟩ = .inr d ∧ rest ⟨n, later, above⟩ = d.node :: d.rest ∧
      ((home ⟨n, later, above⟩).later = [] → d.home = home ⟨n, later, above⟩)
  | above, n, m :: ms => by
    refine .inr ⟨⟨m, ms, above⟩, rise_of_later n m ms above, rfl, fun h => ?_⟩
    have habove : above ≠ [] := by
      rintro rfl
      cases h
    exact home_of_above habove ..
  | [], n, [] => by
    refine .inl ⟨?_, rfl⟩
    rw [rise.eq_def]
    rfl
  | (m, ms) :: above, n, [] => by
    rw [rise_of_above, home_cons]
    exact rise_cases above m ms

/-- What a step of a search can do. -/
theorem advance_cases (enter : Node → Bool) (c : Cursor) :
    (advance enter c = .inl c.home ∧
      (if enter c.node then c.node.children else []) ++ c.rest = []) ∨
    ∃ d, advance enter c = .inr d ∧
      (if enter c.node then c.node.children else []) ++ c.rest = d.node :: d.rest ∧
      (c.home.later = [] → d.home = c.home) := by
  obtain ⟨n, later, above⟩ := c
  by_cases he : enter n
  · rcases hn : n.children with _ | ⟨m, ms⟩
    · have hrise : advance enter ⟨n, later, above⟩ = rise ⟨n, later, above⟩ := by
        simp [advance, he, firstChild?, hn]
      simp only [hrise, he, if_true, List.nil_append]
      exact rise_cases above n later
    · refine .inr ⟨⟨m, ms, (n, later) :: above⟩, ?_, ?_, fun _ => home_cons ..⟩
      · simp [advance, he, firstChild?, hn]
      · simp [he, rest]
  · have hrise : advance enter ⟨n, later, above⟩ = rise ⟨n, later, above⟩ := by
      simp [advance, he]
    simp only [hrise, he]
    exact rise_cases above n later

/-- The nodes that have yet to be seen, if the search goes down everywhere. -/
def left (c : Cursor) : List Node :=
  (c.node :: c.rest).flatMap Node.nodes

theorem length_left_lt (h : advance enter c = .inr d) : d.left.length < c.left.length := by
  rcases advance_cases enter c with ⟨hend, -⟩ | ⟨d', hd, hrest, -⟩
  · rw [hend] at h
    cases h
  · obtain rfl := Sum.inr.inj (hd.symm.trans h)
    have hdown : ((if enter c.node then c.node.children else []).flatMap Node.nodes).length ≤
        (c.node.children.flatMap Node.nodes).length := by
      split
      · exact Nat.le_refl _
      · exact Nat.zero_le _
    rw [left, left, ← hrest, List.flatMap_cons, Node.nodes_eq, List.flatMap_append,
      List.length_append, List.cons_append, List.length_cons, List.length_append]
    omega

end Cursor

end CalcTree
