import CalcTree.Node.Basic

/-!
# Cursors

A place in a tree that can be moved: down to the first child, on to the next sibling, up to the
parent. A walk takes a cursor through a whole tree, parents before children, and counts on the way
how deep it is. It goes down where it can. Else it goes up until there is a next sibling, and is
over when it can go up no further.

With every step there is one node less that the walk has yet to see (`next_cases`). So it comes to
an end, and until then it is as deep as it counts (`walk_eq`).
-/

namespace CalcTree

/-- A node in its tree: with the siblings after it, and the nodes above it with the siblings after
these, the nearest first. -/
structure Cursor where
  node : Node
  later : List Node
  above : List (Node × List Node)

namespace Cursor

def ofRoot (n : Node) : Cursor :=
  ⟨n, [], []⟩

def firstChild? (c : Cursor) : Option Cursor :=
  match c.node.children with
  | [] => none
  | n :: ns => some ⟨n, ns, (c.node, c.later) :: c.above⟩

def nextSibling? (c : Cursor) : Option Cursor :=
  match c.later with
  | [] => none
  | n :: ns => some ⟨n, ns, c.above⟩

def parent? (c : Cursor) : Option Cursor :=
  match c.above with
  | [] => none
  | (n, ns) :: above => some ⟨n, ns, above⟩

/-- What comes after a node on a walk. -/
inductive Move where
  | visit (depth : Nat) (c : Cursor)
  | over
  /-- The depth would have to go below zero. -/
  | miscounted

/-- Goes up until there is a next sibling, and takes one off the depth each time. -/
def onward (depth : Nat) (c : Cursor) : Move :=
  match c.nextSibling? with
  | some d => .visit depth d
  | none =>
    match c.parent? with
    | none => .over
    | some d =>
      match depth with
      | 0 => .miscounted
      | depth + 1 => onward depth d

/-- A step of a walk. -/
def next (depth : Nat) (c : Cursor) : Move :=
  match c.firstChild? with
  | some d => .visit (depth + 1) d
  | none => onward depth c

/-! ## What is left of a walk -/

/-- The siblings after the nodes above a cursor, and all below them, each with its depth. -/
def laterAbove : List (Node × List Node) → List (Nat × Node)
  | [] => []
  | (_, ns) :: above => Node.entriesAll above.length ns ++ laterAbove above

/-- What comes after the node of a cursor and all below it. -/
def behind (c : Cursor) : List (Nat × Node) :=
  Node.entriesAll c.above.length c.later ++ laterAbove c.above

/-- What a walk has yet to see. -/
def todo (c : Cursor) : List (Nat × Node) :=
  c.node.entries c.above.length ++ c.behind

variable {c d : Cursor} {depth k : Nat}

theorem entries_eq (depth : Nat) (n : Node) :
    n.entries depth = (depth, n) :: Node.entriesAll (depth + 1) n.children := by
  cases n
  rw [Node.entries]

/-- What can come of going on: the walk is over only if nothing is left, and the depth is off by as
much as it was before, or too small from the start. -/
theorem onward_cases : ∀ (above : List (Node × List Node)) (depth : Nat) (n : Node)
    (later : List Node),
    (onward depth ⟨n, later, above⟩ = .miscounted ∧ depth < above.length) ∨
    (onward depth ⟨n, later, above⟩ = .over ∧ behind ⟨n, later, above⟩ = []) ∨
    ∃ k d, onward depth ⟨n, later, above⟩ = .visit k d ∧ behind ⟨n, later, above⟩ = d.todo ∧
      k + above.length = depth + d.above.length
  | above, depth, n, m :: ms => by
    refine .inr (.inr ⟨depth, ⟨m, ms, above⟩, ?_, ?_, rfl⟩)
    · rw [onward.eq_def]
      rfl
    · rw [behind, todo, Node.entriesAll, List.append_assoc]
      rfl
  | [], depth, n, [] => by
    refine .inr (.inl ⟨?_, rfl⟩)
    rw [onward.eq_def]
    rfl
  | (p, ps) :: above, 0, n, [] => by
    refine .inl ⟨?_, by simp⟩
    rw [onward.eq_def]
    rfl
  | (p, ps) :: above, depth + 1, n, [] => by
    have hup : onward (depth + 1) ⟨n, [], (p, ps) :: above⟩ = onward depth ⟨p, ps, above⟩ := by
      rw [onward.eq_def]
      rfl
    have hbehind : behind ⟨n, [], (p, ps) :: above⟩ = behind ⟨p, ps, above⟩ := rfl
    rw [hup, hbehind, List.length_cons]
    rcases onward_cases above depth p ps with ⟨h, hlt⟩ | h | ⟨k, d, h, htodo, hk⟩
    · exact .inl ⟨h, by omega⟩
    · exact .inr (.inl h)
    · exact .inr (.inr ⟨k, d, h, htodo, by omega⟩)

theorem next_cases (depth : Nat) (c : Cursor) :
    (next depth c = .miscounted ∧ depth < c.above.length) ∨
    (next depth c = .over ∧ c.todo = [(c.above.length, c.node)]) ∨
    ∃ k d, next depth c = .visit k d ∧ c.todo = (c.above.length, c.node) :: d.todo ∧
      k + c.above.length = depth + d.above.length := by
  obtain ⟨n, later, above⟩ := c
  rcases hn : n.children with _ | ⟨m, ms⟩
  · have hnext : next depth ⟨n, later, above⟩ = onward depth ⟨n, later, above⟩ := by
      simp only [next, firstChild?, hn]
    have htodo : todo ⟨n, later, above⟩ = (above.length, n) :: behind ⟨n, later, above⟩ := by
      rw [todo, entries_eq, hn]
      rfl
    rw [hnext, htodo]
    rcases onward_cases above depth n later with h | ⟨h, hbehind⟩ | ⟨k, d, h, hbehind, hk⟩
    · exact .inl h
    · exact .inr (.inl ⟨h, by rw [hbehind]⟩)
    · exact .inr (.inr ⟨k, d, h, by rw [hbehind], hk⟩)
  · refine .inr (.inr ⟨depth + 1, ⟨m, ms, (n, later) :: above⟩, ?_, ?_, ?_⟩)
    · simp only [next, firstChild?, hn]
    · rw [todo, entries_eq, hn, todo, behind, behind, laterAbove, Node.entriesAll]
      simp
    · simp only [List.length_cons]
      omega

theorem length_todo_lt (h : next depth c = .visit k d) : d.todo.length < c.todo.length := by
  rcases next_cases depth c with ⟨hnext, -⟩ | ⟨hnext, -⟩ | ⟨k', d', hnext, htodo, -⟩ <;>
    rw [hnext] at h
  · cases h
  · cases h
  · cases h
    rw [htodo, List.length_cons]
    omega

/-! ## Walks -/

/-- A walk from a cursor on: the nodes with the depths that were counted, after those already seen,
which come last first. -/
def walkFrom (seen : List (Nat × Node)) (depth : Nat) (c : Cursor) : Option (List (Nat × Node)) :=
  match h : next depth c with
  | .visit k d =>
    have := length_todo_lt h
    walkFrom ((depth, c.node) :: seen) k d
  | .over => some ((depth, c.node) :: seen).reverse
  | .miscounted => none
termination_by c.todo.length

/-- A walk through a whole tree; `none` if it loses count of its depth. -/
def walk (n : Node) : Option (List (Nat × Node)) :=
  walkFrom [] 0 (ofRoot n)

theorem walkFrom_of_visit {seen : List (Nat × Node)} (h : next depth c = .visit k d) :
    walkFrom seen depth c = walkFrom ((depth, c.node) :: seen) k d := by
  rw [walkFrom.eq_def]
  split <;> simp_all

theorem walkFrom_of_over {seen : List (Nat × Node)} (h : next depth c = .over) :
    walkFrom seen depth c = some ((depth, c.node) :: seen).reverse := by
  rw [walkFrom.eq_def]
  split <;> simp_all

/-- A walk that starts with the right depth sees all that is left, and counts right. -/
theorem walkFrom_eq (seen : List (Nat × Node)) (depth : Nat) (c : Cursor)
    (h : depth = c.above.length) : walkFrom seen depth c = some (seen.reverse ++ c.todo) := by
  rcases next_cases depth c with ⟨-, hlt⟩ | ⟨hnext, htodo⟩ | ⟨k, d, hnext, htodo, hk⟩
  · omega
  · rw [walkFrom_of_over hnext, htodo, h, List.reverse_cons]
  · have := length_todo_lt hnext
    rw [walkFrom_of_visit hnext, walkFrom_eq _ k d (by omega), htodo, h, List.reverse_cons,
      List.append_assoc, List.singleton_append]
termination_by c.todo.length

/-- A walk sees every node of a tree once, parents before children, and never loses count. -/
theorem walk_eq (n : Node) : walk n = some (n.entries 0) := by
  rw [walk, walkFrom_eq [] 0 (ofRoot n) rfl]
  simp [todo, ofRoot, behind, Node.entriesAll, laterAbove]

end Cursor

end CalcTree
