import CalcTree.Run.Basic

/-!
# Contests between parses

Parses that go on side by side are compared by what their errors cost, and by whether they are in
an error now. A parse is given up for another at once if that one is much better, the more so the
more it has read since its last error; otherwise the better one merely goes first.
-/

namespace CalcTree

structure Standing where
  cost : Nat
  progress : Nat
  inError : Bool
deriving DecidableEq, Repr

inductive Verdict where
  | takeLeft
  | preferLeft
  | even
  | preferRight
  | takeRight
deriving DecidableEq, Repr

namespace Standing

/-- The difference in cost, scaled by progress, beyond which the worse parse is given up. -/
def maxDifference : Nat := 1600

def contest (a b : Standing) : Verdict :=
  if !a.inError && b.inError then if a.cost < b.cost then .takeLeft else .preferLeft
  else if a.inError && !b.inError then if b.cost < a.cost then .takeRight else .preferRight
  else if a.cost < b.cost then
    if maxDifference < (b.cost - a.cost) * (1 + a.progress) then .takeLeft else .preferLeft
  else if b.cost < a.cost then
    if maxDifference < (a.cost - b.cost) * (1 + b.progress) then .takeRight else .preferRight
  else .even

end Standing

namespace Run

/-- The standing of a head that has just been rebased. -/
def standing (r : Run) (v : Nat) : Standing :=
  let paused := (r.head v).status = .paused
  { cost := r.cost v + if paused then Cost.perTree else 0
    progress := r.progress v
    inError := paused || r.state v = .error }

/-- Looks through heads for one that is no further behind than `v` and would beat it if `v` had
the standing `mine`. -/
def outrankedBy (mine : Standing) (v : Nat) : List Nat → Run → Bool × Run
  | [], r => (false, r)
  | w :: ws, r =>
    if w = v || (r.head w).status ≠ .active || r.offset w < r.offset v then
      outrankedBy mine v ws r
    else
      let r := r.rebase w
      match mine.contest (r.standing w) with
      | .takeRight => (true, r)
      | .preferRight => if r.canMerge w v then (true, r) else outrankedBy mine v ws r
      | _ => outrankedBy mine v ws r

/-- Whether it is pointless for head `v` to go on at this cost. -/
def outranked (r : Run) (v cost : Nat) : Bool × Run :=
  if r.best.any fun t => t.cost ≤ cost then (true, r)
  else
    let r := r.rebase v
    outrankedBy ⟨cost, r.progress v, false⟩ v (List.range r.heads.length) r

/-- Lets the head at place `i = j + n` contest with those before it, from place `j` on; `mine` is
its standing. It may be given up or merge, drive others out, or change places with one: then that
one goes on in its stead. -/
def contestFrom (mine : Standing) : Nat → Nat → Run → Run
  | 0, _, r => r
  | n + 1, j, r =>
    let i := j + (n + 1)
    let r := r.rebase j
    match (r.standing j).contest mine with
    | .takeLeft => r.remove i
    | .takeRight => contestFrom mine n j (r.remove j)
    | .preferRight =>
      match r.merge? j i with
      | some r => r
      | none =>
        let swapped := (r.setHead i (r.head j)).setHead j (r.head i)
        contestFrom mine n (j + 1) swapped
    | _ =>
      match r.merge? j i with
      | some r => r
      | none => contestFrom mine n (j + 1) r

/-- Lets the last `n` heads contest, one after the other, with all before them; halted heads drop
out. Gives the lowest cost seen of a head that is not in error, or `low` if that is less. -/
def contestAll : Nat → Nat → Run → Nat × Run
  | 0, low, r => (low, r)
  | n + 1, low, r =>
    let i := r.heads.length - (n + 1)
    if (r.head i).status = .halted then contestAll n low (r.remove i)
    else
      let r := r.rebase i
      let mine := r.standing i
      contestAll n (if mine.inError then low else min low mine.cost) (contestFrom mine i 0 r)

end Run

end CalcTree
