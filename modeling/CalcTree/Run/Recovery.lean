import CalcTree.Run.Contest
import CalcTree.Run.Reduce

/-!
# Recovery from errors

A head that has no use for the next token tries three things. It looks for a token that, were it
there, would let parsing go on, and makes it up (`insertMissing`). It goes back to a state it went
through before in which the token does fit, and wraps all that it has read since in an error node
(`goBack`). And it passes over the token, in the error state, to try again at the next one
(`skip`). The contest between parses decides which of these survive.
-/

namespace CalcTree.Run

/-- The grammar's view of a tree that is to be read; characters that start no token have none. -/
def symbol? : Tree → Option Lookahead
  | .leaf l =>
    match l.kind with
    | .token t => some (.token t)
    | .unknown => none
  | .finish _ => some .finish
  | _ => none

def actionOn (s : State) (t : Tree) : Option Action :=
  (symbol? t).bind s.action

/-- Adds the head that goes on in state `goal`, if this pop uncovers it: all that was taken off,
with an error node just below, becomes one error node. -/
def addReturned (v : Nat) (goal : State) (r : Run) (pop : Graph.Pop) : Run :=
  match pop.alternatives with
  | [] => r
  | trees :: _ =>
    if (r.graph.vertex pop.vertex).state ≠ goal then r
    else
      let (below, earlier) := (r.graph.popError? pop.vertex).getD (pop.vertex, [])
      let (parts, extras) := Measured.splitExtras (earlier ++ trees)
      let pushed := if parts.isEmpty then extras else .error true parts :: extras
      let (graph, top) := r.graph.pushAll below pushed goal
      { r with graph := graph }.addHead ⟨top, (r.head v).base, .active, none⟩

/-- Tries to go back to one of the marks of head `v`; `cost` is what the head has cost so far.
Marks at which another head already stands, and marks at the place of the error, are passed by.
Tells whether it found one. -/
def goBack (v cost : Nat) (look : Tree) : List Graph.Mark → Run → Bool × Run
  | [], r => (false, r)
  | m :: ms, r =>
    let here := (r.top v).position
    if m.state = .error || m.position.bytes = here.bytes then goBack v cost look ms r
    else if (List.range r.heads.length).any fun w =>
        r.state w = m.state && r.offset w = here.bytes then goBack v cost look ms r
    else
      let depth := if 0 < r.progress v then m.depth + 1 else m.depth
      let price := cost + m.depth * Cost.perTree +
        (here.bytes - m.position.bytes) * Cost.perByte +
        (here.rows - m.position.rows) * Cost.perLine
      match r.outranked v price with
      | (true, r) => (false, r)
      | (false, r) =>
        if (actionOn m.state look).isSome then
          let returned := (r.graph.pop (r.head v).top depth).foldl (addReturned v m.state) r
          if r.heads.length < returned.heads.length then (true, returned)
          else goBack v cost look ms returned
        else goBack v cost look ms r

/-- Passes over the next tree. What is passed over piece by piece is kept together. -/
def skip (r : Run) (v : Nat) (look : Tree) (together : Bool) : Run :=
  let pops := if together then r.graph.pop (r.head v).top 1 else []
  match pops with
  | ⟨below, trees :: _⟩ :: _ =>
    (r.setHead v { r.head v with top := below, status := .active }).push v
      (.skipped (trees ++ [.skipped [.ofTree look]])) .error
  | _ => r.push v (.skipped [.ofTree look]) .error

/-- What head `v` does in the error state. -/
def recover (r : Run) (v : Nat) : Run :=
  let look := r.lookahead v
  let r := r.rebase v
  let cost := r.cost v
  let together := 0 < r.progress v
  let marks := if look.kind = .error then [] else (r.head v).marks.getD []
  let (returned, r) := goBack v cost look marks r
  if returned && maxHeads < r.heads.length then r.setStatus v .halted
  else if look.kind = .finish then (r.push v (.error false []) .start).accept v
  else
    match r.outranked v (cost + Cost.perTree + Cost.ofExtent look.reach) with
    | (true, r) => r.setStatus v .halted
    | (false, r) => r.skip v look together

/-- Tries to make up one of the given tokens on a copy of head `w`: the first that leads to a
state which the next tree could complete, and from where reductions lead to reading it. Tells
whether there is one. -/
def insertMissing (w : Nat) (look : Tree) : List Terminal → Run → Bool × Run
  | [], r => (false, r)
  | t :: ts, r =>
    let s := r.state w
    let next := s.next (.terminal t)
    let wanted :=
      match symbol? look with
      | some (.token t) => some t
      | _ => none
    match next = .error || next = s, actionOn next look with
    | false, some (.reduce _) =>
      let copy := r.heads.length
      let r := (r.addHead { r.head w with marks := none }).push copy (.ofTree (.missing t)) next
      match r.reduceAll copy wanted with
      | (true, r) => (true, r)
      | (false, r) => insertMissing w look ts r
    | _, _ => insertMissing w look ts r

/-- Lets the given heads fall into the error state, one after the other; before that a token may
be made up, but only once in all. -/
def fallAll (look : Tree) : List Nat → Bool → Run → Run
  | [], _, r => r
  | w :: ws, inserted, r =>
    let (inserted, r) := if inserted then (true, r) else insertMissing w look Terminal.all r
    fallAll look ws inserted (r.fall w)

/-- Starts recovery of head `v`, which has just paused: all reductions are done that any token
could call for, all heads this gives fall into the error state, and there are one again. -/
def handleError (r : Run) (v : Nat) : Run :=
  let look := r.lookahead v
  let old := r.heads.length
  let (_, r) := r.reduceAll v none
  let new := r.heads.length - old
  let r := fallAll look (v :: (List.range new).map (old + ·)) false r
  let r := Nat.repeat (fun r => (r.merge? v old).getD r) new r
  let r := r.setHead v { r.head v with marks := some (r.graph.marks (r.head v).top) }
  r.recover v

end CalcTree.Run
