import CalcTree.Run.Basic

/-!
# Reductions

To reduce by a production is to take its parts off the stack and push the construct they form.
Where stacks share vertices the parts can come off in several ways. Ways that uncover the same
vertex are alternatives, of which the best tree is kept; each vertex uncovered gives a head of its
own, unless it merges with one that is there already.
-/

namespace CalcTree.Run

def maxHeads : Nat := 6

/-- So many heads more than `maxHeads` may arise for a while. -/
def headOverflow : Nat := 4

/-- A construct and the extra trees after it, from one way to take its parts off. -/
def construct (p : Production) (trees : List Measured) : Measured × List Measured :=
  let (parts, extras) := Measured.splitExtras trees
  (.node p parts, extras)

/-- The best of several such constructs. -/
def bestConstruct (p : Production) (first : List Measured) (others : List (List Measured)) :
    Measured × List Measured :=
  others.foldl
    (fun best trees =>
      let new := construct p trees
      if best.1.yieldsTo new.1 then new else best)
    (construct p first)

/-- Adds the head that one pop gives rise to. It does not merge into head `v`, which is being
reduced. -/
def addReduced (v : Nat) (p : Production) (r : Run) (pop : Graph.Pop) : Run :=
  let w := r.heads.length
  match pop.alternatives with
  | [] => r
  | first :: others =>
    if maxHeads + headOverflow < w then r
    else
      let (tree, extras) := bestConstruct p first others
      let next := (r.graph.vertex pop.vertex).state.next (.nonterminal p.lhs)
      let (graph, top) := r.graph.pushAll pop.vertex (tree :: extras) next
      let r := { r with graph := graph }.addHead ⟨top, (r.head v).base, .active, none⟩
      (r.mergeAny? ((List.range w).filter (· ≠ v)) w).getD r

/-- Reduces head `v`. The heads that result follow the old ones; the first of them is given, if
there is any. -/
def reduce (r : Run) (v : Nat) (p : Production) : Run × Option Nat :=
  let reduced := (r.graph.pop (r.head v).top p.rhs.length).foldl (addReduced v p) r
  (reduced, if r.heads.length < reduced.heads.length then some r.heads.length else none)

/-- Takes a finished tree into account. -/
def finish (r : Run) (tree : Measured) : Run :=
  { r with
    finished := r.finished + 1
    best :=
      match r.best with
      | some best => if best.yieldsTo tree then some tree else some best
      | none => some tree }

/-- Ends head `v` at the end of the source. -/
def accept (r : Run) (v : Nat) : Run :=
  let r := r.push v (.ofTree (r.lookahead v)) .start
  let ways := (r.graph.popAll (r.head v).top).flatMap (·.alternatives)
  (ways.filterMap Measured.root?).foldl finish r |>.setStatus v .halted

/-- Whether a state can take one of the given tokens without further reductions. -/
def shiftsAny (s : State) (ts : List Terminal) : Bool :=
  ts.any fun t =>
    match s.action (.token t) with
    | some (.shift _) | some .recover => true
    | _ => false

/-- The production that one of the given tokens lets a state reduce by, if it has parts. -/
def reducesAny? (s : State) (ts : List Terminal) : Option Production :=
  ts.findSome? fun t =>
    match s.action (.token t) with
    | some (.reduce p) => if p.rhs.isEmpty then none else some p
    | _ => none

/-- The loop of `reduceAll`: `v` is the head to look at, `i` counts the turns, and `able` says
whether a head was met that can take a token. -/
def reduceLoop (start old : Nat) (wanted : Option Terminal) :
    Nat → Nat → Nat → Bool → Run → Bool × Run
  | 0, _, _, able, r => (able, r)
  | fuel + 1, i, v, able, r =>
    let n := r.heads.length
    if n ≤ v then (able, r)
    else
      match r.mergeAny? ((List.range v).drop old) v with
      | some r => reduceLoop start old wanted fuel (i + 1) v able r
      | none =>
        let tokens := (wanted.map fun t => [t]).getD Terminal.all
        let state := r.state v
        let (r, reduced) :=
          match reducesAny? state tokens with
          | some p => r.reduce v p
          | none => (r, none)
        let next := if v = start then n else v + 1
        if shiftsAny state tokens then reduceLoop start old wanted fuel (i + 1) next true r
        else
          match reduced, decide (i < maxHeads) with
          | some w, true => reduceLoop start old wanted fuel (i + 1) v able (r.renumber w v)
          | _, _ =>
            reduceLoop start old wanted fuel (i + 1) next able
              (if wanted.isSome then r.remove v else r)

/-- Performs all reductions on head `v` and the heads they lead to that the wanted token, or any
token at all, could call for. Heads that cannot get to the wanted token are dropped. Tells whether
a head can take a token. Few heads can arise, so the loop is over long before its turns are. -/
def reduceAll (r : Run) (v : Nat) (wanted : Option Terminal) : Bool × Run :=
  reduceLoop v r.heads.length wanted 1000 0 v false r

end CalcTree.Run
