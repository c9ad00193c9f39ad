import CalcTree.Run.Recovery

/-!
# The parser

Heads take turns in order. In its turn a head acts until it has caught up with the heads before it
or read past them, or until it pauses or halts. After a round of turns the heads contest, and the
first of those that paused is sent into recovery if no other head can go on. The parse is over when
the best finished tree costs less than any head that could still finish, or when no head is left.
It may take any number of steps until then; if they are counted, the tree is the same
(`Run.toEnd?_eq_some_iff`).
-/

namespace CalcTree.Run

/-- Lets a head wait for the end of the round; its progress is counted anew from here. -/
def pause (r : Run) (v : Nat) : Run :=
  r.setHead v { r.head v with status := .paused, base := (r.top v).weight }

/-- One action of head `v`. Tells whether the head has done with its lookahead; after a reduction
it has not. -/
def act (r : Run) (v : Nat) : Bool × Run :=
  let look := r.lookahead v
  match actionOn (r.state v) look with
  | some (.shift s) => (true, r.push v (.ofTree look) s)
  | some .shiftExtra => (true, r.push v (.ofTree look) (r.state v))
  | some .accept => (true, r.accept v)
  | some .recover => (true, r.recover v)
  | some (.reduce p) =>
    match r.reduce v p with
    | (r, some w) => (false, r.renumber w v)
    | (r, none) => (true, r.pause v)
  | none => (true, if r.state v = .error then r.recover v else r.pause v)

/-- Looks at `n` heads from place `i` on, after a contest. Heads that paused are dropped, but the
first of them is sent into recovery if there is no other head before it to go on with. -/
def resume : Nat → Nat → Bool → Nat → Run → Nat × Run
  | 0, _, _, low, r => (low, r)
  | n + 1, i, running, low, r =>
    if (r.head i).status = .paused then
      if !running && r.finished < maxHeads then
        resume n (i + 1) true (r.cost i) ((r.setStatus i .active).handleError i)
      else resume n i running low (r.remove i)
    else resume n (i + 1) true low r

/-- Above every cost that a parse can come to. -/
def noCost : Nat := 4294967296

/-- The end of a round: the contest and its consequences. Gives the least cost at which a head may
still finish. -/
def condense (r : Run) : Nat × Run :=
  let (low, r) := contestAll r.heads.length noCost r
  let r := { r with heads := r.heads.take maxHeads }
  resume r.heads.length 0 false low r

/-- One step of the parser: an action, the end of a turn, or the end of a round. A finished parse
gives its tree. -/
def step (r : Run) : Option Tree ⊕ Run :=
  let v := r.turn
  if v < r.heads.length then
    if (r.head v).status = .active then
      match r.act v with
      | (false, r) => .inr r
      | (true, r) =>
        let here := r.offset v
        if r.frontier < here || (0 < v && here = r.frontier) then
          .inr { r with frontier := here, turn := v + 1 }
        else .inr r
    else .inr { r with turn := v + 1 }
  else
    let (low, condensed) := r.condense
    if (condensed.best.any fun t => t.cost < low) || r.heads.isEmpty then
      .inl (condensed.best.map Measured.tree)
    else .inr { condensed with turn := 0 }

/-- Runs for at most `fuel` steps. -/
def run : Nat → Run → Option Tree
  | 0, _ => none
  | fuel + 1, r =>
    match r.step with
    | .inl tree => tree
    | .inr r => run fuel r

theorem run_of_done {r : Run} {tree : Option Tree} (h : r.step = .inl tree) (fuel : Nat) :
    r.run (fuel + 1) = tree := by
  rw [run, h]

theorem run_of_step {r r' : Run} (h : r.step = .inr r') (fuel : Nat) :
    r.run (fuel + 1) = r'.run fuel := by
  rw [run, h]

/-- What a run may come to: a tree that it ends with after some number of steps, or none. So a run
that never ends comes to none. -/
abbrev Outcome (r : Run) : Type :=
  { tree : Option Tree // ∀ t, tree = some t → ∃ fuel, r.run fuel = some t }

instance (r : Run) : Nonempty r.Outcome :=
  ⟨none, nofun⟩

/-- What a run comes to, if what it comes to after a step is known. -/
def conclude (r : Run) (next : (r' : Run) → r.step = .inr r' → r'.Outcome) : r.Outcome :=
  match h : r.step with
  | .inl tree => ⟨tree, fun _ ht => ⟨1, by rw [run_of_done h, ht]⟩⟩
  | .inr r' => ⟨(next r' h).1, fun t ht =>
      let ⟨fuel, hrun⟩ := (next r' h).2 t ht
      ⟨fuel + 1, by rw [run_of_step h, hrun]⟩⟩

/-- Runs to the end, however many steps that takes. A run may go on for ever, so nothing gets
smaller here from step to step; if it ends, the fixed point is what it comes to. -/
def outcome : (r : Run) → r.Outcome :=
  WellFounded.partialExtrinsicFix (fun r' r => r.step = .inr r') conclude

/-- The tree that a run ends with. -/
def toEnd? (r : Run) : Option Tree :=
  r.outcome.1

/-- A run that ends goes on for so many steps only. -/
theorem acc_of_run {t : Tree} : ∀ {fuel : Nat} {r : Run}, r.run fuel = some t →
    Acc (fun r' r : Run => r.step = .inr r') r
  | 0, _, h => nomatch h
  | _ + 1, r, h => .intro r fun _ hstep => acc_of_run ((run_of_step hstep _).symm.trans h)

theorem toEnd?_of_run {t : Tree} : ∀ {fuel : Nat} {r : Run}, r.run fuel = some t →
    r.toEnd? = some t
  | 0, _, h => nomatch h
  | fuel + 1, r, h => by
    have hacc := acc_of_run h
    rw [toEnd?, outcome, WellFounded.partialExtrinsicFix_eq_apply_of_acc hacc, conclude]
    split
    · rename_i tree hstep
      rw [run_of_done hstep] at h
      exact h
    · rename_i r' hstep
      rw [run_of_step hstep] at h
      exact toEnd?_of_run h

/-- A run ends with a tree if it does so in some number of steps. Which number does not matter:
there is at most one such tree. -/
theorem toEnd?_eq_some_iff {r : Run} {t : Tree} :
    r.toEnd? = some t ↔ ∃ fuel, r.run fuel = some t :=
  ⟨r.outcome.2 t, fun ⟨_, h⟩ => toEnd?_of_run h⟩

end CalcTree.Run

namespace CalcTree

/-- The tree of a source, if the parser comes to an end with one. -/
def Tree.ofScan? (input : Scan) : Option Tree :=
  (Run.start input).toEnd?

def Tree.ofChars? (source : List Char) : Option Tree :=
  Tree.ofScan? (.ofChars source)

end CalcTree
