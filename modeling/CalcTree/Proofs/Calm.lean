import CalcTree.Proofs.Machine
import CalcTree.Proofs.Reduction
import CalcTree.Run.Step

/-!
# Parses without errors

As long as the shift-reduce machine can go on, the parser does what the machine does: there is one
head, and its stack is a single way down the graph (`Spine`). A step of the machine is one step of
the parser, or two where a round ends in between (`Calm.step`). So a source that the machine reads
is parsed without a head that pauses or gets into the error state, in a number of steps in
proportion to its lexemes (`Tree.exists_run_of_settled`).
-/

namespace CalcTree

open Machine (stateOf sight)

/-! ## Single ways down -/

namespace Measured

theorem leafCountAll_append (ms ns : List Measured) :
    leafCountAll (ms ++ ns) = leafCountAll ms + leafCountAll ns := by
  induction ms with
  | nil => simp [leafCountAll]
  | cons m ms ih => simp only [List.cons_append, leafCountAll, ih, Nat.add_assoc]

theorem leafCountAll_reverse (ms : List Measured) :
    leafCountAll ms.reverse = leafCountAll ms := by
  induction ms with
  | nil => rfl
  | cons m ms ih =>
    rw [List.reverse_cons, leafCountAll_append, ih, leafCountAll, leafCountAll, leafCountAll]
    omega

end Measured

/-- The number of lexemes on a stack. -/
def Machine.readOf (fs : List Frame) : Nat :=
  Measured.leafCountAll (fs.map Frame.tree)

theorem Machine.readOf_cons (f : Frame) (fs : List Frame) :
    readOf (f :: fs) = f.tree.leafCount + readOf fs :=
  rfl

namespace Graph

/-- Whether there is only one way down from a vertex, along these frames. -/
inductive Spine (g : Graph) : Nat → List Frame → Prop
  | bottom (hsize : 0 < g.vertices.size) (hl : g.linksOf 0 = [])
      (hs : (g.vertex 0).state = .start) (hr : (g.vertex 0).read = 0) : Spine g 0 []
  | frame {u v : Nat} {f : Frame} {fs : List Frame} (hsize : v < g.vertices.size) (huv : u < v)
      (hl : g.linksOf v = [⟨u, some f.tree⟩]) (hs : (g.vertex v).state = f.state)
      (hr : (g.vertex v).read = (g.vertex u).read + f.tree.leafCount) (h : Spine g u fs) :
      Spine g v (f :: fs)

variable {g : Graph} {v : Nat} {fs base : List Frame}

theorem Spine.lt_size (h : g.Spine v fs) : v < g.vertices.size := by
  cases h <;> assumption

theorem Spine.state_eq (h : g.Spine v fs) : (g.vertex v).state = stateOf fs := by
  cases h <;> assumption

theorem Spine.read_eq (h : g.Spine v fs) : (g.vertex v).read = Machine.readOf fs := by
  induction h with
  | bottom _ _ _ hr => exact hr
  | frame _ _ _ _ hr _ ih => rw [hr, ih, Machine.readOf_cons, Nat.add_comm]

theorem Spine.length_le (h : g.Spine v fs) : fs.length ≤ v := by
  induction h with
  | bottom => exact Nat.le_refl _
  | frame _ huv _ _ _ _ ih =>
    rw [List.length_cons]
    omega

theorem Spine.push_below {w : Nat} {t : Option Measured} {s : State} (h : g.Spine v fs) :
    (g.push w t s).Spine v fs := by
  induction h with
  | bottom hsize hl hs hr =>
    have heq := vertex_push_of_lt (v := w) (t := t) (s := s) hsize
    refine .bottom (by simp) ?_ ?_ ?_
    · rw [linksOf, heq]
      exact hl
    · rw [heq]
      exact hs
    · rw [heq]
      exact hr
  | @frame u v f fs hsize huv hl hs hr h ih =>
    have heq := vertex_push_of_lt (v := w) (t := t) (s := s) hsize
    have hequ := vertex_push_of_lt (v := w) (t := t) (s := s) h.lt_size
    refine .frame (by rw [size_push]; omega) huv ?_ ?_ ?_ ih
    · rw [linksOf, heq]
      exact hl
    · rw [heq]
      exact hs
    · rw [heq, hequ]
      exact hr

theorem Spine.push (h : g.Spine v fs) (t : Measured) (s : State) :
    (g.push v (some t) s).Spine g.vertices.size (⟨s, t⟩ :: fs) := by
  have heq := vertex_push_of_lt (v := v) (t := some t) (s := s) h.lt_size
  refine .frame (by simp) h.lt_size linksOf_push_size ?_ ?_ h.push_below
  · rw [vertex_push_size]
  · rw [vertex_push_size, heq]
    rfl

theorem Spine.pushAll {s : State} : ∀ (ts : List Measured) {g : Graph} {v : Nat}
    {fs : List Frame}, g.Spine v fs →
    (g.pushAll v ts s).1.Spine (g.pushAll v ts s).2 (ts.reverse.map (Frame.mk s) ++ fs)
  | [], _, _, _, h => h
  | t :: ts, g, v, fs, h => by
    have ih := Spine.pushAll (s := s) ts (h.push t s)
    rw [List.reverse_cons, List.map_append, List.append_assoc]
    exact ih

/-! ## Walking down -/

section Walk

variable {σ : Type} {visit : σ → Way → σ × Bool}

theorem walkFrom_of_true {fuel : Nat} {w : Way} {s t : σ} (h : visit s w = (t, true)) :
    g.walkFrom visit (fuel + 1) [w] s = t := by
  simp only [walkFrom, walkRound, h, List.append_nil]
  cases fuel <;> rfl

theorem walkFrom_of_nil {fuel : Nat} {w : Way} {s t : σ} (h : visit s w = (t, false))
    (hl : g.linksOf w.vertex = []) : g.walkFrom visit (fuel + 1) [w] s = t := by
  simp only [walkFrom, walkRound, h, hl, List.append_nil]
  cases fuel <;> rfl

theorem walkFrom_of_link {fuel : Nat} {w : Way} {s t : σ} {l : Link}
    (h : visit s w = (t, false)) (hl : g.linksOf w.vertex = [l]) :
    g.walkFrom visit (fuel + 1) [w] s = g.walkFrom visit fuel [w.follow l] t := by
  simp only [walkFrom, walkRound, h, hl, List.take_nil, List.map_nil, List.append_nil,
    List.nil_append]

end Walk

/-- Taking parts off a single way gives them in one way. -/
theorem Spine.walkFrom_off {n k : Nat} {ts : List Measured} (ho : Machine.Off k fs ts base) :
    ∀ (v fuel d : Nat) (us : List Measured), g.Spine v fs → d + k = n → v < fuel →
      ∃ u, g.Spine u base ∧ g.walkFrom
        (fun pops w => if w.depth = n then (addPop pops w, true) else (pops, false)) fuel
        [⟨v, us, d⟩] [] = [⟨u, [ts ++ us]⟩] := by
  induction ho with
  | done =>
    intro v fuel d us h hd hfuel
    obtain ⟨fuel, rfl⟩ : ∃ m, fuel = m + 1 := ⟨fuel - 1, by omega⟩
    refine ⟨v, h, ?_⟩
    rw [walkFrom_of_true (t := [⟨v, [us]⟩])]
    · rfl
    · simp only [show d = n by omega, ↓reduceIte]
      rfl
  | @part k f stk base ts he ho ih =>
    intro v fuel d us h hd hfuel
    obtain ⟨fuel, rfl⟩ : ∃ m, fuel = m + 1 := ⟨fuel - 1, by omega⟩
    cases h with
    | @frame u _ _ _ hsize huv hl hs hr h =>
    obtain ⟨u', hu', hwalk⟩ := ih u fuel (d + 1) (f.tree :: us) h (by omega)
      (by omega)
    refine ⟨u', hu', ?_⟩
    rw [walkFrom_of_link (t := []) (by simp [show d ≠ n by omega]) hl, Way.follow]
    simp only [he, Bool.false_eq_true, ↓reduceIte]
    rw [hwalk, List.append_assoc, List.singleton_append]
  | @extra k f stk base ts he ho ih =>
    intro v fuel d us h hd hfuel
    obtain ⟨fuel, rfl⟩ : ∃ m, fuel = m + 1 := ⟨fuel - 1, by omega⟩
    cases h with
    | @frame u _ _ _ hsize huv hl hs hr h =>
    obtain ⟨u', hu', hwalk⟩ := ih u fuel d (f.tree :: us) h (by omega) (by omega)
    refine ⟨u', hu', ?_⟩
    rw [walkFrom_of_link (t := []) (by simp [show d ≠ n by omega]) hl, Way.follow]
    simp only [he, ↓reduceIte]
    rw [hwalk, List.append_assoc, List.singleton_append]

theorem Spine.pop {n : Nat} {ts : List Measured} (h : g.Spine v fs)
    (ho : Machine.Off n fs ts base) :
    ∃ u, g.Spine u base ∧ g.pop v n = [⟨u, [ts]⟩] := by
  obtain ⟨u, hu, hwalk⟩ := Spine.walkFrom_off (n := n) ho v (g.vertices.size + 1) 0 [] h
    (by omega) (by have := h.lt_size; omega)
  exact ⟨u, hu, by rw [Graph.pop, walk, hwalk, List.append_nil]⟩

/-- Taking everything off a single way. -/
theorem Spine.walkFrom_all (h : g.Spine v fs) : ∀ (fuel d : Nat) (us : List Measured),
    v < fuel → g.walkFrom
      (fun pops w => (if (g.linksOf w.vertex).isEmpty then addPop pops w else pops, false)) fuel
      [⟨v, us, d⟩] [] = [⟨0, [fs.reverse.map Frame.tree ++ us]⟩] := by
  induction h with
  | bottom hsize hl hs hr =>
    intro fuel d us hfuel
    obtain ⟨fuel, rfl⟩ : ∃ m, fuel = m + 1 := ⟨fuel - 1, by omega⟩
    rw [walkFrom_of_nil (t := [⟨0, [us]⟩]) _ hl]
    · rfl
    · simp only [hl, List.isEmpty_nil, ↓reduceIte]
      rfl
  | @frame u v f fs hsize huv hl hs hr h ih =>
    intro fuel d us hfuel
    obtain ⟨fuel, rfl⟩ : ∃ m, fuel = m + 1 := ⟨fuel - 1, by omega⟩
    rw [walkFrom_of_link (t := []) (by simp [hl]) hl, Way.follow]
    simp only []
    rw [ih _ _ _ (by omega), List.reverse_cons, List.map_append, List.append_assoc]
    rfl

theorem Spine.popAll (h : g.Spine v fs) :
    g.popAll v = [⟨0, [fs.reverse.map Frame.tree]⟩] := by
  have hwalk := h.walkFrom_all (g.vertices.size + 1) 0 [] (by have := h.lt_size; omega)
  rw [Graph.popAll, walk, hwalk, List.append_nil]

end Graph

/-! ## The parser as a machine -/

namespace Machine

theorem Off.readOf_eq {n : Nat} {stk base : List Frame} {ts : List Measured}
    (h : Off n stk ts base) : readOf stk = Measured.leafCountAll ts + readOf base := by
  induction h with
  | done => simp [Measured.leafCountAll]
  | part _ _ ih | extra _ _ ih =>
    rw [readOf_cons, ih, Measured.leafCountAll_append, Measured.leafCountAll,
      Measured.leafCountAll]
    omega

/-- A construct holds as many lexemes as its parts. -/
theorem readOf_heap (base : List Frame) (p : Production) (ts : List Measured) :
    readOf (heap base p ts) = Measured.leafCountAll ts + readOf base := by
  have hsplit := congrArg Measured.leafCountAll (Measured.splitExtras_append ts)
  rw [Measured.leafCountAll_append] at hsplit
  have hframes : ∀ (s : State) (ms : List Measured), (ms.map (Frame.mk s)).map Frame.tree = ms := by
    intro s ms
    rw [List.map_map]
    exact List.map_id _
  have hnode : (Measured.node p (Measured.splitExtras ts).1).leafCount =
      Measured.leafCountAll (Measured.splitExtras ts).1 := rfl
  simp only [heap, Run.construct, readOf, List.map_append, hframes,
    Measured.leafCountAll_append, Measured.leafCountAll_reverse, List.map_cons,
    Measured.leafCountAll, hnode]
  omega

end Machine

namespace Run

/-- Whether no head of a run has paused or is in the error state. It is from such heads that the
parser starts to recover. -/
def Untroubled (r : Run) : Prop :=
  ∀ h ∈ r.heads, h.status ≠ .paused ∧ (r.graph.vertex h.top).state ≠ .error

/-- Whether a run does what a machine does. -/
structure Calm (input : Scan) (m : Machine) (r : Run) : Prop where
  input_eq : r.input = input
  best : r.best = none
  head : ∃ h : Head, r.heads = [h] ∧ h.status = .active ∧ r.graph.Spine h.top m.stack
  rest : input.lexemes.drop (Machine.readOf m.stack) = m.rest

variable {input : Scan} {m m' : Machine} {r : Run}

theorem calm_start (input : Scan) : Calm input ⟨[], input.lexemes⟩ (start input) :=
  ⟨rfl, rfl, ⟨_, rfl, rfl, .bottom Nat.zero_lt_one rfl rfl rfl⟩, rfl⟩

theorem Calm.untroubled (h : Calm input m r) (hs : stateOf m.stack ≠ .error) :
    r.Untroubled := by
  obtain ⟨hd, hheads, hactive, hspine⟩ := h.head
  intro hd' hmem
  rw [hheads, List.mem_singleton] at hmem
  subst hmem
  exact ⟨by simp [hactive], by rwa [hspine.state_eq]⟩

theorem Calm.state_eq (h : Calm input m r) : r.state 0 = stateOf m.stack := by
  obtain ⟨hd, hheads, -, hspine⟩ := h.head
  rw [state, top, Run.head, hheads]
  exact hspine.state_eq

theorem Calm.lookahead_eq (h : Calm input m r) : r.lookahead 0 =
    match m.rest with
    | [] => .finish input.trailing
    | l :: _ => .leaf l := by
  obtain ⟨hd, hheads, -, hspine⟩ := h.head
  have hread : (r.top 0).read = Machine.readOf m.stack := by
    rw [top, Run.head, hheads]
    exact hspine.read_eq
  have hhead : input.lexemes[Machine.readOf m.stack]? = m.rest.head? := by
    rw [← h.rest, List.head?_drop]
  rw [lookahead, h.input_eq, hread, hhead]
  rcases m.rest with _ | ⟨l, rest⟩ <;> rfl

theorem Calm.actionOn_eq (h : Calm input m r) {a : Lookahead} (ha : sight m.rest = some a) :
    actionOn (r.state 0) (r.lookahead 0) = (stateOf m.stack).action a := by
  have hsym : symbol? (r.lookahead 0) = sight m.rest := by
    rw [h.lookahead_eq]
    rcases m.rest with _ | ⟨l, rest⟩ <;> rfl
  rw [actionOn, hsym, ha, h.state_eq, Option.bind_some]

/-- Reading a lexeme. -/
theorem Calm.push (h : Calm input m r) {l : Lexeme} {rest : List Lexeme}
    (hrest : m.rest = l :: rest) (s : State) :
    Calm input ⟨⟨s, .ofTree (.leaf l)⟩ :: m.stack, rest⟩ (r.push 0 (.ofTree (.leaf l)) s) := by
  obtain ⟨hd, hheads, hactive, hspine⟩ := h.head
  have hhead : r.head 0 = hd := by simp [Run.head, hheads]
  refine ⟨h.input_eq, h.best, ⟨{ hd with top := r.graph.vertices.size }, ?_, hactive, ?_⟩, ?_⟩
  · simp [Run.push, hheads, hhead]
  · rw [Run.push, hhead]
    exact hspine.push _ s
  · have hread : Machine.readOf (⟨s, .ofTree (.leaf l)⟩ :: m.stack) =
        Machine.readOf m.stack + 1 := Nat.add_comm 1 _
    rw [hread, ← List.drop_drop, h.rest, hrest]
    rfl

/-- A reduction with a single head and a single way to take the parts off. -/
theorem Calm.reduce (h : Calm input m r) {p : Production} {ts : List Measured}
    {base : List Frame} (ho : Machine.Off p.rhs.length m.stack ts base) :
    ∃ r' w, r.reduce 0 p = (r', some w) ∧
      Calm input ⟨Machine.heap base p ts, m.rest⟩ (r'.renumber w 0) ∧
      (r'.renumber w 0).turn = r.turn := by
  obtain ⟨hd, hheads, hactive, hspine⟩ := h.head
  have hhead : r.head 0 = hd := by simp [Run.head, hheads]
  obtain ⟨u, hu, hpop⟩ := hspine.pop ho
  set c := construct p ts
  set s := (stateOf base).next (.nonterminal p.lhs)
  have hstate : (r.graph.vertex u).state.next (.nonterminal p.lhs) = s := by rw [hu.state_eq]
  set pushed := r.graph.pushAll u (c.1 :: c.2) s
  have hpushed : pushed.1.Spine pushed.2 (Machine.heap base p ts) := by
    have := hu.pushAll (s := s) (c.1 :: c.2)
    rwa [List.reverse_cons, List.map_append, List.append_assoc] at this
  set new : Head := ⟨pushed.2, hd.base, .active, none⟩
  set r' : Run := Run.addHead { r with graph := pushed.1 } new
  have hlen : r.heads.length = 1 := by simp [hheads]
  have hadd : addReduced 0 p r ⟨u, [ts]⟩ = r' := by
    have hbest : bestConstruct p ts [] = c := rfl
    have hnone : r'.mergeAny? ((List.range 1).filter (· ≠ 0)) 1 = none := rfl
    simp only [Run.addReduced, hlen, hbest, hstate, hhead]
    rw [if_neg (by decide)]
    exact (congrArg (Option.getD · r') hnone).trans rfl
  have hreduce : r.reduce 0 p = (r', some 1) := by
    rw [Run.reduce, hhead, hpop, List.foldl_cons, List.foldl_nil, hadd]
    simp [r', Run.addHead, hlen]
  have hheads' : r'.heads = [hd, new] := by simp [r', Run.addHead, hheads]
  refine ⟨r', 1, hreduce, ⟨h.input_eq, h.best, ⟨{ new with marks := new.marks.or hd.marks }, ?_,
    rfl, hpushed⟩, ?_⟩, rfl⟩
  · simp [Run.renumber, Run.remove, Run.setHead, Run.head, hheads']
  · rw [Machine.readOf_heap, ← ho.readOf_eq]
    exact h.rest

/-- The parser does what the machine does. -/
theorem Calm.act (h : Calm input m r) (hs : Machine.Step m m') :
    ∃ done r', r.act 0 = (done, r') ∧ Calm input m' r' ∧ r'.turn = r.turn := by
  cases hs with
  | @shift stk l rest t s hl ha =>
    have hact := h.actionOn_eq (a := .token t) (by simp [sight, hl])
    refine ⟨true, r.push 0 (.ofTree (.leaf l)) s, ?_, h.push rfl s, rfl⟩
    rw [Run.act, hact, ha, h.lookahead_eq]
  | @extra stk l rest hl hne =>
    have hact := h.actionOn_eq (a := .token .comment) (by simp [sight, hl])
    refine ⟨true, r.push 0 (.ofTree (.leaf l)) (stateOf stk), ?_, h.push rfl _, rfl⟩
    rw [Run.act, hact, State.action_comment hne, h.lookahead_eq, h.state_eq]
  | @reduce stk base rest a p ts hsight ha ho =>
    have hact := h.actionOn_eq hsight
    obtain ⟨r', w, hreduce, hcalm, hturn⟩ := h.reduce ho
    refine ⟨false, r'.renumber w 0, ?_, hcalm, hturn⟩
    rw [Run.act, hact, ha]
    simp only [hreduce]

theorem Calm.step (h : Calm input m r) (hturn : r.turn = 0) (hs : Machine.Step m m') :
    ∃ r', r.step = .inr r' ∧ Calm input m' r' ∧ r'.turn ≤ 1 := by
  obtain ⟨hd, hheads, hactive, -⟩ := h.head
  obtain ⟨done, r', hact, hcalm, hturn'⟩ := h.act hs
  have hmove : ∀ {turn frontier : Nat},
      Calm input m' { r' with turn := turn, frontier := frontier } :=
    ⟨hcalm.input_eq, hcalm.best, hcalm.head, hcalm.rest⟩
  have hstatus : (r.head 0).status = .active := by simp [Run.head, hheads, hactive]
  unfold Run.step
  simp only [hturn, hheads, List.length_singleton, Nat.lt_one_iff, hstatus, ↓reduceIte, hact]
  cases done
  · exact ⟨r', rfl, hcalm, by omega⟩
  · simp only []
    split_ifs
    · exact ⟨_, rfl, hmove, Nat.le_refl _⟩
    · exact ⟨r', rfl, hcalm, by omega⟩

/-- The end of a round changes nothing for a single head. -/
theorem Calm.step_round (h : Calm input m r) (hturn : r.turn = 1) :
    ∃ r', r.step = .inr r' ∧ Calm input m r' ∧ r'.turn = 0 := by
  obtain ⟨hd, hheads, hactive, hspine⟩ := h.head
  have hhead : r.head 0 = hd := by simp [Run.head, hheads]
  set hd' : Head := { hd with base := min hd.base (r.top 0).weight }
  set r' : Run := { r with heads := [hd'] }
  have hrebase : r.rebase 0 = r' := by
    simp [Run.rebase, Run.setHead, hheads, hhead, hd', r']
  obtain ⟨low, hall⟩ : ∃ low, contestAll 1 noCost r = (low, r') := by
    simp only [contestAll, hheads, List.length_singleton, Nat.sub_self, hhead, hactive,
      reduceCtorEq, ↓reduceIte, hrebase, contestFrom]
    exact ⟨_, rfl⟩
  have hresume : resume 1 0 false low r' = (low, r') := by
    simp [resume, Run.head, r', hd', hactive]
  have hcond : r.condense = (low, r') := by
    simp only [Run.condense, hheads, List.length_singleton, hall]
    exact hresume
  refine ⟨{ r' with turn := 0 }, ?_, ⟨h.input_eq, h.best, ⟨hd', rfl, hactive, hspine⟩, h.rest⟩,
    rfl⟩
  have hbest : r'.best = none := h.best
  simp [Run.step, hturn, hheads, hcond, hbest]

/-! ## The end -/

/-- Whether a run has come to its tree. -/
structure Over (root : Measured) (r : Run) : Prop where
  best : r.best = some root
  head : ∃ h : Head, r.heads = [h] ∧ h.status = .halted ∧ (r.graph.vertex h.top).state = .start

variable {root : Measured}

theorem Over.untroubled (h : Over root r) : r.Untroubled := by
  obtain ⟨hd, hheads, hhalted, hs⟩ := h.head
  intro hd' hmem
  rw [hheads, List.mem_singleton] at hmem
  subst hmem
  exact ⟨by simp [hhalted], by rw [hs]; decide⟩

/-- At the end of a source a whole file is the tree of the source. -/
theorem Calm.step_accept (h : Calm input m r) (hturn : r.turn = 0) (hrest : m.rest = [])
    (hs : stateOf m.stack = .accepting)
    (hroot : Measured.root? (m.stack.reverse.map Frame.tree ++
      [.ofTree (.finish input.trailing)]) = some root) :
    ∃ r', r.step = .inr r' ∧ Over root r' ∧ r'.turn ≤ 1 := by
  obtain ⟨hd, hheads, hactive, hspine⟩ := h.head
  have hhead : r.head 0 = hd := by simp [Run.head, hheads]
  have hlook : r.lookahead 0 = .finish input.trailing := by rw [h.lookahead_eq, hrest]
  set fin := Measured.ofTree (.finish input.trailing)
  set g := r.graph.push hd.top (some fin) .start
  have hspine' : g.Spine r.graph.vertices.size (⟨.start, fin⟩ :: m.stack) := hspine.push fin .start
  set hd' : Head := { hd with top := r.graph.vertices.size, status := .halted }
  set last : Run :=
    { r with graph := g, heads := [hd'], finished := r.finished + 1, best := some root }
  have haccept : r.accept 0 = last := by
    have hpush : r.push 0 fin .start =
        { r with graph := g, heads := [{ hd with top := r.graph.vertices.size }] } := by
      simp [Run.push, hheads, hhead, g]
    have hpop := hspine'.popAll
    rw [List.reverse_cons, List.map_append, List.map_singleton] at hpop
    simp only [Run.accept, hlook]
    rw [show Measured.ofTree (.finish input.trailing) = fin from rfl, hpush]
    simp only [Run.head, List.getElem?_cons_zero, Option.getD_some, hpop, List.flatMap_cons,
      List.flatMap_nil, List.append_nil, List.filterMap_cons, hroot, List.filterMap_nil,
      List.foldl_cons, List.foldl_nil, finish, h.best]
    simp [setStatus, Run.setHead, Run.head, last, hd']
  have hact : r.act 0 = (true, last) := by
    rw [Run.act, h.actionOn_eq (a := .finish) (by rw [hrest]; rfl), hs]
    exact congrArg (Prod.mk true) haccept
  have hover : ∀ {turn frontier : Nat},
      Over root { last with turn := turn, frontier := frontier } :=
    ⟨rfl, hd', rfl, rfl, hspine'.state_eq⟩
  have hstatus : (r.head 0).status = .active := by rw [hhead, hactive]
  unfold Run.step
  simp only [hturn, hheads, List.length_singleton, Nat.lt_one_iff, hstatus, ↓reduceIte, hact]
  split_ifs
  · exact ⟨_, rfl, hover, Nat.le_refl _⟩
  · refine ⟨last, rfl, hover, ?_⟩
    rw [show last.turn = r.turn from rfl, hturn]
    omega

theorem Over.step_turn (h : Over root r) (hturn : r.turn = 0) :
    ∃ r', r.step = .inr r' ∧ Over root r' ∧ r'.turn = 1 := by
  obtain ⟨hd, hheads, hhalted, hs⟩ := h.head
  refine ⟨{ r with turn := 1 }, ?_, ⟨h.best, hd, hheads, hhalted, hs⟩, rfl⟩
  simp [Run.step, hturn, hheads, Run.head, hhalted]

theorem Over.step_round (h : Over root r) (hturn : r.turn = 1) (hcost : root.tree.cost < noCost) :
    r.step = .inl (some root.tree) := by
  obtain ⟨hd, hheads, hhalted, hs⟩ := h.head
  have hcond : r.condense = (noCost, { r with heads := [] }) := by
    simp [Run.condense, contestAll, hheads, Run.head, hhalted, Run.remove, resume]
  simp [Run.step, hturn, hheads, hcond, h.best, hcost]

/-! ## Whole parses -/

/-- Whether a run comes to another. -/
inductive Reaches (r : Run) : Run → Prop
  | refl : Reaches r r
  | step {r' r'' : Run} (h : Reaches r r') (hs : r'.step = .inr r'') : Reaches r r''

/-- Whether a run ends with a tree after at most so many steps, without trouble on the way. -/
inductive Ends (t : Tree) : Nat → Run → Prop
  | done {n : Nat} {r : Run} (hu : r.Untroubled) (h : r.step = .inl (some t)) : Ends t (n + 1) r
  | step {n : Nat} {r r' : Run} (hu : r.Untroubled) (h : r.step = .inr r') (h' : Ends t n r') :
      Ends t (n + 1) r

variable {t : Tree} {n k : Nat}

theorem Ends.run (h : Ends t n r) : ∀ {fuel : Nat}, n ≤ fuel → r.run fuel = some t := by
  induction h with
  | done hu h =>
    intro fuel hfuel
    obtain ⟨fuel, rfl⟩ : ∃ m, fuel = m + 1 := ⟨fuel - 1, by omega⟩
    exact run_of_done h fuel
  | step hu h _ ih =>
    intro fuel hfuel
    obtain ⟨fuel, rfl⟩ : ∃ m, fuel = m + 1 := ⟨fuel - 1, by omega⟩
    rw [run_of_step h]
    exact ih (by omega)

theorem Ends.succ (h : Ends t n r) : Ends t (n + 1) r := by
  induction h with
  | done hu h => exact .done hu h
  | step hu h _ ih => exact .step hu h ih

theorem Ends.untroubled (h : Ends t n r) {r' : Run} (hr : r.Reaches r') : r'.Untroubled := by
  suffices hends : ∃ k, Ends t k r' by
    obtain ⟨k, hk⟩ := hends
    cases hk <;> assumption
  induction hr with
  | refl => exact ⟨n, h⟩
  | step _ hs ih =>
    obtain ⟨k, hk⟩ := ih
    cases hk with
    | done _ hd => simp [hs] at hd
    | step _ hs' hk =>
      obtain rfl := Sum.inr.inj (hs.symm.trans hs')
      exact ⟨_, hk⟩

theorem stateOf_ne_error (h : Machine.Step m m') : stateOf m.stack ≠ .error := by
  cases h with
  | shift _ ha => exact (State.shift_of_action ha).1
  | extra _ hs => exact hs
  | reduce _ ha _ => exact (State.reduction_of_action ha).1

/-- If the end of a round comes first, it takes one more step. -/
theorem Calm.ends_of_turn (h : Calm input m r) (hturn : r.turn ≤ 1)
    (hs : stateOf m.stack ≠ .error)
    (hends : ∀ r', Calm input m r' → r'.turn = 0 → Ends t (n + 1) r') : Ends t (n + 2) r := by
  rcases Nat.le_one_iff_eq_zero_or_eq_one.1 hturn with hturn | hturn
  · exact (hends r h hturn).succ
  · obtain ⟨r', hstep, hcalm, hturn'⟩ := h.step_round hturn
    exact .step (h.untroubled hs) hstep (hends r' hcalm hturn')

theorem Calm.ends (hsteps : Machine.Steps n m m')
    (hends : ∀ r, Calm input m' r → r.turn ≤ 1 → Ends t k r) :
    ∀ {r : Run}, Calm input m r → r.turn ≤ 1 → Ends t (2 * n + k) r := by
  induction hsteps with
  | refl m =>
    intro r h hturn
    simpa using hends r h hturn
  | @cons n m m₁ m' hs _ ih =>
    intro r h hturn
    have heq : 2 * (n + 1) + k = 2 * n + k + 2 := by omega
    rw [heq]
    refine h.ends_of_turn hturn (stateOf_ne_error hs) fun r' hcalm hturn' => ?_
    obtain ⟨r'', hstep, hcalm'', hturn''⟩ := hcalm.step hturn' hs
    exact .step (hcalm.untroubled (stateOf_ne_error hs)) hstep (ih hends hcalm'' hturn'')

theorem Over.ends (h : Over root r) (hturn : r.turn ≤ 1) (hcost : root.tree.cost < noCost) :
    Ends root.tree 2 r := by
  rcases Nat.le_one_iff_eq_zero_or_eq_one.1 hturn with hturn | hturn
  · obtain ⟨r', hstep, hover, hturn'⟩ := h.step_turn hturn
    exact .step h.untroubled hstep (.done hover.untroubled (hover.step_round hturn' hcost))
  · exact .done h.untroubled (h.step_round hturn hcost)

theorem Calm.ends_of_accepting (h : Calm input m r) (hturn : r.turn ≤ 1) (hrest : m.rest = [])
    (hs : stateOf m.stack = .accepting)
    (hroot : Measured.root? (m.stack.reverse.map Frame.tree ++
      [.ofTree (.finish input.trailing)]) = some root) (hcost : root.tree.cost < noCost) :
    Ends root.tree 4 r := by
  have hne : stateOf m.stack ≠ .error := by rw [hs]; exact State.error_ne_accepting.symm
  refine h.ends_of_turn hturn hne fun r' hcalm hturn' => ?_
  obtain ⟨r'', hstep, hover, hturn''⟩ := hcalm.step_accept hturn' hrest hs hroot
  exact .step (hcalm.untroubled hne) hstep (hover.ends hturn'' hcost)

end Run

namespace Tree

theorem eq_node_of_bare {t : Tree} {p : Production} {ds : List Derivation}
    (h : t.bare = [.node p ds]) : ∃ cs, t = .node p cs ∧ bareAll cs = ds := by
  cases t with
  | leaf l =>
    rcases hl : l.terminal? <;> simp [bare, hl] at h
  | node q cs =>
    simp only [bare, List.cons.injEq, Derivation.node.injEq, and_true] at h
    obtain ⟨rfl, rfl⟩ := h
    exact ⟨cs, rfl, rfl⟩
  | missing | finish | error | skipped => simp [bare] at h

/-- Comments around a file change nothing about what it stands for. -/
theorem bare_with_comments {before cs behind : List Tree} (p : Production) (blank : List Char)
    (hbefore : ∀ t ∈ before, t.IsComment) (hbehind : ∀ t ∈ behind, t.IsComment)
    (hcs : anyDamaged cs = false) :
    (Tree.node p (before ++ cs ++ behind ++ [.finish blank])).isDamaged = false ∧
      (Tree.node p (before ++ cs ++ behind ++ [.finish blank])).bare =
        [.node p (bareAll cs)] := by
  have hb := anyDamaged_of_forall fun t ht => (hbefore t ht).isDamaged
  have hb' := anyDamaged_of_forall fun t ht => (hbehind t ht).isDamaged
  constructor
  · rw [isDamaged, anyDamaged_append, anyDamaged_append, anyDamaged_append, hb, hb', hcs]
    rfl
  · rw [bare, bareAll_append, bareAll_append, bareAll_append, bareAll_of_comments hbefore,
      bareAll_of_comments hbehind]
    simp [bareAll, bare]

/-- The tree of a source: a file, with comments and the end of the source around it. -/
theorem exists_root {d : Derivation} {s : State} {fs es : List Frame}
    (h : Machine.Piece s d fs) (hd : d.symbol = .nonterminal .sourceFile)
    (hes : ∀ f ∈ es, f.tree.tree.IsComment) (blank : List Char) :
    ∃ root, Measured.root? ((fs ++ es).reverse.map Frame.tree ++ [.ofTree (.finish blank)]) =
      some root ∧ root.tree.isDamaged = false ∧ root.tree.bare = [d] ∧
      ∀ c ∈ root.tree.children, c.Snug := by
  obtain ⟨es', t, rfl, hes', hextra, hbare, hdamaged, hsnug⟩ := h
  rcases d with a | ⟨p, ds⟩
  · simp [Derivation.symbol] at hd
  obtain ⟨cs, hnode, rfl⟩ := eq_node_of_bare hbare
  have hbefore := Machine.isComment_of_frames hes
  have hbehind := Machine.isComment_of_frames fun f hf => (hes' f hf).2
  have hcs : anyDamaged cs = false := by rw [← hdamaged, hnode, isDamaged]
  obtain ⟨root, hroot, htree⟩ := Measured.root?_of_node (es.reverse.map Frame.tree)
    (es'.reverse.map Frame.tree) blank hnode
    fun e he => (hbehind e.tree (Measured.mem_trees.2 ⟨e, he, rfl⟩)).isExtra
  obtain ⟨hsound, hbare⟩ := bare_with_comments p blank hbefore hbehind hcs
  refine ⟨root, ?_, htree ▸ hsound, htree ▸ hbare, fun c hc => ?_⟩
  · rw [← hroot]
    simp
  · rw [htree, children] at hc
    simp only [List.mem_append, List.mem_singleton] at hc
    rcases hc with ((hc | hc) | hc) | rfl
    · exact (hbefore c hc).snug
    · rw [hnode] at hsnug
      cases hsnug with
      | node _ _ _ _ hcs => exact hcs c hc
    · exact (hbehind c hc).snug
    · exact .finish blank

theorem cost_lt_of_sound {t : Tree} (h : t.isDamaged = false) : t.cost < Run.noCost := by
  have hzero : ¬ 0 < t.cost := by
    rw [← isDamaged_iff, h]
    simp
  have hpos : 0 < Run.noCost := by decide
  omega

/-- A source whose tokens are derived, so that no expression is completed before a minus, is
parsed without trouble, and its tree stands for the derivation. Comments stand between the parts of
constructs in it, or around the file. The steps it takes are in proportion to the lexemes. -/
theorem exists_run_of_settled {input : Scan} {d : Derivation} (hk : Lexeme.Known input.lexemes)
    (hv : d.Valid) (hd : d.symbol = .nonterminal .sourceFile)
    (hy : d.yield = Lexeme.terminals input.lexemes) (hs : d.Settled []) :
    ∃ t, (Run.start input).run (26 * input.lexemes.length + 6) = some t ∧
      t.isDamaged = false ∧ t.bare = [d] ∧ (∀ c ∈ t.children, c.Snug) ∧
      ∀ r, (Run.start input).Reaches r → r.Untroubled := by
  obtain ⟨fs, es, hsteps, hpiece, hes⟩ := Machine.read_file hk hv hd hy hs
  obtain ⟨root, hroot, hsound, hbare, hsnug⟩ := exists_root hpiece hd hes input.trailing
  have hends := Run.Calm.ends hsteps
    (fun r hcalm hturn => hcalm.ends_of_accepting hturn rfl (hpiece.stateOf_eq es) hroot
      (cost_lt_of_sound hsound))
    (Run.calm_start input) (Nat.zero_le _)
  refine ⟨root.tree, hends.run ?_, hsound, hbare, hsnug, fun r hr => hends.untroubled hr⟩
  -- There are at most as many tokens as lexemes, and at most twelve productions for each.
  have hnodes := d.nodes_le hv
  have hle : d.yield.length ≤ input.lexemes.length := by
    rw [hy]
    exact List.length_filterMap_le _ _
  omega

theorem ofScan?_of_settled_snug {input : Scan} {d : Derivation} (hk : Lexeme.Known input.lexemes)
    (hv : d.Valid) (hd : d.symbol = .nonterminal .sourceFile)
    (hy : d.yield = Lexeme.terminals input.lexemes) (hs : d.Settled []) :
    ∃ t, Tree.ofScan? input = some t ∧ t.isDamaged = false ∧ t.bare = [d] ∧
      (∀ c ∈ t.children, c.Snug) ∧ ∀ r, (Run.start input).Reaches r → r.Untroubled := by
  obtain ⟨t, ht, hparts⟩ := exists_run_of_settled hk hv hd hy hs
  exact ⟨t, Run.toEnd?_of_run ht, hparts⟩

theorem ofScan?_of_settled {input : Scan} {d : Derivation} (hk : Lexeme.Known input.lexemes)
    (hv : d.Valid) (hd : d.symbol = .nonterminal .sourceFile)
    (hy : d.yield = Lexeme.terminals input.lexemes) (hs : d.Settled []) :
    ∃ t, Tree.ofScan? input = some t ∧ t.isDamaged = false ∧ t.bare = [d] ∧
      ∀ r, (Run.start input).Reaches r → r.Untroubled := by
  obtain ⟨t, ht, hsound, hbare, -, hcalm⟩ := ofScan?_of_settled_snug hk hv hd hy hs
  exact ⟨t, ht, hsound, hbare, hcalm⟩

end Tree

end CalcTree
