import CalcTree.Proofs.Spacing
import CalcTree.Proofs.Spans

/-!
# Blocks of unknown characters

A source of unknown characters, with any blanks in between, is one lexeme that fits nowhere. The
parser passes over it, and at the end of the source has two ways out: all of the source is an
error, or it is an empty file after an error. The second costs no more than the first and comes
later, so it wins, however long the block is (`Unknown.ofScan?_eq`).

The error node and the lexeme in it are both shown and take the same room, so only one of them is
reported (`Document.unknown_block_refused`).
-/

namespace CalcTree

/-! ## Steps of the parser -/

theorem Measured.yieldsTo_of_le {old new : Measured} (h : new.cost ≤ old.cost)
    (hpos : 0 < old.cost) : old.yieldsTo new = true := by
  unfold yieldsTo
  split_ifs with hne
  · simp only [decide_eq_true_eq]
    omega
  · rfl

namespace Run

variable {r r' : Run} {h : Head} {l : Lexeme}

/-- Lets head `v` pass on its turn to the next. -/
def passTurn (r : Run) (v : Nat) : Run :=
  { r with frontier := r.offset v, turn := v + 1 }

theorem step_of_act (hturn : r.turn < r.heads.length)
    (hactive : (r.head r.turn).status = .active) (hact : r.act r.turn = (true, r'))
    (hon : r'.frontier < r'.offset r.turn ∨ 0 < r.turn ∧ r'.offset r.turn = r'.frontier) :
    r.step = .inr (r'.passTurn r.turn) := by
  simp only [step, hturn, hactive, hact, if_true, Bool.or_eq_true, Bool.and_eq_true,
    decide_eq_true_eq, if_pos hon]
  rfl

theorem step_of_act_again (hturn : r.turn < r.heads.length)
    (hactive : (r.head r.turn).status = .active) (hact : r.act r.turn = (false, r')) :
    r.step = .inr r' := by
  simp only [step, hturn, hactive, hact, if_true]

theorem step_of_condense {low : Nat} (hturn : r.heads.length ≤ r.turn)
    (hcondense : r.condense = (low, r')) :
    r.step = if (r'.best.any fun t => t.cost < low) || r.heads.isEmpty
      then .inl (r'.best.map Measured.tree) else .inr { r' with turn := 0 } := by
  simp only [step, hcondense, if_neg (Nat.not_lt.2 hturn)]

/-- Without heads the run is over. -/
theorem step_of_nil (hheads : r.heads = []) : r.step = .inl (r.best.map Measured.tree) := by
  simp [step, condense, contestAll, resume, hheads]

/-- A head with only one way down ends with the tree of that way. -/
theorem accept_of_way {v u : Nat} {look : Tree} (hlook : r.lookahead v = look)
    {trees : List Measured} {root : Measured}
    (hpop : (r.push v (.ofTree look) .start).graph.popAll
      ((r.push v (.ofTree look) .start).head v).top = [⟨u, [trees]⟩])
    (hroot : Measured.root? trees = some root) :
    r.accept v = ((r.push v (.ofTree look) .start).finish root).setStatus v .halted := by
  simp only [accept, hlook, hpop, List.flatMap_cons, List.flatMap_nil, List.append_nil,
    List.filterMap_cons, hroot, List.filterMap_nil, List.foldl_cons, List.foldl_nil]

/-! ## Recovery of a head that is alone -/

theorem reduceAll_start (hheads : r.heads = [h]) (hs : r.state 0 = .start) :
    r.reduceAll 0 none = (true, r) := by
  have hreduces : reducesAny? .start Terminal.all = none := by decide
  have hshifts : shiftsAny .start Terminal.all = true := by decide
  simp [reduceAll, reduceLoop, hheads, hs, hreduces, hshifts, mergeAny?]

theorem actionOn_unknown (hl : l.kind = .unknown) (s : State) : actionOn s (.leaf l) = none := by
  simp [actionOn, symbol?, hl]

/-- No token is made up in front of unknown characters. -/
theorem insertMissing_unknown (hl : l.kind = .unknown) (w : Nat) :
    ∀ (ts : List Terminal) (r : Run), insertMissing w (.leaf l) ts r = (false, r)
  | [], _ => rfl
  | t :: ts, r => by
    simp only [insertMissing, actionOn_unknown hl]
    split
    · rename_i hsome
      cases hsome
    · exact insertMissing_unknown hl w ts r

/-- As long as there is no tree, a head that is alone may go on at any cost. -/
theorem outranked_alone (hheads : r.heads = [h]) (hbest : r.best = none) (cost : Nat) :
    r.outranked 0 cost = (false, r.rebase 0) := by
  simp [outranked, hbest, hheads, rebase, setHead, outrankedBy]

theorem goBack_of_error {v cost : Nat} {look : Tree} {m : Graph.Mark} (hm : m.state = .error)
    (ms : List Graph.Mark) (r : Run) :
    goBack v cost look (m :: ms) r = goBack v cost look ms r := by
  rw [goBack]
  simp [hm]

/-- A head that is alone goes back to a mark that is further behind, if it is in another state now
and can read on there. -/
theorem goBack_alone (hheads : r.heads = [h]) (hbest : r.best = none) (hrebase : r.rebase 0 = r)
    {look : Tree} {m : Graph.Mark} (ms : List Graph.Mark) (hm : m.state ≠ .error)
    (hplace : m.position.bytes ≠ (r.top 0).position.bytes) (hstate : r.state 0 ≠ m.state)
    (hlook : (actionOn m.state look).isSome)
    (hreturned : (r.graph.pop (r.head 0).top
      (if 0 < r.progress 0 then m.depth + 1 else m.depth)).foldl (addReturned 0 m.state) r = r')
    (hcount : r.heads.length < r'.heads.length) (cost : Nat) :
    goBack 0 cost look (m :: ms) r = (true, r') := by
  have hothers : ((List.range r.heads.length).any fun w =>
      r.state w = m.state && r.offset w = (r.top 0).position.bytes) = false := by
    simp [hheads, hstate]
  simp only [goBack, hm, hplace, hothers, outranked_alone hheads hbest, hrebase, hlook, hreturned,
    if_pos hcount, decide_false, Bool.or_self, Bool.false_eq_true, if_true, if_false]

end Run

/-! ## A source of one unknown lexeme -/

/-- A source that has only one lexeme, which is unknown. -/
structure Unknown where
  blank : List Char
  text : List Char
  trailing : List Char
  text_ne_nil : text ≠ []

namespace Unknown

open Run

variable (u : Unknown)

def lexeme : Lexeme :=
  ⟨.unknown, u.blank, u.text⟩

def scan : Scan :=
  ⟨[u.lexeme], u.trailing⟩

/-- The lexeme, passed over. -/
def passed : Measured :=
  .skipped [.ofTree (.leaf u.lexeme)]

/-- The lexeme, out of place. -/
def strayed : Measured :=
  .error true [u.passed]

/-- The end of the source. -/
def finish : Measured :=
  .ofTree (.finish u.trailing)

/-- The source as an error. -/
def lost : Measured :=
  .error false [u.passed, u.finish]

/-- The source as an empty file after an error. -/
def file : Measured :=
  .node .emptyFile [u.strayed, u.finish]

theorem bytes_passed_pos : 0 < u.passed.reach.bytes := by
  have hpos := Lexeme.bytes_pos u.text_ne_nil
  simp only [Measured.reach_eq, Tree.reach, Extent.bytes_add, passed, Measured.skipped,
    Measured.trees, Measured.ofTree, List.map_cons, List.map_nil, Tree.size, Tree.sizeAll,
    Lexeme.size, lexeme, Tree.reachAll, Extent.add_zero']
  omega

/-- Blanks at the end cost nothing if they come after the error. -/
theorem yieldsTo_file : u.lost.yieldsTo u.file = true := by
  have hlost : u.lost.cost = Cost.perTree * 1 + 0 + Cost.recovery +
      Cost.ofExtent (u.passed.size + u.finish.reach) := rfl
  have hfile : u.file.cost = Cost.perTree * 1 + 0 + Cost.recovery +
      Cost.ofExtent u.passed.size := rfl
  have hle : Cost.ofExtent u.passed.size ≤ Cost.ofExtent (u.passed.size + u.finish.reach) := by
    simp only [Cost.ofExtent, Extent.bytes_add, Extent.rows_add, Cost.perByte, Cost.perLine]
    omega
  refine Measured.yieldsTo_of_le ?_ ?_
  · omega
  · rw [hlost, Cost.recovery]
    omega

/-! The run, after each of its steps. -/

/-- Where the head could go on: below its fall into the error state it was at the start. -/
def marks : List Graph.Mark :=
  [⟨0, .error, 0⟩, ⟨1, .start, 0⟩]

def paused : Run :=
  { start u.scan with
    heads := [⟨0, 0, .paused, none⟩]
    turn := 1 }

/-- In the error state. -/
def fallen : Run :=
  { u.paused with
    graph := Graph.start.push 0 none .error
    heads := [⟨1, 0, .active, some marks⟩] }

/-- After the lexeme. -/
def beyond : Run :=
  { u.fallen with
    graph := u.fallen.graph.push 1 (some u.passed) .error
    heads := [⟨2, 0, .active, some marks⟩] }

/-- With a second head that went back to the start. -/
def returned : Run :=
  { u.beyond with
    graph := u.beyond.graph.push 0 (some u.strayed) .start
    heads := [⟨2, 0, .active, some marks⟩, ⟨3, 0, .active, none⟩]
    turn := 0 }

/-- Where the first head has ended. -/
def ended : Run :=
  { u.returned with
    graph := (u.returned.graph.push 2 (some (.error false [])) .start).push 4 (some u.finish) .start
    heads := [⟨5, 0, .halted, some marks⟩, ⟨3, 0, .active, none⟩]
    best := some u.lost
    finished := 1 }

/-- Where the second head has a file. -/
def filed : Run :=
  { u.ended.passTurn 0 with
    graph := u.ended.graph.push 3 (some (.node .emptyFile [])) .accepting
    heads := [⟨5, 0, .halted, some marks⟩, ⟨6, 0, .active, none⟩] }

/-- Where both heads have ended. -/
def done : Run :=
  { u.filed with
    graph := u.filed.graph.push 6 (some u.finish) .start
    heads := [⟨5, 0, .halted, some marks⟩, ⟨7, 0, .halted, none⟩]
    best := some u.file
    finished := 2 }

theorem step_start : (start u.scan).step = .inr { u.paused with turn := 0 } :=
  rfl

theorem step_turn : Run.step { u.paused with turn := 0 } = .inr u.paused :=
  rfl

theorem recover_fallen : u.fallen.recover 0 = u.beyond := by
  have hlook : u.fallen.lookahead 0 = .leaf u.lexeme := rfl
  have hkind : (Tree.leaf u.lexeme).kind = .error := rfl
  have hrebase : u.fallen.rebase 0 = u.fallen := rfl
  simp only [recover, hlook, hkind, hrebase, if_true, goBack,
    outranked_alone (r := u.fallen) rfl rfl]
  rfl

theorem handleError_paused : (u.paused.setStatus 0 .active).handleError 0 = u.beyond := by
  set active := u.paused.setStatus 0 .active
  have hlook : active.lookahead 0 = .leaf u.lexeme := rfl
  rw [← recover_fallen]
  simp only [handleError, hlook, reduceAll_start (r := active) rfl rfl, fallAll,
    insertMissing_unknown (l := u.lexeme) rfl]
  rfl

theorem step_paused : u.paused.step = .inr { u.beyond with turn := 0 } := by
  have hcondense : u.paused.condense = (Cost.recovery, u.beyond) := by
    rw [← handleError_paused]
    rfl
  rw [step_of_condense (r := u.paused) (Nat.le_refl 1) hcondense]
  rfl

theorem goBack_beyond (cost : Nat) :
    goBack 0 cost (.finish u.trailing) marks { u.beyond with turn := 0 } = (true, u.returned) := by
  set r : Run := { u.beyond with turn := 0 }
  have hplace : (0 : Extent).bytes ≠ (r.top 0).position.bytes := by
    have hposition : (r.top 0).position.bytes = 0 + 0 + u.passed.reach.bytes := rfl
    have hpos := u.bytes_passed_pos
    rw [hposition, Extent.bytes_zero]
    omega
  have hstate : r.state 0 ≠ .start := show State.error ≠ State.start by decide
  -- The lexeme and the link into the error state are two parts.
  have hpop : r.graph.pop (r.head 0).top (if 0 < r.progress 0 then 2 else 1) =
      [⟨0, [[u.passed]]⟩] := rfl
  have hcount : r.heads.length < u.returned.heads.length := Nat.lt_succ_self 1
  rw [marks, goBack_of_error rfl]
  refine goBack_alone (r := r) rfl rfl rfl [] (by decide) hplace hstate rfl ?_ hcount cost
  rw [hpop]
  rfl

theorem popAll_ended :
    u.ended.graph.popAll 5 = [⟨0, [[u.passed, .error false [], u.finish]]⟩] :=
  rfl

/-- The first head ends at the end of the source. -/
theorem accept_returned : (u.returned.push 0 (.error false []) .start).accept 0 = u.ended := by
  set r := u.returned.push 0 (.error false []) .start
  have hlook : r.lookahead 0 = .finish u.trailing := rfl
  have hpop : (r.push 0 (.ofTree (.finish u.trailing)) .start).graph.popAll
      ((r.push 0 (.ofTree (.finish u.trailing)) .start).head 0).top = _ :=
    u.popAll_ended
  have hroot : Measured.root? [u.passed, .error false [], u.finish] = some u.lost := rfl
  rw [accept_of_way hlook hpop hroot]
  rfl

theorem recover_beyond : Run.recover { u.beyond with turn := 0 } 0 = u.ended := by
  set r : Run := { u.beyond with turn := 0 } with hr
  have hlook : r.lookahead 0 = .finish u.trailing := rfl
  have hrebase : r.rebase 0 = r := rfl
  have hmarks : (r.head 0).marks.getD [] = marks := rfl
  have hback := u.goBack_beyond (r.cost 0)
  rw [← hr] at hback
  rw [← accept_returned]
  simp only [recover, hlook, hrebase, Tree.kind, hmarks, reduceCtorEq, if_false, hback]
  rfl

theorem offset_ended : u.ended.offset 0 = u.passed.reach.bytes + u.finish.reach.bytes := by
  have hoffset : u.ended.offset 0 = 0 + 0 + u.passed.reach.bytes + 0 + u.finish.reach.bytes := rfl
  omega

theorem step_beyond : Run.step { u.beyond with turn := 0 } = .inr (u.ended.passTurn 0) := by
  set r : Run := { u.beyond with turn := 0 }
  have hact : r.act 0 = (true, u.ended) := by
    have hlook : r.lookahead 0 = .finish u.trailing := rfl
    have haction : actionOn (r.state 0) (.finish u.trailing) = some .recover := rfl
    simp only [act, hlook, haction]
    rw [recover_beyond]
  have hon : u.ended.frontier < u.ended.offset 0 := by
    rw [offset_ended]
    exact Nat.add_pos_left u.bytes_passed_pos _
  exact step_of_act (r := r) Nat.one_pos rfl hact (.inl hon)

theorem step_ended : (u.ended.passTurn 0).step = .inr u.filed := by
  have hact : (u.ended.passTurn 0).act 1 = (false, u.filed) := rfl
  exact step_of_act_again (r := u.ended.passTurn 0) (Nat.lt_succ_self 1) rfl hact

theorem popAll_done :
    u.done.graph.popAll 7 = [⟨0, [[u.strayed, .node .emptyFile [], u.finish]]⟩] :=
  rfl

/-- The second head ends there too, with a tree that costs no more. -/
theorem accept_filed : u.filed.accept 1 = u.done := by
  set r := u.filed
  have hlook : r.lookahead 1 = .finish u.trailing := rfl
  have hpop : (r.push 1 (.ofTree (.finish u.trailing)) .start).graph.popAll
      ((r.push 1 (.ofTree (.finish u.trailing)) .start).head 1).top = _ :=
    u.popAll_done
  have hbest : (r.push 1 (.ofTree (.finish u.trailing)) .start).best = some u.lost := rfl
  have hroot : Measured.root? [u.strayed, .node .emptyFile [], u.finish] = some u.file := rfl
  rw [accept_of_way hlook hpop hroot]
  simp only [Run.finish, hbest, yieldsTo_file, if_true]
  rfl

theorem step_filed : u.filed.step = .inr (u.done.passTurn 1) := by
  have hact : u.filed.act 1 = (true, u.done) := by
    have hlook : u.filed.lookahead 1 = .finish u.trailing := rfl
    have haction : actionOn (u.filed.state 1) (.finish u.trailing) = some .accept := rfl
    simp only [act, hlook, haction, accept_filed]
  have hon : u.done.offset 1 = u.done.frontier := by
    have hoffset : u.done.offset 1 = 0 + u.passed.reach.bytes + 0 + u.finish.reach.bytes := rfl
    have hfrontier : u.done.frontier = u.ended.offset 0 := rfl
    rw [hfrontier, offset_ended, hoffset]
    omega
  exact step_of_act (r := u.filed) (Nat.lt_succ_self 1) rfl hact (.inr ⟨Nat.one_pos, hon⟩)

/-- The run is over now, or in the next round if the tree costs too much. -/
theorem run_done : (u.done.passTurn 1).run 2 = some u.file.tree := by
  set r := u.done.passTurn 1
  have hcondense : r.condense = (noCost, { r with heads := [] }) := rfl
  have hstep := step_of_condense (r := r) (Nat.le_refl 2) hcondense
  have hbest : r.best = some u.file := rfl
  have hheads : r.heads.isEmpty = false := rfl
  simp only [hbest, hheads, Option.any_some, Option.map_some, Bool.or_false,
    decide_eq_true_eq] at hstep
  split_ifs at hstep with hcost
  · exact run_of_done hstep 1
  · rw [run_of_step hstep, run_of_done (step_of_nil rfl)]
    rfl

theorem ofScan?_eq : Tree.ofScan? u.scan = some u.file.tree := by
  have hrun : (start u.scan).run 8 = some u.file.tree := by
    rw [run_of_step u.step_start, run_of_step u.step_turn, run_of_step u.step_paused,
      run_of_step u.step_beyond, run_of_step u.step_ended, run_of_step u.step_filed, run_done]
  exact toEnd?_of_run hrun

/-! ## What is shown and reported -/

/-- The error node and the lexeme in it start and end together. -/
theorem damage_eq : ∃ error leaf : Node,
    Issue.damage (.root u.file.tree) = [error, leaf] ∧ error.isMissing = false ∧
      error.start = u.lexeme.pad ∧ leaf.start = u.lexeme.pad ∧
      error.stop = u.lexeme.reach ∧ leaf.stop = u.lexeme.reach := by
  rw [Issue.damage_eq]
  exact ⟨_, _, rfl, rfl, Extent.zero_add' _, Extent.zero_add' _, Extent.zero_add' _,
    Extent.zero_add' _⟩

theorem issues_eq : (Document.issues (.root u.file.tree)).value =
    [⟨.unexpected, u.lexeme.pad, u.lexeme.reach.bytes⟩] := by
  obtain ⟨error, leaf, hdamage, hmissing, hstart, hstart', hstop, hstop'⟩ := u.damage_eq
  have hissue : Issue.ofNode error = ⟨.unexpected, u.lexeme.pad, u.lexeme.reach.bytes⟩ := by
    rw [Issue.ofNode, hmissing, hstart, hstop]
    rfl
  rw [Document.issues_of_pairwise rfl, hdamage]
  · simp [Issue.report, hissue, Issue.covers, hstart', hstop']
  · rw [hdamage]
    simp [Issue.inOrder, hstart, hstart', hstop, hstop']

end Unknown

/-! ## Blocks -/

namespace Lexeme

/-- Whether a text starts and ends with unknown characters and has only such and blanks in
between. -/
def IsBlock (cs : List Char) : Prop :=
  (∃ c ∈ cs.head?, isUnknown c) ∧ (∃ c ∈ cs.getLast?, isUnknown c) ∧
    ∀ c ∈ cs, isBlank c || isUnknown c

instance (cs : List Char) : Decidable (IsBlock cs) :=
  decidable_of_iff (cs.head?.any isUnknown ∧ cs.getLast?.any isUnknown ∧
    cs.all fun c => isBlank c || isUnknown c) (by simp [IsBlock, Option.any_eq_true])

theorem isUnknown_iff {c : Char} : isUnknown c ↔ isBlank c = false ∧ starts? c = none := by
  simp [isUnknown]

variable {cs : List Char}

theorem IsBlock.ne_nil (h : IsBlock cs) : cs ≠ [] := by
  obtain ⟨⟨c, hc, -⟩, -⟩ := h
  exact List.ne_nil_of_mem (List.mem_of_mem_head? hc)

theorem IsBlock.unknownRun_eq (h : IsBlock cs) : unknownRun cs = cs := by
  obtain ⟨-, ⟨c, hc, hunknown⟩, hall⟩ := h
  obtain ⟨cs, rfl⟩ := List.getLast?_eq_some_iff.1 hc
  have hlast : (cs ++ [c]).reverse.dropWhile isBlank = (cs ++ [c]).reverse := by
    simp [(isUnknown_iff.1 hunknown).1]
  have hhalts : Halts [] := by simp [Halts]
  have hrun := (unknownRun_append_iff hall).2 ⟨hlast, hhalts⟩
  rwa [List.append_nil] at hrun

end Lexeme

/-- A block is one lexeme. -/
theorem Scan.ofChars_block {cs : List Char} (h : Lexeme.IsBlock cs)
    (hmark : cs.head? ≠ some Lexeme.byteOrderMark) : ofChars cs = ⟨[⟨.unknown, [], cs⟩], []⟩ := by
  have hrun := h.unknownRun_eq
  obtain ⟨⟨c, hc, hunknown⟩, -⟩ := h
  obtain ⟨cs, rfl⟩ := List.head?_eq_some_iff.1 hc
  obtain ⟨hblank, hstarts⟩ := Lexeme.isUnknown_iff.1 hunknown
  have hfirst : Lexeme.first c cs = (.unknown, c :: cs) := by
    rw [Lexeme.first, hstarts, hrun]
  have hafter : after (cs.length + 2) [] ([] ++ c :: cs) = _ :=
    after_of_first cs (List.forall_mem_nil _) hblank
  rw [hfirst, List.drop_length, after_of_blank (List.forall_mem_nil _)] at hafter
  rw [ofChars, if_neg (by simpa using hmark)]
  exact hafter

namespace Document

/-- A block of unknown characters is refused with one issue, which takes in all of it. -/
theorem unknown_block_refused {source : String} (h : Lexeme.IsBlock source.toList)
    (hmark : source.toList.head? ≠ some Lexeme.byteOrderMark) :
    ∃ d, (parse source).value = .ok d ∧ d.root.isDamaged = true ∧
      (issues d.root).value = [⟨.unexpected, 0, source.utf8ByteSize⟩] ∧
      (check source).value =
        .error (.invalid 1 1 [⟨.unexpected, 0, source.utf8ByteSize⟩]) := by
  let u : Unknown := ⟨[], source.toList, [], h.ne_nil⟩
  have hparse : (parse source).value = .ok ⟨source, .root u.file.tree⟩ := by
    rw [parse_eq_ok_iff, ofSource?, Tree.ofChars?, Scan.ofChars_block h hmark]
    exact congrArg (Option.map _) u.ofScan?_eq
  have hreach : u.lexeme.reach.bytes = source.utf8ByteSize := by
    have hbytes := Extent.bytes_ofChars source.toList
    rw [String.ofList_toList] at hbytes
    rw [← hbytes, Lexeme.reach, Extent.bytes_add]
    exact Nat.zero_add _
  have hissues : (issues (.root u.file.tree)).value = [⟨.unexpected, 0, source.utf8ByteSize⟩] := by
    rw [u.issues_eq, hreach]
    rfl
  have hstart : (issues (.root u.file.tree)).value.head?.map Issue.start = some 0 := by
    rw [hissues]
    rfl
  refine ⟨_, hparse, rfl, hissues, ?_⟩
  rw [check_of_isDamaged hparse rfl hstart, hissues]
  rfl

theorem unknown_block_of_two_lines : Lexeme.IsBlock "é \n€".toList ∧
    (check "é \n€").value = .error (.invalid 1 1 [⟨.unexpected, 0, 7⟩]) := by
  have h : Lexeme.IsBlock "é \n€".toList := by decide
  obtain ⟨-, -, -, -, hcheck⟩ := unknown_block_refused h (by decide)
  exact ⟨h, hcheck⟩

end Document

end CalcTree
