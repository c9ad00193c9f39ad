import CalcTree.Proofs.Ways
import CalcTree.Run.Reduce

/-!
# Sound runs

A run is sound if its stack graph is, if every head that is not halted stands on a live vertex, and
if the best tree so far holds the whole source. A head is in the accepting state only when there is
nothing left to read.

Reductions keep a run sound (`Sound.reduce`), and so does the end of a parse (`Sound.accept`). Both
rest on what is known of the ways down from a head. The heads that a reduction adds come after the
old ones, which stay where they are.
-/

namespace CalcTree

/-- Whether reading could go on from a vertex, or fail there. -/
def Graph.Good (g : Graph) (v : Nat) : Prop :=
  g.Live v ∧ (g.vertex v).state ≠ .accepting

theorem Graph.Good.mono {g g' : Graph} {v : Nat} (h : g.Good v) (he : g.Extends g') :
    g'.Good v :=
  ⟨h.1.mono he, (he.same v h.1.1).state ▸ h.2⟩

theorem Graph.Sound.good_bottom {g : Graph} {input : Scan} (h : g.Sound input) : g.Good 0 :=
  ⟨h.bottom, by rw [h.bottom_state]; decide⟩

def Head.Sound (input : Scan) (g : Graph) (h : Head) : Prop :=
  h.status ≠ .halted → g.Live h.top ∧ ((g.vertex h.top).state = .accepting →
    h.status = .active ∧ (g.vertex h.top).read = input.lexemes.length)

theorem Head.Sound.mono {input : Scan} {g g' : Graph} {h : Head} (hh : h.Sound input g)
    (he : g.Extends g') : h.Sound input g' := by
  intro hs
  obtain ⟨hlive, hacc⟩ := hh hs
  have hsame := he.same _ hlive.1
  exact ⟨hlive.mono he, fun ha => by rw [← hsame.read]; exact hacc (hsame.state.trans ha)⟩

theorem Graph.Good.head {input : Scan} {g : Graph} {h : Head} (hg : g.Good h.top) :
    h.Sound input g :=
  fun _ => ⟨hg.1, fun ha => absurd ha hg.2⟩

namespace Run

structure Sound (input : Scan) (r : Run) : Prop where
  input_eq : r.input = input
  graph : r.graph.Sound input
  heads : ∀ h ∈ r.heads, h.Sound input r.graph
  best : ∀ m ∈ r.best, m.tree.Whole input

/-- The tops of all heads. -/
def tops (r : Run) : List Nat :=
  r.heads.map Head.top

variable {input : Scan} {r : Run} {v w : Nat}

theorem top_head (r : Run) (v : Nat) : (r.head v).top = r.tops[v]?.getD 0 := by
  rw [head, tops, List.getElem?_map]
  rcases r.heads[v]? with _ | h <;> rfl

/-- The head at a place where there is none stands at the bottom. -/
theorem Sound.head (h : r.Sound input) (v : Nat) : (r.head v).Sound input r.graph := by
  rcases hv : r.heads[v]? with _ | hd
  · rw [Run.head, hv]
    exact h.graph.good_bottom.head
  · rw [Run.head, hv]
    exact h.heads hd (List.mem_of_getElem? hv)

theorem Sound.live (h : r.Sound input) (hv : (r.head v).status ≠ .halted) :
    r.graph.Live (r.head v).top :=
  (h.head v hv).1

/-! ## Changes to the heads -/

theorem Sound.of_heads {r' : Run} (h : r.Sound input) (hi : r'.input = r.input)
    (hg : r'.graph = r.graph) (hb : r'.best = r.best)
    (hh : ∀ hd ∈ r'.heads, hd.Sound input r.graph) : r'.Sound input :=
  ⟨hi.trans h.input_eq, hg ▸ h.graph, by rw [hg]; exact hh, hb ▸ h.best⟩

theorem Sound.setHead (h : r.Sound input) {hd : Head} (hh : hd.Sound input r.graph) :
    (r.setHead v hd).Sound input := by
  refine h.of_heads rfl rfl rfl fun hd' hmem => ?_
  rcases List.mem_or_eq_of_mem_set hmem with hmem | rfl
  · exact h.heads hd' hmem
  · exact hh

theorem Sound.addHead (h : r.Sound input) {hd : Head} (hh : hd.Sound input r.graph) :
    (r.addHead hd).Sound input := by
  refine h.of_heads rfl rfl rfl fun hd' hmem => ?_
  rcases List.mem_append.1 hmem with hmem | hmem
  · exact h.heads hd' hmem
  · rw [List.mem_singleton.1 hmem]
    exact hh

theorem Sound.remove (h : r.Sound input) : (r.remove v).Sound input :=
  h.of_heads rfl rfl rfl fun hd hmem => h.heads hd (List.mem_of_mem_eraseIdx hmem)

theorem Sound.renumber (h : r.Sound input) : (r.renumber w v).Sound input := by
  refine Sound.remove (h.setHead ?_)
  exact h.head w

theorem Sound.rebase (h : r.Sound input) : (r.rebase v).Sound input :=
  h.setHead (h.head v)

theorem set_getD_self (l : List Nat) (i d : Nat) : l.set i (l[i]?.getD d) = l := by
  by_cases hi : i < l.length
  · simp [List.getElem?_eq_getElem hi]
  · exact List.set_eq_of_length_le (by omega)

@[simp]
theorem tops_setHead {hd : Head} : (r.setHead v hd).tops = r.tops.set v hd.top := by
  simp [tops, Run.setHead, List.map_set]

@[simp]
theorem tops_addHead {hd : Head} : (r.addHead hd).tops = r.tops ++ [hd.top] := by
  simp [tops, Run.addHead]

@[simp]
theorem tops_remove : (r.remove v).tops = r.tops.eraseIdx v := by
  simp [tops, Run.remove, List.eraseIdx_map]

@[simp]
theorem tops_rebase : (r.rebase v).tops = r.tops := by
  rw [Run.rebase, tops_setHead]
  simp [top_head, set_getD_self]

@[simp]
theorem length_tops : r.tops.length = r.heads.length := by
  simp [tops]

/-! ## Changes to the graph -/

/-- Whether a sound run has come from another. -/
structure Grown (input : Scan) (r r' : Run) : Prop where
  sound : r'.Sound input
  ext : r.graph.Extends r'.graph

theorem Grown.trans {r' r'' : Run} (h : r.Grown input r') (h' : r'.Grown input r'') :
    r.Grown input r'' :=
  ⟨h'.sound, h.ext.trans h'.ext⟩

theorem Sound.grown (h : r.Sound input) : r.Grown input r :=
  ⟨h, .refl _⟩

theorem Sound.setGraph (h : r.Sound input) {g : Graph} (hg : g.Sound input)
    (he : r.graph.Extends g) : r.Grown input { r with graph := g } :=
  ⟨⟨h.input_eq, hg, fun hd hmem => (h.heads hd hmem).mono he, h.best⟩, he⟩

theorem Sound.merge (hi : input.Spaced) (h : r.Sound input) {r' : Run}
    (hm : r.merge? v w = some r') : r.Grown input r' ∧ r'.tops = r.tops.eraseIdx w := by
  unfold merge? at hm
  split_ifs at hm with hc
  simp only [canMerge, Bool.and_eq_true, beq_iff_eq] at hc
  obtain ⟨⟨hv, hw⟩, hvw⟩ := hc
  have hjoin := h.graph.join hi (h.live (v := v) (by simp [hv])) (h.live (v := w) (by simp [hw]))
    hvw
  have hgrown := h.setGraph hjoin.sound hjoin.ext
  have hhead := (h.head v).mono hjoin.ext
  simp only [Option.some.injEq] at hm
  subst hm
  refine ⟨⟨(hgrown.sound.setHead (v := v) ?_).remove, hgrown.ext⟩, ?_⟩
  · split_ifs
    · exact hhead
    · exact hhead
  · have hself : r.tops.set v (r.head v).top = r.tops := by rw [top_head, set_getD_self]
    refine (tops_remove (r := Run.setHead { r with graph := _ } v _)).trans ?_
    rw [tops_setHead]
    refine congrArg (List.eraseIdx · w) ?_
    split_ifs
    · exact hself
    · exact hself

theorem Sound.mergeAny (hi : input.Spaced) (h : r.Sound input) {vs : List Nat} {r' : Run}
    (hm : r.mergeAny? vs w = some r') : r.Grown input r' ∧ r'.tops = r.tops.eraseIdx w := by
  obtain ⟨v, -, hm⟩ := List.exists_of_findSome?_eq_some hm
  exact h.merge hi hm

theorem Sound.push (h : r.Sound input) {m : Measured} {s : State}
    (hv : r.graph.Live (r.head v).top) (hb : m.tree.Built) (hm : m.tree.Moves (r.state v) s)
    (hl : input.Holds (r.top v).read m.tree.leaves) (hs : s ≠ .accepting) :
    r.Grown input (r.push v m s) ∧ (r.push v m s).tops = r.tops.set v r.graph.vertices.size ∧
      (r.push v m s).graph.Good r.graph.vertices.size := by
  obtain ⟨hsound, hlive⟩ := h.graph.push_tree hv hb hm hl
  have hgrown := h.setGraph hsound Graph.extends_push
  have hgood : (r.graph.push (r.head v).top (some m) s).Good r.graph.vertices.size :=
    ⟨hlive, by rw [Graph.vertex_push_size]; exact hs⟩
  refine ⟨⟨hgrown.sound.setHead (v := v) hgood.head, hgrown.ext⟩, ?_, hgood⟩
  simp [tops, Run.push, List.map_set]

theorem Sound.fall (h : r.Sound input) (hv : r.graph.Good (r.head v).top) :
    r.Grown input (r.fall v) ∧ (r.fall v).tops = r.tops.set v r.graph.vertices.size ∧
      (r.fall v).graph.Good r.graph.vertices.size := by
  obtain ⟨hsound, hlive⟩ := h.graph.push_none hv.1 hv.2
  have hgrown := h.setGraph hsound Graph.extends_push
  have hgood : (r.graph.push (r.head v).top none .error).Good r.graph.vertices.size :=
    ⟨hlive, by rw [Graph.vertex_push_size]; exact State.error_ne_accepting⟩
  refine ⟨⟨hgrown.sound.setHead (v := v) hgood.head, hgrown.ext⟩, ?_, hgood⟩
  simp [tops, Run.fall, List.map_set]

end Run

/-! ## Constructs -/

namespace Graph

/-- What pushing some trees leads to: a vertex in state `s` with `n` lexemes read. -/
structure Stands (input : Scan) (g g' : Graph) (v : Nat) (s : State) (n : Nat) : Prop where
  sound : g'.Sound input
  ext : g.Extends g'
  live : g'.Live v
  state : (g'.vertex v).state = s
  read : (g'.vertex v).read = n

theorem Sound.pushAll_extras {input : Scan} {s : State} (hs : s ≠ .error) :
    ∀ (ts : List Measured) {g : Graph} {v : Nat}, g.Sound input → g.Live v →
      (g.vertex v).state = s → (∀ t ∈ ts, t.tree.Built) → (∀ t ∈ ts, t.tree.isExtra) →
      input.Holds (g.vertex v).read (Tree.leavesAll (Measured.trees ts)) →
      Stands input g (g.pushAll v ts s).1 (g.pushAll v ts s).2 s
        ((g.vertex v).read + (Tree.leavesAll (Measured.trees ts)).length)
  | [], g, v, h, hv, hstate, _, _, _ => ⟨h, .refl g, hv, hstate, rfl⟩
  | t :: ts, g, v, h, hv, hstate, hb, he, hl => by
    rw [Measured.trees_cons, Tree.leavesAll] at hl ⊢
    obtain ⟨hl₁, hl₂⟩ := Scan.holds_append.1 hl
    have hread : ((g.push v (some t) s).vertex g.vertices.size).read =
        (g.vertex v).read + t.tree.leaves.length := by
      rw [vertex_push_size]
      simp [Tree.leafCount_eq]
    obtain ⟨hsound, hlive⟩ := h.push_tree (s := s) hv (hb t (by simp))
      (hstate ▸ .extra (he t (by simp)) (hstate ▸ hs)) hl₁
    have ih := Sound.pushAll_extras hs ts hsound hlive (by rw [vertex_push_size])
      (fun u hu => hb u (by simp [hu])) (fun u hu => he u (by simp [hu])) (hread ▸ hl₂)
    rw [hread, Nat.add_assoc, ← List.length_append] at ih
    exact ⟨ih.sound, extends_push.trans ih.ext, ih.live, ih.state, ih.read⟩

/-- Whether trees above a vertex form the parts of a construct, up to the `n`th lexeme. -/
structure Yields (input : Scan) (g : Graph) (p : Production) (n u : Nat) (ts : List Measured) :
    Prop where
  live : g.Live u
  goto : (g.vertex u).state.next (.nonterminal p.lhs) ≠ .error
  built : ∀ t ∈ ts, t.tree.Built
  parts : (Tree.parts (Measured.trees ts)).map Tree.symbol? = p.rhs.map some
  holds : input.Holds (g.vertex u).read (Tree.leavesAll (Measured.trees ts))
  read : (g.vertex u).read + (Tree.leavesAll (Measured.trees ts)).length = n

variable {input : Scan} {g : Graph} {p : Production} {n u : Nat} {ts : List Measured}

theorem Yields.mono {g' : Graph} (h : g.Yields input p n u ts) (he : g.Extends g') :
    g'.Yields input p n u ts := by
  have hsame := he.same u h.live.1
  exact ⟨h.live.mono he, hsame.state ▸ h.goto, h.built, h.parts, hsame.read ▸ h.holds,
    hsame.read ▸ h.read⟩

/-- All ways to take the parts of a production off a state that reduces by it give its parts. -/
theorem Sound.yields (h : g.Sound input) {v : Nat} (hv : g.Live v)
    (hs : (g.vertex v).state ≠ .error) (hp : (g.vertex v).state.row.reduction = some p) :
    ∀ pop ∈ g.pop v p.rhs.length, pop.alternatives ≠ [] ∧
      ∀ ts ∈ pop.alternatives, g.Yields input p (g.vertex v).read pop.vertex ts := by
  intro pop hpop
  obtain ⟨hne, hways⟩ := pops_pop g v p.rhs.length pop hpop
  refine ⟨hne, fun ts hts => ?_⟩
  obtain ⟨d, hw, rfl⟩ := hways ts hts
  have hway := h.of_leads hv hw
  obtain ⟨-, hc, hparts⟩ := h.parts_of_leads hv hw hs hp (Nat.le_refl _)
  simp only [Nat.sub_self, List.drop_zero] at hc hparts
  exact ⟨hway.live, State.next_of_completes _ p p.mem_all hc, hway.built, hparts, hway.holds,
    hway.read.symm⟩

/-- Pushing the construct that the parts form, and the extra trees after them. -/
theorem Yields.pushAll_construct (hy : g.Yields input p n u ts) (h : g.Sound input) :
    let c := Run.construct p ts
    let s := (g.vertex u).state.next (.nonterminal p.lhs)
    Stands input g (g.pushAll u (c.1 :: c.2) s).1 (g.pushAll u (c.1 :: c.2) s).2 s n := by
  intro c s
  set kept := (Measured.splitExtras ts).1
  set extras := (Measured.splitExtras ts).2
  have hsplit : kept ++ extras = ts := Measured.splitExtras_append ts
  have hextra : ∀ t ∈ extras, t.tree.isExtra := fun t ht =>
    Measured.isExtra_of_mem_splitExtras ht
  have hbuilt : ∀ t ∈ kept ++ extras, t.tree.Built := hsplit.symm ▸ hy.built
  have hholds := hy.holds
  have hparts := hy.parts
  have hread := hy.read
  rw [← hsplit, Measured.trees_append, Tree.leavesAll_append] at hholds hread
  obtain ⟨hl₁, hl₂⟩ := Scan.holds_append.1 hholds
  -- The parts are among the trees that stay with the construct.
  have hkept : (Tree.parts (Measured.trees kept)).map Tree.symbol? = p.rhs.map some := by
    have hnil : Tree.parts (Measured.trees extras) = [] := by
      refine List.filter_eq_nil_iff.2 fun t ht => ?_
      obtain ⟨m, hm, rfl⟩ := Measured.mem_trees.1 ht
      simp [hextra m hm]
    rwa [← hsplit, Measured.trees_append, Tree.parts_append, hnil, List.append_nil] at hparts
  have hnode : c.1.tree.Built := by
    refine .node p _ hkept fun t ht => ?_
    obtain ⟨m, hm, rfl⟩ := Measured.mem_trees.1 ht
    exact hbuilt m (List.mem_append_left _ hm)
  obtain ⟨hsound, hlive⟩ := h.push_tree (m := c.1) (s := s) hy.live hnode
    (.part _ rfl rfl hy.goto) hl₁
  have hread' : ((g.push u (some c.1) s).vertex g.vertices.size).read =
      (g.vertex u).read + (Tree.leavesAll (Measured.trees kept)).length := by
    rw [vertex_push_size]
    simp only [Option.map_some, Option.getD_some, Measured.leafCount_eq, Tree.leafCount_eq]
    rfl
  have hrest := Sound.pushAll_extras (s := s) hy.goto extras hsound hlive
    (by rw [vertex_push_size]) (fun t ht => hbuilt t (List.mem_append_right _ ht)) hextra
    (hread' ▸ hl₂)
  rw [List.length_append] at hread
  refine ⟨hrest.sound, extends_push.trans hrest.ext, hrest.live, hrest.state, ?_⟩
  rw [← hread, ← Nat.add_assoc, ← hread']
  exact hrest.read

end Graph

namespace Run

variable {input : Scan} {r r' r'' : Run} {v n : Nat} {p : Production}

theorem bestConstruct_eq (p : Production) (first : List Measured) :
    ∀ others : List (List Measured),
      ∃ ts ∈ first :: others, bestConstruct p first others = construct p ts := by
  intro others
  induction others using List.reverseRecOn with
  | nil => exact ⟨first, by simp, rfl⟩
  | append_singleton others ts ih =>
    obtain ⟨us, hus, heq⟩ := ih
    unfold bestConstruct at heq ⊢
    rw [List.foldl_append, heq]
    simp only [List.foldl_cons, List.foldl_nil]
    split_ifs
    · exact ⟨ts, by simp, rfl⟩
    · refine ⟨us, ?_, rfl⟩
      rw [← List.cons_append]
      exact List.mem_append_left _ hus

/-- Whether a run has come from another by adding heads after the old ones, which go on reading
if `P` holds. -/
structure Added (input : Scan) (P : Prop) (r r' : Run) : Prop where
  grown : r.Grown input r'
  tops : ∃ new, r'.tops = r.tops ++ new ∧ (P → ∀ u ∈ new, r'.graph.Good u)

variable {P : Prop}

theorem Added.trans (h : r.Added input P r') (h' : r'.Added input P r'') :
    r.Added input P r'' := by
  obtain ⟨new, htops, hgood⟩ := h.tops
  obtain ⟨new', htops', hgood'⟩ := h'.tops
  refine ⟨h.grown.trans h'.grown, new ++ new', by rw [htops', htops, List.append_assoc], ?_⟩
  intro hp u hu
  rcases List.mem_append.1 hu with hu | hu
  · exact (hgood hp u hu).mono h'.grown.ext
  · exact hgood' hp u hu

theorem Sound.added (h : r.Sound input) : r.Added input P r :=
  ⟨h.grown, [], by simp, by simp⟩

theorem Sound.addReduced (hi : input.Spaced) (h : r.Sound input)
    (hn : p.lhs = .sourceFile → n = input.lexemes.length) {pop : Graph.Pop}
    (hy : ∀ ts ∈ pop.alternatives, r.graph.Yields input p n pop.vertex ts) :
    r.Added input (p.lhs ≠ .sourceFile) (addReduced v p r pop) := by
  unfold Run.addReduced
  split
  · exact h.added
  rename_i first others halt
  simp only []
  split_ifs
  · exact h.added
  obtain ⟨ts, hts, hbest⟩ := bestConstruct_eq p first others
  have hstands := (hy ts (halt ▸ hts)).pushAll_construct h.graph
  simp only [hbest]
  set s := (r.graph.vertex pop.vertex).state.next (.nonterminal p.lhs) with hs
  set pushed := r.graph.pushAll pop.vertex ((construct p ts).1 :: (construct p ts).2) s
  set hd : Head := ⟨pushed.2, (r.head v).base, .active, none⟩
  have hgrown := h.setGraph hstands.sound hstands.ext
  have hgood : p.lhs ≠ .sourceFile → pushed.1.Good pushed.2 := by
    refine fun hp => ⟨hstands.live, fun hacc => hp ?_⟩
    rw [hstands.state] at hacc
    simpa using (State.eq_of_next_eq_accepting (by simp) hacc).1
  have hhead : hd.Sound input pushed.1 := by
    refine fun _ => ⟨hstands.live, fun hacc => ⟨rfl, ?_⟩⟩
    by_contra hne
    refine (hgood fun hp => hne ?_).2 hacc
    rw [← hn hp]
    exact hstands.read
  have hadd := hgrown.sound.addHead hhead
  rcases hm : (Run.addHead { r with graph := pushed.1 } hd).mergeAny?
    ((List.range r.heads.length).filter (· ≠ v)) r.heads.length with _ | r'
  · refine ⟨⟨hadd, hgrown.ext⟩, [pushed.2], tops_addHead, fun hp u hu => ?_⟩
    rw [List.mem_singleton.1 hu]
    exact hgood hp
  · obtain ⟨hmerged, htops⟩ := hadd.mergeAny hi hm
    refine ⟨⟨hmerged.sound, hgrown.ext.trans hmerged.ext⟩, [], ?_, by simp⟩
    rw [Option.getD_some, htops, tops_addHead, ← length_tops, List.append_nil]
    exact List.eraseIdx_append_of_length_le (Nat.le_refl _) _ |>.trans (by simp [tops])

theorem Sound.addReduced_foldl (hi : input.Spaced)
    (hn : p.lhs = .sourceFile → n = input.lexemes.length) :
    ∀ (pops : List Graph.Pop) {r : Run}, r.Sound input →
      (∀ pop ∈ pops, ∀ ts ∈ pop.alternatives, r.graph.Yields input p n pop.vertex ts) →
      r.Added input (p.lhs ≠ .sourceFile) (pops.foldl (Run.addReduced v p) r)
  | [], _, h, _ => h.added
  | pop :: pops, r, h, hy => by
    have hadd := h.addReduced (v := v) hi hn (hy pop (by simp))
    refine hadd.trans (Sound.addReduced_foldl hi hn pops hadd.grown.sound ?_)
    exact fun pop' hpop' ts hts => (hy pop' (by simp [hpop']) ts hts).mono hadd.grown.ext

theorem Sound.reduce (hi : input.Spaced) (h : r.Sound input)
    (hv : r.graph.Live (r.head v).top) (hs : r.state v ≠ .error)
    (hp : (r.state v).row.reduction = some p)
    (hn : p.lhs = .sourceFile → (r.top v).read = input.lexemes.length) :
    r.Added input (p.lhs ≠ .sourceFile) (r.reduce v p).1 := by
  refine h.addReduced_foldl hi hn _ fun pop hpop ts hts => ?_
  exact (h.graph.yields hv hs hp pop hpop).2 ts hts

end Run

/-! ## The end of a parse -/

namespace Measured

/-- The root of a file takes in the trees around the file, and the end of the source. -/
theorem root?_of_node {m : Measured} {p : Production} {cs : List Tree}
    (before behind : List Measured) (blank : List Char) (hm : m.tree = .node p cs)
    (hbehind : ∀ e ∈ behind, e.isExtra) :
    ∃ root, root? (before ++ m :: (behind ++ [.ofTree (.finish blank)])) = some root ∧
      root.tree = .node p (trees before ++ cs ++ trees behind ++ [.finish blank]) := by
  have hextra : m.isExtra = false := by simp [isExtra, hm, Tree.isExtra]
  have hes : ∀ e ∈ behind ++ [.ofTree (.finish blank)], e.isExtra := by
    intro e he
    rcases List.mem_append.1 he with he | he
    · exact hbehind e he
    · rw [List.mem_singleton.1 he]
      rfl
  refine ⟨node p (before ++ cs.map ofTree ++ (behind ++ [.ofTree (.finish blank)])), ?_, ?_⟩
  · simp [root?, splitExtras_of_isExtra hextra hes, hm]
  · simp only [node, trees_append, trees_map_ofTree, List.append_assoc]
    rfl

theorem root?_of_error {m : Measured} {cs : List Tree} (ms es : List Measured)
    (hm : m.tree = .error false cs) (hes : ∀ e ∈ es, e.isExtra) :
    root? (ms ++ m :: es) = some (error false (ms ++ cs.map ofTree ++ es)) := by
  have hextra : m.isExtra = false := by simp [isExtra, hm, Tree.isExtra]
  simp [root?, splitExtras_of_isExtra hextra hes, hm]

end Measured

namespace Graph

variable {input : Scan} {g : Graph} {v : Nat} {w : Way}

/-- Nothing is claimed of the vertices on which a parse ends. -/
theorem Sound.push_closing (h : g.Sound input) {m : Measured} {s : State}
    (hm : m.tree.closes) : (g.push v (some m) s).Sound input := by
  have hext : g.Extends (g.push v (some m) s) := extends_push
  have hold : ∀ u, (g.push v (some m) s).Live u →
      g.Live u ∧ (g.push v (some m) s).vertex u = g.vertex u := by
    intro u hu
    have hne : u ≠ g.vertices.size := by
      rintro rfl
      have hopen := hu.2
      rw [vertex_push_size] at hopen
      simp [Vertex.isOpen, hm] at hopen
    have hlt : u < g.vertices.size := by
      have := hu.1
      rw [size_push] at this
      omega
    have heq : (g.push v (some m) s).vertex u = g.vertex u := vertex_push_of_lt hlt
    exact ⟨⟨hlt, heq ▸ hu.2⟩, heq⟩
  refine ⟨h.bottom.mono hext, ?_, ?_, ?_, ?_, ?_⟩
  · rw [vertex_push_of_lt h.bottom.1]
    exact h.bottom_state
  · intro u hu
    obtain ⟨hu', heq⟩ := hold u hu
    rw [heq]
    exact h.read_le u hu'
  · intro u hu
    obtain ⟨hu', heq⟩ := hold u hu
    rw [heq]
    exact h.position u hu'
  · intro u hu hl
    obtain ⟨hu', heq⟩ := hold u hu
    rw [linksOf, heq] at hl
    rw [heq]
    exact h.unlinked u hu' hl
  · intro u hu l hl
    obtain ⟨hu', heq⟩ := hold u hu
    rw [linksOf, heq] at hl
    obtain ⟨hlive, hfit⟩ := h.links u hu' l hl
    refine ⟨hlive.mono hext, ?_⟩
    rw [heq, vertex_push_of_lt hlive.1]
    exact hfit

/-- A way down from a vertex with a single link goes over that link first. -/
theorem Leads.of_link {m : Measured} {u : Nat} (hv : g.linksOf v = [⟨u, some m⟩])
    (hw : g.Leads v w) : w.vertex = v ∧ w.trees = [] ∨
      ∃ w₀, g.Leads u w₀ ∧ w.vertex = w₀.vertex ∧ w.trees = w₀.trees ++ [m] := by
  induction hw with
  | start => exact .inl ⟨rfl, rfl⟩
  | @follow w l hw hl ih =>
    rcases ih with ⟨hvertex, htrees⟩ | ⟨w₀, hw₀, hvertex, htrees⟩
    · rw [hvertex, hv, List.mem_singleton] at hl
      subst hl
      exact .inr ⟨_, .start, by simp [Way.follow], by simp [Way.follow, htrees]⟩
    · refine .inr ⟨w₀.follow l, .follow hw₀ (hvertex ▸ hl), ?_, ?_⟩
      · unfold Way.follow
        split <;> rfl
      · unfold Way.follow
        split <;> simp [htrees]

theorem linksOf_push_size {t : Option Measured} {s : State} :
    (g.push v t s).linksOf g.vertices.size = [⟨v, t⟩] := by
  rw [linksOf, vertex_push_size]

/-- What all ways to the bottom pass. -/
theorem Sound.leaves_of_leads (h : g.Sound input) (hv : g.Live v) (hw : g.Leads v w)
    (hnil : g.linksOf w.vertex = []) (hread : (g.vertex v).read = input.lexemes.length) :
    Tree.leavesAll (Measured.trees w.trees) = input.lexemes := by
  have hway := h.of_leads hv hw
  have hbottom := (h.unlinked _ hway.live hnil).2
  have hholds := hway.holds
  have hlen := hway.read
  rw [hbottom] at hholds hlen
  exact hholds.eq_of_length (by simp only [List.drop_zero]; omega)

/-- A whole file at the end of the source is the tree of the source. -/
theorem Sound.whole_of_accepting (h : g.Sound input) (hv : g.Live v) (hw : g.Leads v w)
    (hnil : g.linksOf w.vertex = []) (hread : (g.vertex v).read = input.lexemes.length)
    (hs : (g.vertex v).state = .accepting) {m : Measured}
    (hm : Measured.root? (w.trees ++ [.ofTree (.finish input.trailing)]) = some m) :
    m.tree.Whole input := by
  have hway := h.of_leads hv hw
  have hleaves := h.leaves_of_leads hv hw hnil hread
  have hstart := (h.unlinked _ hway.live hnil).1
  obtain ⟨-, before, file, behind, htrees, hfile, hextra⟩ :=
    (h.file_of_leads hv hw hs).resolve_left (by rw [hstart]; decide)
  obtain ⟨p, cs, hp, hnode⟩ : ∃ p cs, p.lhs = .sourceFile ∧ file.tree = .node p cs := by
    rcases hf : file.tree with l | _ | _ | ⟨p, cs⟩ | _ | _ <;>
      simp only [Tree.IsFile, hf, Tree.symbol?] at hfile
    · split at hfile <;> simp at hfile
    · simp at hfile
    · simp at hfile
    · exact ⟨p, cs, by simpa using hfile, rfl⟩
    · simp at hfile
    · simp at hfile
  have hbuilt : ∀ t ∈ before ++ file :: behind, t.tree.Built := htrees ▸ hway.built
  obtain ⟨root, hroot, hshape⟩ := Measured.root?_of_node before behind input.trailing hnode
    fun e he => hextra e (List.mem_append_right _ he)
  rw [htrees, List.append_assoc, List.cons_append, hroot, Option.some.injEq] at hm
  rw [← hm, hshape]
  refine .file p _ hp (Tree.Built.widen (hnode ▸ hbuilt file (by simp)) ?_ ?_) ?_
  · intro t ht
    rw [← Measured.trees_append] at ht
    obtain ⟨m, hm, rfl⟩ := Measured.mem_trees.1 ht
    refine hbuilt m ?_
    rcases List.mem_append.1 hm with hm | hm <;> simp [hm]
  · intro t ht
    rw [← Measured.trees_append] at ht
    obtain ⟨m, hm, rfl⟩ := Measured.mem_trees.1 ht
    exact hextra m hm
  · rw [← hleaves, htrees]
    simp only [Measured.trees_append, Measured.trees_cons, Tree.leavesAll_append, Tree.leavesAll,
      hnode, Tree.leaves, List.append_assoc]

/-- If nothing else comes of it, all that was read is the tree of the source. -/
theorem Sound.whole_of_error (h : g.Sound input) (hv : g.Live v) (hw : g.Leads v w)
    (hnil : g.linksOf w.vertex = []) (hread : (g.vertex v).read = input.lexemes.length)
    (hs : (g.vertex v).state ≠ .accepting) {m : Measured}
    (hm : Measured.root? (w.trees ++ [.error false []] ++ [.ofTree (.finish input.trailing)]) =
      some m) :
    m.tree.Whole input := by
  have hway := h.of_leads hv hw
  have hleaves := h.leaves_of_leads hv hw hnil hread
  have hfile := (h.not_isFile_of_leads hv hw hs).2
  have hroot := @Measured.root?_of_error (.error false []) [] w.trees
    [.ofTree (.finish input.trailing)] rfl (by
      intro e he
      rw [List.mem_singleton.1 he]
      rfl)
  rw [List.append_assoc, List.singleton_append, hroot, Option.some.injEq] at hm
  subst hm
  have hshape : (Measured.error false (w.trees ++ [].map .ofTree ++
      [.ofTree (.finish input.trailing)])).tree =
      .error false (Measured.trees w.trees ++ [.finish input.trailing]) := by
    simp [Measured.error, Measured.trees, Measured.ofTree]
  rw [hshape]
  refine .lost _ ?_ ?_ hleaves
  · intro t ht
    obtain ⟨m, hm, rfl⟩ := Measured.mem_trees.1 ht
    exact hway.built m hm
  · intro t ht
    obtain ⟨m, hm, rfl⟩ := Measured.mem_trees.1 ht
    exact hfile m hm

end Graph

namespace Run

variable {input : Scan} {r : Run} {v : Nat}

theorem finish_foldl (P : Measured → Prop) :
    ∀ (ms : List Measured) (r : Run), (∀ m ∈ ms, P m) → (∀ m ∈ r.best, P m) →
      (ms.foldl finish r).input = r.input ∧ (ms.foldl finish r).graph = r.graph ∧
        (ms.foldl finish r).heads = r.heads ∧ ∀ m ∈ (ms.foldl finish r).best, P m
  | [], _, _, hb => ⟨rfl, rfl, rfl, hb⟩
  | m :: ms, r, hms, hb => by
    refine finish_foldl P ms (r.finish m) (fun m' hm' => hms m' (by simp [hm'])) ?_
    intro m' hm'
    have hm := hms m (by simp)
    simp only [finish] at hm'
    split at hm'
    · rename_i best hbest
      split_ifs at hm'
      · rwa [← Option.some.inj hm']
      · exact hb m' (hbest ▸ hm')
    · rwa [← Option.some.inj hm']

theorem lookahead_of_read (hi : r.input = input) (hread : (r.top v).read = input.lexemes.length) :
    r.lookahead v = .finish input.trailing := by
  simp [lookahead, hi, hread]

theorem head_setHead {hd : Head} (hv : v < r.heads.length) : (r.setHead v hd).head v = hd := by
  simp [Run.setHead, Run.head, hv]

theorem eq_or_mem_of_mem_set {l : List Head} {a b c : Head} (h : a ∈ l.set v b) :
    a = b ∨ a ∈ l.set v c := by
  obtain ⟨i, hi, rfl⟩ := List.mem_iff_getElem.1 h
  rw [List.getElem_set]
  split_ifs with hvi
  · exact .inl rfl
  · refine .inr (List.mem_iff_getElem.2 ⟨i, by simpa using hi, ?_⟩)
    rw [List.getElem_set_ne hvi]

/-- Ending a head keeps a run sound, if all trees it ends with are trees of the source. Nothing
need be known of the head itself. -/
theorem Sound.accept (h : (r.setStatus v .halted).Sound input) (hv : v < r.heads.length)
    (hread : (r.top v).read = input.lexemes.length)
    (hroot : ∀ w, (r.graph.push (r.head v).top (some (.ofTree (.finish input.trailing)))
        .start).Leads (r.head v).top w →
      (r.graph.push (r.head v).top (some (.ofTree (.finish input.trailing)))
        .start).linksOf w.vertex = [] →
      ∀ m, Measured.root? (w.trees ++ [.ofTree (.finish input.trailing)]) = some m →
        m.tree.Whole input) :
    (r.setStatus v .halted).Grown input (r.accept v) := by
  have hlook : r.lookahead v = .finish input.trailing := lookahead_of_read h.input_eq hread
  set fin := Measured.ofTree (.finish input.trailing) with hfin
  set g := r.graph.push (r.head v).top (some fin) .start with hg
  set hd : Head := { r.head v with top := r.graph.vertices.size } with hhd
  have hpush : r.push v fin .start = { r with graph := g, heads := r.heads.set v hd } := rfl
  have htop : (r.push v fin .start).head v = hd := by simp [hpush, Run.head, hv]
  have hgraph : g.Sound input := h.graph.push_closing rfl
  have hext : r.graph.Extends g := Graph.extends_push
  set roots := ((g.popAll r.graph.vertices.size).flatMap (·.alternatives)).filterMap
    Measured.root? with hroots
  have haccept : r.accept v = (roots.foldl finish (r.push v fin .start)).setStatus v .halted := by
    simp only [Run.accept, hlook, ← hfin, htop]
    rfl
  have hwhole : ∀ m ∈ roots, m.tree.Whole input := by
    intro m hm
    obtain ⟨ts, hts, hm⟩ := List.mem_filterMap.1 hm
    obtain ⟨pop, hpop, hts⟩ := List.mem_flatMap.1 hts
    obtain ⟨d, hw, hnil⟩ := (Graph.pops_popAll g _ pop hpop).2 ts hts
    rcases hw.of_link Graph.linksOf_push_size with ⟨hvertex, -⟩ | ⟨w₀, hw₀, hvertex, htrees⟩
    · simp only [] at hvertex hnil
      rw [hvertex, Graph.linksOf_push_size] at hnil
      simp at hnil
    · simp only [] at hvertex htrees hnil
      subst htrees
      exact hroot w₀ hw₀ (hvertex ▸ hnil) m hm
  obtain ⟨hinput, hg', hheads, hbest⟩ :=
    finish_foldl (fun m => m.tree.Whole input) roots (r.push v fin .start) hwhole h.best
  set last := roots.foldl finish (r.push v fin .start)
  rw [haccept]
  refine ⟨⟨hinput.trans h.input_eq, hg' ▸ hgraph, ?_, hbest⟩, hg' ▸ hext⟩
  intro hd' hmem
  have hmem' : hd' ∈ r.heads.set v { last.head v with status := .halted } := by
    simpa [setStatus, Run.setHead, hheads, Run.push] using hmem
  rcases eq_or_mem_of_mem_set hmem' with rfl | hmem'
  · exact fun hne => absurd rfl hne
  · exact (h.heads hd' hmem').mono (hg' ▸ hext)

theorem Sound.setStatus_halted (h : r.Sound input) : (r.setStatus v .halted).Sound input :=
  h.setHead fun hne => absurd rfl hne

theorem Sound.accept_of_accepting (h : r.Sound input) (hv : v < r.heads.length)
    (hlive : r.graph.Live (r.head v).top) (hs : r.state v = .accepting)
    (hread : (r.top v).read = input.lexemes.length) : r.Grown input (r.accept v) := by
  have hgrown := h.setStatus_halted.accept hv hread fun w hw hnil m hm => by
    have heq := Graph.vertex_push_of_lt (v := (r.head v).top) (s := .start)
      (t := some (.ofTree (.finish input.trailing))) hlive.1
    refine (h.graph.push_closing rfl).whole_of_accepting (hlive.mono Graph.extends_push) hw hnil
      ?_ ?_ hm
    · rw [heq]
      exact hread
    · rw [heq]
      exact hs
  exact ⟨hgrown.sound, hgrown.ext⟩

theorem Sound.accept_of_error (h : r.Sound input) (hv : v < r.heads.length)
    (hgood : r.graph.Good (r.head v).top) (hread : (r.top v).read = input.lexemes.length) :
    r.Grown input ((r.push v (.error false []) .start).accept v) := by
  set err := Measured.error false [] with herr
  set g := r.graph.push (r.head v).top (some err) .start with hg
  set hd : Head := { r.head v with top := r.graph.vertices.size } with hhd
  have hpush : r.push v err .start = { r with graph := g, heads := r.heads.set v hd } := rfl
  have hhead : (r.push v err .start).head v = hd := by simp [hpush, Run.head, hv]
  have hgraph : g.Sound input := h.graph.push_closing rfl
  have hext : r.graph.Extends g := Graph.extends_push
  have hlinks : g.linksOf r.graph.vertices.size = [⟨(r.head v).top, some err⟩] :=
    Graph.linksOf_push_size
  have hhalted : ((r.push v err .start).setStatus v .halted).Sound input := by
    have hset := (h.setGraph hgraph hext).sound.setStatus_halted (v := v)
    refine hset.of_heads rfl rfl rfl fun hd' hmem => ?_
    have hmem' : hd' ∈ r.heads.set v { hd with status := .halted } := by
      simpa [setStatus, Run.setHead, hpush, Run.head, hv] using hmem
    rcases eq_or_mem_of_mem_set hmem' with rfl | hmem'
    · exact fun hne => absurd rfl hne
    · exact hset.heads hd' hmem'
  have hgrown := hhalted.accept (by simpa [hpush] using hv) (by
    rw [top, hhead]
    simp only [hpush, hhd, hg, Graph.vertex_push_size]
    exact hread) fun w hw hnil m hm => by
    rw [hhead] at hw hnil
    simp only [hpush] at hw hnil
    set g' := g.push r.graph.vertices.size (some (.ofTree (.finish input.trailing))) .start
      with hg'
    have hsize : r.graph.vertices.size < g.vertices.size := by simp [hg]
    have hext' : g.Extends g' := Graph.extends_push
    have hlinks' : g'.linksOf r.graph.vertices.size = [⟨(r.head v).top, some err⟩] := by
      rw [Graph.linksOf, hg', Graph.vertex_push_of_lt hsize]
      exact hlinks
    have htop : g'.vertex (r.head v).top = r.graph.vertex (r.head v).top := by
      rw [hg', Graph.vertex_push_of_lt (Nat.lt_trans hgood.1.1 hsize), hg,
        Graph.vertex_push_of_lt hgood.1.1]
    rcases Graph.Leads.of_link hlinks' hw with ⟨hvertex, -⟩ | ⟨w₀, hw₀, hvertex, htrees⟩
    · rw [hvertex, hlinks'] at hnil
      simp at hnil
    · rw [htrees] at hm
      refine (hgraph.push_closing rfl).whole_of_error (hgood.1.mono (hext.trans hext')) hw₀
        (hvertex ▸ hnil) ?_ ?_ hm
      · rw [htop]
        exact hread
      · rw [htop]
        exact hgood.2
  exact ⟨hgrown.sound, hext.trans hgrown.ext⟩

end Run

end CalcTree
