import CalcTree.Proofs.Built
import CalcTree.Proofs.Table
import CalcTree.Stack.Walk

/-!
# Sound stack graphs

Every vertex of the stack graph stands for some of the lexemes, counted from the first, and every
link for those between two vertices. So whatever way leads down from a vertex to the bottom, the
trees on it hold exactly the lexemes that the vertex stands for, in order
(`Sound.holds_of_leads`). The states on the way follow the automaton's table, except that nothing
more is known where the error state is entered.

Two vertices in the same place stand for the same lexemes, because every lexeme takes room. So
giving the links of one to the other keeps the graph sound (`Sound.join`).

When a parse ends it puts vertices on top which no other parse ever builds upon. Nothing is said
about these; all others are live.
-/

namespace CalcTree

namespace Scan

/-- Whether the lexemes from number `i` on start with the given ones. -/
def Holds (input : Scan) (i : Nat) (ls : List Lexeme) : Prop :=
  ls <+: input.lexemes.drop i

variable {input : Scan} {i : Nat}

theorem holds_nil : input.Holds i [] :=
  List.nil_prefix

theorem holds_append {ls ms : List Lexeme} :
    input.Holds i (ls ++ ms) ↔ input.Holds i ls ∧ input.Holds (i + ls.length) ms := by
  constructor
  · rintro ⟨rest, h⟩
    rw [List.append_assoc] at h
    refine ⟨⟨ms ++ rest, h⟩, rest, ?_⟩
    rw [← List.drop_drop, ← h, List.drop_left]
  · rintro ⟨⟨rest, h⟩, ⟨rest', h'⟩⟩
    refine ⟨rest', ?_⟩
    rw [← List.drop_drop, ← h, List.drop_left] at h'
    rw [List.append_assoc, h', h]

theorem holds_singleton {l : Lexeme} (h : input.lexemes[i]? = some l) : input.Holds i [l] := by
  obtain ⟨hi, rfl⟩ := List.getElem?_eq_some_iff.1 h
  exact ⟨input.lexemes.drop (i + 1), (List.drop_eq_getElem_cons hi).symm⟩

theorem Holds.length_le {ls : List Lexeme} (h : input.Holds i ls) (hi : i ≤ input.lexemes.length) :
    i + ls.length ≤ input.lexemes.length := by
  have := List.IsPrefix.length_le h
  rw [List.length_drop] at this
  omega

/-- The room of the first `i` lexemes. -/
def room (input : Scan) (i : Nat) : Extent :=
  Lexeme.reachAll (input.lexemes.take i)

theorem Holds.room_add {ls : List Lexeme} (h : input.Holds i ls) :
    input.room (i + ls.length) = input.room i + Lexeme.reachAll ls := by
  obtain ⟨rest, h⟩ := h
  rw [room, room, ← Lexeme.reachAll_append]
  congr 1
  rw [List.take_add, ← h, List.take_left]

/-- Whether every lexeme takes room. -/
def Spaced (input : Scan) : Prop :=
  ∀ l ∈ input.lexemes, 0 < l.reach.bytes

theorem Spaced.bytes_lt (h : input.Spaced) {i j : Nat} (hij : i < j)
    (hj : j ≤ input.lexemes.length) : (input.room i).bytes < (input.room j).bytes := by
  obtain ⟨k, rfl⟩ : ∃ k, j = i + 1 + k := ⟨j - (i + 1), by omega⟩
  have hl := h input.lexemes[i] (List.getElem_mem _)
  have hholds : input.Holds i (input.lexemes.drop i |>.take (1 + k)) := List.take_prefix _ _
  have hlen : (input.lexemes.drop i |>.take (1 + k)).length = 1 + k := by
    rw [List.length_take, List.length_drop]
    omega
  have hroom := hholds.room_add
  rw [hlen, ← Nat.add_assoc] at hroom
  rw [hroom, List.drop_eq_getElem_cons (by omega), Nat.add_comm 1 k, List.take_succ_cons,
    Lexeme.reachAll, Extent.bytes_add, Extent.bytes_add]
  omega

theorem Spaced.room_inj (h : input.Spaced) {i j : Nat} (hi : i ≤ input.lexemes.length)
    (hj : j ≤ input.lexemes.length) (hij : (input.room i).bytes = (input.room j).bytes) :
    i = j := by
  rcases Nat.lt_trichotomy i j with hlt | heq | hlt
  · have := h.bytes_lt hlt hj
    omega
  · exact heq
  · have := h.bytes_lt hlt hi
    omega

end Scan

/-- The trees with which a parse ends. -/
def Tree.closes : Tree → Bool
  | .finish _ => true
  | .error extra _ => !extra
  | _ => false

theorem Tree.Built.closes_eq_false {t : Tree} (h : t.Built) : t.closes = false := by
  cases h <;> rfl

/-- How reading a tree changes the state. -/
inductive Tree.Moves (t : Tree) (s : State) : State → Prop
  | part (X : Symbol) (he : t.isExtra = false) (hX : t.symbol? = some X)
      (hs : s.next X ≠ .error) : Moves t s (s.next X)
  | extra (he : t.isExtra) (hs : s ≠ .error) : Moves t s s
  | skipped (hk : t.kind = .skipped) (hs : s ≠ .accepting) : Moves t s .error

/-- Whether a link may lead from `v` down to `u`. -/
inductive Link.Fits (input : Scan) (u : Vertex) : Option Measured → Vertex → Prop
  | fallen {v : Vertex} (hv : v.state = .error) (hu : u.state ≠ .accepting)
      (hr : v.read = u.read) : Fits input u none v
  | tree {t : Measured} {v : Vertex} (hb : t.tree.Built) (hm : t.tree.Moves u.state v.state)
      (hl : input.Holds u.read t.tree.leaves) (hr : v.read = u.read + t.tree.leaves.length) :
      Fits input u (some t) v

/-- Whether no parse ends in a vertex. The first of its links tells. -/
def Vertex.isOpen (a : Vertex) : Bool :=
  !(a.links.head?.any fun l => l.tree.any (·.tree.closes))

/-- What never changes about a vertex. -/
structure Vertex.Same (a b : Vertex) : Prop where
  state : a.state = b.state
  read : a.read = b.read
  position : a.position = b.position
  isOpen : a.isOpen = b.isOpen

theorem Link.Fits.congr {input : Scan} {u v u' v' : Vertex} {t : Option Measured}
    (h : Link.Fits input u t v) (hu : u.state = u'.state) (hur : u.read = u'.read)
    (hv : v.state = v'.state) (hvr : v.read = v'.read) : Link.Fits input u' t v' := by
  cases h with
  | fallen hs hua hr => exact .fallen (hv ▸ hs) (hu ▸ hua) (by omega)
  | tree hb hm hl hr => exact .tree hb (hu ▸ hv ▸ hm) (hur ▸ hl) (by omega)

namespace Graph

def Live (g : Graph) (v : Nat) : Prop :=
  v < g.vertices.size ∧ (g.vertex v).isOpen

structure Sound (input : Scan) (g : Graph) : Prop where
  bottom : g.Live 0
  bottom_state : (g.vertex 0).state = .start
  read_le : ∀ v, g.Live v → (g.vertex v).read ≤ input.lexemes.length
  position : ∀ v, g.Live v → (g.vertex v).position = input.room (g.vertex v).read
  unlinked : ∀ v, g.Live v → g.linksOf v = [] →
    (g.vertex v).state = .start ∧ (g.vertex v).read = 0
  links : ∀ v, g.Live v → ∀ l ∈ g.linksOf v,
    g.Live l.target ∧ Link.Fits input (g.vertex l.target) l.tree (g.vertex v)

/-- Whether one graph has come from another: vertices are only added. -/
structure Extends (g g' : Graph) : Prop where
  size : g.vertices.size ≤ g'.vertices.size
  same : ∀ v < g.vertices.size, (g.vertex v).Same (g'.vertex v)

theorem Extends.refl (g : Graph) : g.Extends g :=
  ⟨Nat.le_refl _, fun _ _ => ⟨rfl, rfl, rfl, rfl⟩⟩

theorem Extends.trans {g g' g'' : Graph} (h : g.Extends g') (h' : g'.Extends g'') :
    g.Extends g'' := by
  refine ⟨Nat.le_trans h.size h'.size, fun v hv => ?_⟩
  have hs := h.same v hv
  have hs' := h'.same v (Nat.lt_of_lt_of_le hv h.size)
  exact ⟨hs.state.trans hs'.state, hs.read.trans hs'.read, hs.position.trans hs'.position,
    hs.isOpen.trans hs'.isOpen⟩

theorem Live.mono {g g' : Graph} {v : Nat} (hv : g.Live v) (h : g.Extends g') : g'.Live v :=
  ⟨Nat.lt_of_lt_of_le hv.1 h.size, (h.same v hv.1).isOpen ▸ hv.2⟩

/-! ## Pushing -/

section Push

variable {g : Graph} {input : Scan} {v : Nat} {t : Option Measured} {s : State}

theorem vertex_push_of_lt {w : Nat} (hw : w < g.vertices.size) :
    (g.push v t s).vertex w = g.vertex w := by
  simp [vertex, push, Array.getElem?_push_lt hw, Array.getElem?_eq_getElem hw]

theorem vertex_push_size : (g.push v t s).vertex g.vertices.size =
    { state := s
      links := [⟨v, t⟩]
      read := (g.vertex v).read + ((t.map Measured.leafCount).getD 0)
      position := (g.vertex v).position + ((t.map Measured.reach).getD 0)
      cost := (g.vertex v).cost + ((t.map Measured.cost).getD 0)
      weight := (g.vertex v).weight + ((t.map Measured.weight).getD 0) } := by
  simp [vertex, push]

@[simp]
theorem size_push : (g.push v t s).vertices.size = g.vertices.size + 1 := by
  simp [push]

theorem extends_push : g.Extends (g.push v t s) := by
  refine ⟨by simp, fun w hw => ?_⟩
  rw [vertex_push_of_lt hw]
  exact ⟨rfl, rfl, rfl, rfl⟩

/-- The room that the tree of a link takes. -/
theorem Sound.position_push (h : g.Sound input) (hv : g.Live v) {a : Vertex}
    (hf : Link.Fits input (g.vertex v) t a) :
    (g.vertex v).position + ((t.map Measured.reach).getD 0) = input.room a.read := by
  rw [h.position v hv]
  cases hf with
  | fallen _ _ hr => simp [hr]
  | tree hb _ hl hr => simp [hr, hl.room_add, hb.reach_eq]

theorem Sound.push (h : g.Sound input) (hv : g.Live v)
    (hf : Link.Fits input (g.vertex v) t ((g.push v t s).vertex g.vertices.size)) :
    (g.push v t s).Sound input ∧ (g.push v t s).Live g.vertices.size := by
  have hext : g.Extends (g.push v t s) := extends_push
  have hopen : (g.push v t s).Live g.vertices.size := by
    refine ⟨by simp, ?_⟩
    rw [vertex_push_size]
    cases hf with
    | fallen => rfl
    | tree hb => simp [Vertex.isOpen, hb.closes_eq_false]
  -- Below the new vertex nothing has changed.
  have hold : ∀ w, (g.push v t s).Live w → w ≠ g.vertices.size →
      g.Live w ∧ (g.push v t s).vertex w = g.vertex w := by
    intro w hw hne
    have hlt : w < g.vertices.size := by
      have := hw.1
      rw [size_push] at this
      omega
    have heq : (g.push v t s).vertex w = g.vertex w := vertex_push_of_lt hlt
    exact ⟨⟨hlt, by rw [← heq]; exact hw.2⟩, heq⟩
  refine ⟨⟨h.bottom.mono hext, ?_, ?_, ?_, ?_, ?_⟩, hopen⟩
  · rw [vertex_push_of_lt h.bottom.1]
    exact h.bottom_state
  · intro w hw
    by_cases hne : w = g.vertices.size
    · subst hne
      have hle := h.read_le v hv
      cases hf with
      | fallen _ _ hr => rwa [hr]
      | tree _ _ hl hr =>
        rw [hr]
        exact hl.length_le hle
    · obtain ⟨hw', heq⟩ := hold w hw hne
      rw [heq]
      exact h.read_le w hw'
  · intro w hw
    by_cases hne : w = g.vertices.size
    · subst hne
      rw [← h.position_push hv hf, vertex_push_size]
    · obtain ⟨hw', heq⟩ := hold w hw hne
      rw [heq]
      exact h.position w hw'
  · intro w hw hl
    by_cases hne : w = g.vertices.size
    · subst hne
      rw [linksOf, vertex_push_size] at hl
      simp at hl
    · obtain ⟨hw', heq⟩ := hold w hw hne
      rw [linksOf, heq] at hl
      rw [heq]
      exact h.unlinked w hw' hl
  · intro w hw l hl
    by_cases hne : w = g.vertices.size
    · subst hne
      have hl' : l = ⟨v, t⟩ := by
        rw [linksOf, vertex_push_size] at hl
        simpa using hl
      subst hl'
      refine ⟨hv.mono hext, ?_⟩
      rw [vertex_push_of_lt hv.1]
      exact hf
    · obtain ⟨hw', heq⟩ := hold w hw hne
      rw [linksOf, heq] at hl
      obtain ⟨hlive, hfit⟩ := h.links w hw' l hl
      refine ⟨hlive.mono hext, ?_⟩
      rw [heq, vertex_push_of_lt hlive.1]
      exact hfit

/-- Pushing a tree that holds the lexemes to be read next. -/
theorem Sound.push_tree {m : Measured} (h : g.Sound input) (hv : g.Live v) (hb : m.tree.Built)
    (hm : m.tree.Moves (g.vertex v).state s) (hl : input.Holds (g.vertex v).read m.tree.leaves) :
    (g.push v (some m) s).Sound input ∧ (g.push v (some m) s).Live g.vertices.size := by
  refine h.push hv (.tree hb ?_ hl ?_) <;> rw [vertex_push_size]
  · exact hm
  · simp [Tree.leafCount_eq]

theorem Sound.push_none (h : g.Sound input) (hv : g.Live v)
    (hs : (g.vertex v).state ≠ .accepting) :
    (g.push v none .error).Sound input ∧ (g.push v none .error).Live g.vertices.size := by
  refine h.push hv (.fallen ?_ hs ?_) <;> rw [vertex_push_size]
  simp

end Push

/-! ## Joining -/

section Join

variable {g : Graph} {input : Scan}

/-- Live vertices in the same place stand for the same lexemes. -/
theorem Sound.read_of_interchangeable (h : g.Sound input) (hi : input.Spaced) {v w : Nat}
    (hv : g.Live v) (hw : g.Live w) (hvw : g.interchangeable v w) :
    (g.vertex v).state = (g.vertex w).state ∧ (g.vertex v).read = (g.vertex w).read := by
  simp only [interchangeable, Bool.and_eq_true, beq_iff_eq] at hvw
  refine ⟨hvw.1.1, hi.room_inj (h.read_le v hv) (h.read_le w hw) ?_⟩
  rw [← h.position v hv, ← h.position w hw]
  exact hvw.1.2

/-- A graph that has only got more links. -/
structure Relinked (input : Scan) (g g' : Graph) : Prop where
  sound : g'.Sound input
  ext : g.Extends g'
  size : g'.vertices.size = g.vertices.size

theorem Relinked.refl (h : g.Sound input) : g.Relinked input g :=
  ⟨h, .refl g, rfl⟩

theorem Relinked.trans {g' g'' : Graph} (h : g.Relinked input g') (h' : g'.Relinked input g'') :
    g.Relinked input g'' :=
  ⟨h'.sound, h.ext.trans h'.ext, h'.size.trans h.size⟩

/-- Whether a vertex may get a link. -/
def Takes (input : Scan) (g : Graph) (v : Nat) (l : Link) : Prop :=
  g.Live v ∧ g.Live l.target ∧ Link.Fits input (g.vertex l.target) l.tree (g.vertex v)

theorem Takes.mono {g' : Graph} {v : Nat} {l : Link} (h : g.Takes input v l)
    (he : g.Extends g') : g'.Takes input v l := by
  obtain ⟨hv, ht, hf⟩ := h
  have hsv := he.same v hv.1
  have hst := he.same l.target ht.1
  exact ⟨hv.mono he, ht.mono he, hf.congr hst.state hst.read hsv.state hsv.read⟩

theorem Takes.not_closes {v : Nat} {l : Link} (h : g.Takes input v l) :
    (l.tree.any (·.tree.closes)) = false := by
  rcases h with ⟨-, -, hf⟩
  rcases l with ⟨u, t⟩
  cases hf with
  | fallen => rfl
  | tree hb => exact hb.closes_eq_false

theorem Sound.append_link (h : g.Sound input) {v weight : Nat} {l : Link}
    (hl : g.Takes input v l) :
    g.Relinked input ⟨g.vertices.setIfInBounds v
      { g.vertex v with links := (g.vertex v).links ++ [l], weight := weight }⟩ := by
  set g' : Graph := ⟨g.vertices.setIfInBounds v
    { g.vertex v with links := (g.vertex v).links ++ [l], weight := weight }⟩ with hg'
  have hv := hl.1
  have hself : g'.vertex v =
      { g.vertex v with links := (g.vertex v).links ++ [l], weight := weight } := by
    simp [hg', vertex, Array.getElem?_setIfInBounds_self_of_lt hv.1]
  have hother : ∀ w, w ≠ v → g'.vertex w = g.vertex w := by
    intro w hw
    simp [hg', vertex, Array.getElem?_setIfInBounds_ne (Ne.symm hw)]
  have hsize : g'.vertices.size = g.vertices.size := by simp [hg']
  have hsame : ∀ w, (g.vertex w).Same (g'.vertex w) := by
    intro w
    by_cases hw : w = v
    · subst hw
      rw [hself]
      refine ⟨rfl, rfl, rfl, ?_⟩
      rcases hls : (g.vertex w).links with _ | ⟨l₀, ls⟩ <;>
        simp [Vertex.isOpen, hls, hl.not_closes]
    · rw [hother w hw]
      exact ⟨rfl, rfl, rfl, rfl⟩
  have hext : g.Extends g' := ⟨by omega, fun w _ => hsame w⟩
  have hlive : ∀ w, g'.Live w → g.Live w := by
    intro w hw
    exact ⟨hsize ▸ hw.1, (hsame w).isOpen ▸ hw.2⟩
  refine ⟨⟨h.bottom.mono hext, ?_, ?_, ?_, ?_, ?_⟩, hext, hsize⟩
  · rw [← (hsame 0).state]
    exact h.bottom_state
  · intro w hw
    rw [← (hsame w).read]
    exact h.read_le w (hlive w hw)
  · intro w hw
    rw [← (hsame w).position, ← (hsame w).read]
    exact h.position w (hlive w hw)
  · intro w hw hnil
    rw [← (hsame w).state, ← (hsame w).read]
    refine h.unlinked w (hlive w hw) ?_
    by_cases hwv : w = v
    · subst hwv
      simp [linksOf, hself] at hnil
    · rwa [linksOf, hother w hwv] at hnil
  · intro w hw l' hl'
    have htakes : g.Takes input w l' := by
      by_cases hwv : w = v
      · subst hwv
        rw [linksOf, hself] at hl'
        rcases List.mem_append.1 hl' with hl' | hl'
        · exact ⟨hv, h.links w hv l' hl'⟩
        · rw [List.mem_singleton.1 hl']
          exact hl
      · rw [linksOf, hother w hwv] at hl'
        exact ⟨hlive w hw, h.links w (hlive w hw) l' hl'⟩
    exact (htakes.mono hext).2

/-- Links given one after the other, if giving one keeps the graph sound. -/
theorem relinked_foldl {add : Graph → Link → Graph} {v : Nat}
    (hadd : ∀ (g : Graph) (l : Link), g.Sound input → g.Takes input v l →
      g.Relinked input (add g l)) :
    ∀ (ls : List Link) (g : Graph), g.Sound input → (∀ l ∈ ls, g.Takes input v l) →
      g.Relinked input (ls.foldl add g)
  | [], _, h, _ => .refl h
  | l :: ls, g, h, hls => by
    have h₁ := hadd g l h (hls l (by simp))
    exact h₁.trans (relinked_foldl hadd ls _ h₁.sound fun l' hl' =>
      (hls l' (by simp [hl'])).mono h₁.ext)

theorem Sound.addLink (hi : input.Spaced) : ∀ (fuel : Nat) {g : Graph} {v : Nat} {l : Link},
    g.Sound input → g.Takes input v l → g.Relinked input (g.addLink fuel v l)
  | 0, _, _, _, h, _ => .refl h
  | fuel + 1, g, v, l, h, hl => by
    unfold Graph.addLink
    split_ifs with hself
    · exact .refl h
    split
    · rename_i old hold
      split_ifs with heq
      · exact .refl h
      -- The links go to the vertex under the old link, which stands for the same lexemes.
      have hmem := List.mem_of_find?_eq_some hold
      have hsame := List.find?_some hold
      have hinter : g.interchangeable old.target l.target := by
        simp only [Bool.and_eq_true, Bool.or_eq_true, beq_iff_eq, heq, false_or] at hsame
        exact hsame.2
      obtain ⟨hlive, -⟩ := h.links v hl.1 old (by simpa [linksOf] using hmem)
      obtain ⟨hstate, hread⟩ := h.read_of_interchangeable hi hlive hl.2.1 hinter
      refine relinked_foldl (fun g' l' h' ht => Sound.addLink hi fuel h' ht) _ g h ?_
      intro l' hl'
      obtain ⟨hlive', hfit⟩ := h.links _ hl.2.1 l' hl'
      exact ⟨hlive, hlive', hfit.congr rfl rfl hstate.symm hread.symm⟩
    · simp only []
      split_ifs
      · exact .refl h
      · exact h.append_link hl

theorem Sound.join (hi : input.Spaced) (h : g.Sound input) {v w : Nat} (hv : g.Live v)
    (hw : g.Live w) (hvw : g.interchangeable v w) : g.Relinked input (g.join v w) := by
  obtain ⟨hstate, hread⟩ := h.read_of_interchangeable hi hv hw hvw
  refine relinked_foldl (fun g' l' h' ht => Sound.addLink hi _ h' ht) _ g h ?_
  intro l hl
  obtain ⟨hlive, hfit⟩ := h.links w hw l hl
  exact ⟨hv, hlive, hfit.congr rfl rfl hstate.symm hread.symm⟩

end Join

end Graph

end CalcTree
