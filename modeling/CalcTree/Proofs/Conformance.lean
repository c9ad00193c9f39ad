import CalcTree.Grammar.NodeType
import CalcTree.Proofs.Leaves

/-!
# Trees conform to their node types

However damaged a source is, the named nodes of its tree look as their node types say
(`Document.conforms`), if extra nodes are left out of account. What a part of a construct can show
follows from its symbol alone: one node of a few kinds, or, for the collectors of list items, any
number of them (`Built.shows`). So each production can be compared with its node type once and for
all (`fits_of_isVisible`).
-/

namespace CalcTree

/-! ## Node types as predicates -/

/-- A place where nothing may stand. -/
def Slot.none : Slot :=
  ⟨true, false, []⟩

/-- Whether nodes of these kinds may stand in a place. -/
def Slot.Admits (s : Slot) (ks : List Kind) : Prop :=
  (∀ k ∈ ks, k ∈ s.kinds) ∧ (s.required = true → ks ≠ []) ∧ (s.multiple = false → ks.length ≤ 1)

/-- A child as the type of its parent sees it. -/
abbrev Facet := Option Field × Kind

def Facet.isIn (f : Field) (c : Facet) : Bool :=
  c.1 == some f

/-- Whether a child has a name but no field. -/
def Facet.isLoose (c : Facet) : Bool :=
  c.1.isNone && c.2.isNamed

/-- Whether a node may have these children: only fields it lists, in each field what may stand
there, and so for its named children without a field. -/
def Inside.Admits (i : Inside) (cs : List Facet) : Prop :=
  (∀ c ∈ cs, ∀ f ∈ c.1, f ∈ i.fields.map Prod.fst) ∧
    (∀ e ∈ i.fields, e.2.Admits ((cs.filter (Facet.isIn e.1)).map Prod.snd)) ∧
    (i.children.getD .none).Admits ((cs.filter Facet.isLoose).map Prod.snd)

def NodeType.Admits (t : NodeType) (cs : List Facet) : Prop :=
  match t.inside with
  | some i => i.Admits cs
  | Option.none => cs = []

/-- The type of nodes of a kind. -/
def NodeType.of? (k : Kind) : Option NodeType :=
  all.find? (·.kind == k)

namespace Node

/-- What nodes look like to the type of their parent, for which extra ones do not count. -/
def facets (ns : List Node) : List Facet :=
  (ns.filter (!·.isExtra)).map fun n => (n.field, n.kind)

/-- Whether a node looks as its type says. -/
def Conforms (n : Node) : Prop :=
  ∃ t, NodeType.of? n.kind = some t ∧ t.Admits (facets n.children)

theorem facets_append (ns ms : List Node) : facets (ns ++ ms) = facets ns ++ facets ms := by
  simp [facets]

end Node

/-! ## What symbols show -/

namespace Symbol

/-- The kinds of nodes that a symbol can show. -/
def kinds : Symbol → List Kind
  | .terminal t => [.terminal t]
  | .nonterminal .sum => NodeType.sumKinds
  | .nonterminal .product => NodeType.productKinds
  | .nonterminal .signed => NodeType.signedKinds
  | .nonterminal .raised => .nonterminal .power :: NodeType.suffixedKinds
  | .nonterminal .suffixed => NodeType.suffixedKinds
  | .nonterminal .statements => [.nonterminal .statement]
  | .nonterminal .moreArguments => [.terminal .semicolon, .nonterminal .expression]
  | .nonterminal .moreParameters => [.terminal .semicolon, .terminal .identifier]
  | .nonterminal n => [.nonterminal n]

/-- Whether a symbol shows exactly one node. -/
def single : Symbol → Bool
  | .nonterminal .statements | .nonterminal .moreArguments | .nonterminal .moreParameters => false
  | _ => true

def Shows (X : Symbol) (ks : List Kind) : Prop :=
  (∀ k ∈ ks, k ∈ X.kinds) ∧ (X.single → ks.length = 1)

end Symbol

/-- A part of a construct, with its field. -/
abbrev Role := Option Field × Symbol

/-- The parts of a construct with their fields, from the `i`th on. -/
def Role.assign (roles : Nat → Option Field) (inherited : Option Field) :
    Nat → List Symbol → List Role
  | _, [] => []
  | i, X :: Xs => ((roles i).or inherited, X) :: assign roles inherited (i + 1) Xs

/-- What parts can show together. -/
inductive Spread : List Role → List Facet → Prop
  | nil : Spread [] []
  | cons {f : Option Field} {X : Symbol} {ks : List Kind} {ps : List Role} {cs : List Facet}
      (hks : X.Shows ks) (h : Spread ps cs) :
      Spread ((f, X) :: ps) (ks.map (Prod.mk f) ++ cs)

theorem Spread.exists_role {ps : List Role} {cs : List Facet} (h : Spread ps cs) :
    ∀ c ∈ cs, ∃ p ∈ ps, p.1 = c.1 ∧ c.2 ∈ p.2.kinds := by
  induction h with
  | nil => simp
  | @cons f X ks ps cs hks h ih =>
    intro c hc
    rcases List.mem_append.1 hc with hc | hc
    · obtain ⟨k, hk, rfl⟩ := List.mem_map.1 hc
      exact ⟨(f, X), by simp, rfl, hks.1 k hk⟩
    · obtain ⟨p, hp, hpc⟩ := ih c hc
      exact ⟨p, by simp [hp], hpc⟩

theorem Spread.length_eq {ps : List Role} {cs : List Facet} (h : Spread ps cs)
    (hps : ∀ p ∈ ps, p.2.single) : cs.length = ps.length := by
  induction h with
  | nil => rfl
  | @cons f X ks ps cs hks h ih =>
    rw [List.length_append, List.length_map, hks.2 (hps (f, X) (by simp)),
      ih fun p hp => hps p (by simp [hp]), List.length_cons, Nat.add_comm]

/-- Parts that all have the same field show their nodes in it. -/
theorem Spread.of_constant {roles : Nat → Option Field} (hroles : ∀ i, roles i = none)
    {f : Option Field} {K : List Kind} : ∀ (Xs : List Symbol) {i : Nat} {cs : List Facet},
    Spread (Role.assign roles f i Xs) cs → (∀ X ∈ Xs, ∀ k ∈ X.kinds, k ∈ K) →
      ∃ ks : List Kind, cs = ks.map (Prod.mk f) ∧ (∀ k ∈ ks, k ∈ K) ∧
        ((∀ X ∈ Xs, X.single) → ks.length = Xs.length)
  | [], _, _, h, _ => by
    cases h
    exact ⟨[], rfl, by simp, by simp⟩
  | X :: Xs, i, _, h, hK => by
    cases h with
    | @cons _ _ ks _ cs hks h =>
    obtain ⟨ks', rfl, hmem, hlen⟩ := Spread.of_constant hroles Xs h
      fun Y hY => hK Y (by simp [hY])
    refine ⟨ks ++ ks', by simp [hroles], fun k hk => ?_, fun hsingle => ?_⟩
    · rcases List.mem_append.1 hk with hk | hk
      · exact hK X (by simp) k (hks.1 k hk)
      · exact hmem k hk
    · rw [List.length_append, hks.2 (hsingle X (by simp)),
        hlen fun Y hY => hsingle Y (by simp [hY]), List.length_cons, Nat.add_comm]

/-! ## Comparing productions with node types -/

namespace Slot

/-- How many nodes that satisfy `q` a part can show, where two stands for any number. -/
def weight (q : Facet → Bool) (p : Role) : Nat :=
  if p.2.kinds.any fun k => q (p.1, k) then if p.2.single then 1 else 2 else 0

def weightAll (q : Facet → Bool) : List Role → Nat
  | [] => 0
  | p :: ps => weight q p + weightAll q ps

/-- Whether the nodes satisfying `q` may stand in a place, whatever the parts show. -/
def fits (s : Slot) (q : Facet → Bool) (ps : List Role) : Bool :=
  (ps.all fun p => p.2.kinds.all fun k => !q (p.1, k) || s.kinds.contains k) &&
    (!s.required || ps.any fun p => p.2.single && p.2.kinds.all fun k => q (p.1, k)) &&
    (s.multiple || weightAll q ps ≤ 1)

variable {q : Facet → Bool} {ps : List Role} {cs : List Facet} {s : Slot}

theorem mem_kinds_of_fits (h : Spread ps cs)
    (hfit : ∀ p ∈ ps, ∀ k ∈ p.2.kinds, q (p.1, k) → k ∈ s.kinds) :
    ∀ c ∈ cs, q c → c.2 ∈ s.kinds := by
  induction h with
  | nil => simp
  | @cons f X ks ps cs hks h ih =>
    intro c hc hq
    rcases List.mem_append.1 hc with hc | hc
    · obtain ⟨k, hk, rfl⟩ := List.mem_map.1 hc
      exact hfit (f, X) (by simp) k (hks.1 k hk) hq
    · exact ih (fun p hp => hfit p (by simp [hp])) c hc hq

theorem exists_of_fits (h : Spread ps cs)
    (hfit : ∃ p ∈ ps, p.2.single ∧ ∀ k ∈ p.2.kinds, q (p.1, k)) : ∃ c ∈ cs, q c := by
  induction h with
  | nil => simp at hfit
  | @cons f X ks ps cs hks h ih =>
    obtain ⟨p, hp, hsingle, hq⟩ := hfit
    rcases List.mem_cons.1 hp with rfl | hp
    · obtain ⟨k, rfl⟩ := List.length_eq_one_iff.1 (hks.2 hsingle)
      exact ⟨(f, k), by simp, hq k (hks.1 k (by simp))⟩
    · obtain ⟨c, hc, hqc⟩ := ih ⟨p, hp, hsingle, hq⟩
      exact ⟨c, List.mem_append_right _ hc, hqc⟩

theorem countP_le_of_fits (h : Spread ps cs) (hfit : weightAll q ps ≤ 1) :
    cs.countP q ≤ weightAll q ps := by
  induction h with
  | nil => simp
  | @cons f X ks ps cs hks h ih =>
    rw [weightAll] at hfit ⊢
    have ih' := ih (by omega)
    rw [List.countP_append]
    suffices hchunk : (ks.map (Prod.mk f)).countP q ≤ weight q (f, X) by omega
    by_cases hany : X.kinds.any fun k => q (f, k)
    · have hsingle : X.single = true := by
        by_contra hns
        simp only [weight, hany, hns, ↓reduceIte] at hfit
        omega
      have hw : weight q (f, X) = 1 := by simp only [weight, hany, hsingle, ↓reduceIte]
      have hlen := List.countP_le_length (p := q) (l := ks.map (Prod.mk f))
      rw [List.length_map, hks.2 hsingle] at hlen
      omega
    · have hzero : (ks.map (Prod.mk f)).countP q = 0 := by
        refine List.countP_eq_zero.2 fun c hc hq => ?_
        obtain ⟨k, hk, rfl⟩ := List.mem_map.1 hc
        exact hany (List.any_eq_true.2 ⟨k, hks.1 k hk, hq⟩)
      omega

theorem admits_of_fits (h : Spread ps cs) (hfit : s.fits q ps) :
    s.Admits ((cs.filter q).map Prod.snd) := by
  simp only [fits, Bool.and_eq_true, List.all_eq_true, Bool.or_eq_true, Bool.not_eq_eq_eq_not,
    Bool.not_true, List.contains_iff_mem, decide_eq_true_eq, List.any_eq_true] at hfit
  obtain ⟨⟨hkinds, hreq⟩, hmult⟩ := hfit
  refine ⟨fun k hk => ?_, fun hr => ?_, fun hm => ?_⟩
  · obtain ⟨c, hc, rfl⟩ := List.mem_map.1 hk
    obtain ⟨hc, hq⟩ := List.mem_filter.1 hc
    refine mem_kinds_of_fits h (fun p hp k hk hq => ?_) c hc hq
    simpa [hq] using hkinds p hp k hk
  · obtain ⟨c, hc, hq⟩ := exists_of_fits h (hreq.resolve_left (by simp [hr]))
    exact List.ne_nil_of_mem (List.mem_map.2 ⟨c, List.mem_filter.2 ⟨hc, hq⟩, rfl⟩)
  · rw [List.length_map, ← List.countP_eq_length_filter]
    have hle := hmult.resolve_left (by simp [hm])
    exact Nat.le_trans (countP_le_of_fits h hle) hle

end Slot

namespace Production

/-- Whether the node type of a visible construct admits whatever its parts show. -/
def fits (p : Production) : Bool :=
  let ps := Role.assign p.fieldAt none 0 p.rhs
  match NodeType.of? (.nonterminal p.lhs) with
  | some ⟨_, some i⟩ =>
    (ps.all fun p => p.1.all fun f => (i.fields.map Prod.fst).contains f) &&
      (i.fields.all fun e => e.2.fits (Facet.isIn e.1) ps) &&
      (i.children.getD .none).fits Facet.isLoose ps
  | _ => false

theorem fits_of_isVisible : ∀ p ∈ all, p.lhs.isVisible → p.fits := by
  decide +kernel

/-- Constructs that are not shown give no fields, and show no more than their symbols may. -/
theorem hidden_facts : ∀ p ∈ all, p.lhs.isVisible = false →
    p.roles = [] ∧ (∀ X ∈ p.rhs, ∀ k ∈ X.kinds, k ∈ (Symbol.nonterminal p.lhs).kinds) ∧
      ((Symbol.nonterminal p.lhs).single → p.rhs.length = 1 ∧ ∀ X ∈ p.rhs, X.single) := by
  decide +kernel

end Production

theorem NodeType.admits_of_spread {p : Production} {cs : List Facet} (hv : p.lhs.isVisible)
    (h : Spread (Role.assign p.fieldAt none 0 p.rhs) cs) :
    ∃ t, NodeType.of? (.nonterminal p.lhs) = some t ∧ t.Admits cs := by
  have hfits := Production.fits_of_isVisible p p.mem_all hv
  unfold Production.fits at hfits
  simp only [] at hfits
  split at hfits
  · rename_i k i ht
    simp only [Bool.and_eq_true, List.all_eq_true] at hfits
    obtain ⟨⟨hfields, hslots⟩, hloose⟩ := hfits
    refine ⟨_, ht, ?_, fun e he => Slot.admits_of_fits h (hslots e he),
      Slot.admits_of_fits h hloose⟩
    intro c hc f hf
    obtain ⟨r, hr, hrc, -⟩ := h.exists_role c hc
    have hall := hfields r hr
    rw [hrc, Option.mem_def.1 hf] at hall
    simpa using hall
  · simp at hfits

/-! ## What trees show -/

namespace Node

theorem facets_singleton (t : Tree) (place stop : Extent) (field : Option Field)
    (cs : List Node) :
    facets [ofTree t place stop field cs] = if t.isExtra then [] else [(field, t.kind)] := by
  cases he : t.isExtra <;> simp [facets, ofTree, he]

theorem facets_display_of_isVisible {t : Tree} (hv : t.isVisible) (place : Extent)
    (field : Option Field) :
    facets (display place field t) = if t.isExtra then [] else [(field, t.kind)] := by
  rw [display, if_pos hv, facets_singleton]

theorem spread_layoutAll {cs : List Tree}
    (hextra : ∀ c ∈ cs, c.isExtra → ∀ place field, facets (display place field c) = [])
    (hpart : ∀ c ∈ cs, ∀ X, c.isExtra = false → c.symbol? = some X → ∀ place field,
      ∃ ks : List Kind, X.Shows ks ∧ facets (display place field c) = ks.map (Prod.mk field))
    (roles : Nat → Option Field) (inherited : Option Field) :
    ∀ {Xs : List Symbol}, (Tree.parts cs).map Tree.symbol? = Xs.map some →
      ∀ (i : Nat) (place : Extent), Spread (Role.assign roles inherited i Xs)
        (facets (layoutAll roles inherited i place cs).1) := by
  induction cs with
  | nil =>
    intro Xs hXs i place
    obtain rfl : Xs = [] := by simpa [Tree.parts] using hXs.symm
    exact .nil
  | cons c cs ih =>
    intro Xs hXs i place
    have ih' := @ih (fun d hd => hextra d (by simp [hd])) fun d hd => hpart d (by simp [hd])
    rw [layoutAll_cons, facets_append]
    rcases he : c.isExtra with _ | _
    · have hparts : Tree.parts (c :: cs) = c :: Tree.parts cs := by simp [Tree.parts, he]
      rw [hparts, List.map_cons] at hXs
      obtain ⟨X, Ys, rfl, hX, hYs⟩ := List.map_eq_cons_iff.1 hXs.symm
      obtain ⟨ks, hks, hfacets⟩ := hpart c (by simp) X he hX.symm place
        (fieldOf roles inherited i c)
      rw [hfacets]
      have hfield : fieldOf roles inherited i c = (roles i).or inherited := by simp [fieldOf, he]
      rw [hfield]
      exact .cons hks (ih' hYs.symm _ _)
    · have hparts : Tree.parts (c :: cs) = Tree.parts cs := by simp [Tree.parts, he]
      rw [hparts] at hXs
      rw [hextra c (by simp) he]
      exact ih' hXs _ _

end Node

namespace Tree

variable {t : Tree} {X : Symbol}

theorem Built.facets_of_isExtra (h : t.Built) (he : t.isExtra) (place : Extent)
    (field : Option Field) : Node.facets (Node.display place field t) = [] := by
  have hv : t.isVisible := by
    rcases h.extra_cases he with ⟨l, rfl, hl⟩ | ⟨cs, rfl⟩
    · simp [isVisible, kind, hl, Kind.isVisible]
    · rfl
  rw [Node.facets_display_of_isVisible hv, if_pos he]

theorem Built.shows (h : t.Built) (he : t.isExtra = false) (hX : t.symbol? = some X) :
    ∀ place field, ∃ ks : List Kind, X.Shows ks ∧
      Node.facets (Node.display place field t) = ks.map (Prod.mk field) := by
  induction h generalizing X with
  | leaf l =>
    intro place field
    rcases hk : l.kind with a | _
    · obtain rfl : Symbol.terminal a = X := by simpa [symbol?, hk] using hX
      have hkind : (Tree.leaf l).kind = .terminal a := by simp [kind, hk]
      refine ⟨[.terminal a], ⟨by simp [Symbol.kinds], by simp⟩, ?_⟩
      rw [Node.facets_display_of_isVisible (by simp [isVisible, hkind, Kind.isVisible]), hkind]
      simp [he]
    · simp [symbol?, hk] at hX
  | missing a ha =>
    intro place field
    obtain rfl : Symbol.terminal a = X := by simpa [symbol?] using hX
    refine ⟨[.terminal a], ⟨by simp [Symbol.kinds], by simp⟩, ?_⟩
    rw [Node.facets_display_of_isVisible (by rfl)]
    rfl
  | node p cs hp hcs ih =>
    intro place field
    obtain rfl : Symbol.nonterminal p.lhs = X := by simpa [symbol?] using hX
    rcases hv : p.lhs.isVisible with _ | _
    · obtain ⟨hroles, hkinds, hsingle⟩ := p.hidden_facts p.mem_all hv
      have hspread := Node.spread_layoutAll
        (fun c hc => (hcs c hc).facets_of_isExtra) (fun c hc Y => ih c hc) p.fieldAt field hp 0
        place
      obtain ⟨ks, hks, hmem, hlen⟩ := Spread.of_constant
        (fun i => by simp [Production.fieldAt, hroles]) p.rhs hspread hkinds
      refine ⟨ks, ⟨hmem, fun hs => ?_⟩, ?_⟩
      · rw [hlen (hsingle hs).2, (hsingle hs).1]
      · rw [Node.display, if_neg (by simp [isVisible, kind, Kind.isVisible, hv])]
        exact hks
    · refine ⟨[.nonterminal p.lhs], ⟨?_, by simp⟩, ?_⟩
      · have hself : ∀ n : Nonterminal, n.isVisible →
            Kind.nonterminal n ∈ (Symbol.nonterminal n).kinds := by
          intro n
          cases n <;> decide
        simpa using hself p.lhs hv
      · rw [Node.facets_display_of_isVisible (t := .node p cs) hv]
        rfl
  | error | skipped => simp [symbol?] at hX

end Tree

/-! ## All nodes -/

namespace Node

/-- What is claimed of a node: it looks as its type says, and if it is extra it has no field. -/
def Proper (n : Node) : Prop :=
  (n.isNamed → n.kind ≠ .error → n.Conforms) ∧ (n.isExtra → n.field = none)

theorem proper_layoutAll {cs : List Tree} (h : ∀ c ∈ cs, ∀ place field,
      (c.isExtra → field = none) → ∀ n ∈ (display place field c).flatMap nodes, n.Proper)
    (roles : Nat → Option Field) (inherited : Option Field) :
    ∀ (i : Nat) (place : Extent),
      ∀ n ∈ (layoutAll roles inherited i place cs).1.flatMap nodes, n.Proper := by
  induction cs with
  | nil => simp [layoutAll_nil]
  | cons c cs ih =>
    intro i place n hn
    rw [layoutAll_cons, List.flatMap_append] at hn
    rcases List.mem_append.1 hn with hn | hn
    · exact h c (by simp) place _ (fun he => by simp [fieldOf, he]) n hn
    · exact ih (fun d hd => h d (by simp [hd])) _ _ n hn

/-- A tree shows proper nodes if those below it are proper, and it is itself where it is shown. -/
theorem proper_display {t : Tree} {place : Extent} {field : Option Field}
    (hself : t.isVisible → (ofTree t place (place + t.reach) field (under place none t)).Proper)
    (hunder : ∀ inherited, ∀ n ∈ (under place inherited t).flatMap nodes, n.Proper) :
    ∀ n ∈ (display place field t).flatMap nodes, n.Proper := by
  intro n hn
  unfold display at hn
  split_ifs at hn with hv
  · rw [List.flatMap_singleton, nodes_eq] at hn
    rcases List.mem_cons.1 hn with rfl | hn
    · exact hself hv
    · exact hunder none n hn
  · exact hunder field n hn

/-- What a construct shows, if its children are parts of it, or extra. -/
theorem spread_under {p : Production} {cs : List Tree}
    (hp : (Tree.parts cs).map Tree.symbol? = p.rhs.map some)
    (hcs : ∀ c ∈ cs, c.Built ∨ c.isExtra ∧ ∀ place field, display place field c = [])
    (place : Extent) : Spread (Role.assign p.fieldAt none 0 p.rhs)
      (facets (under place none (.node p cs))) := by
  refine spread_layoutAll ?_ ?_ p.fieldAt none hp 0 place
  · intro c hc he place field
    rcases hcs c hc with hb | ⟨-, hnil⟩
    · exact hb.facets_of_isExtra he place field
    · rw [hnil]
      rfl
  · intro c hc X he hX
    rcases hcs c hc with hb | ⟨hextra, -⟩
    · exact hb.shows he hX
    · simp [hextra] at he

/-- A construct looks as its type says. -/
theorem conforms_node {p : Production} {cs : List Tree} (hv : p.lhs.isVisible)
    (hp : (Tree.parts cs).map Tree.symbol? = p.rhs.map some) (hcs : ∀ c ∈ cs, c.Built)
    (place stop : Extent) (field : Option Field) :
    (ofTree (.node p cs) place stop field (under place none (.node p cs))).Conforms :=
  NodeType.admits_of_spread hv (spread_under hp (fun c hc => .inl (hcs c hc)) place)

/-- Tokens have nothing inside. -/
theorem conforms_of_terminal {n : Node} {a : Terminal} (hk : n.kind = .terminal a)
    (hcs : n.children = []) : n.Conforms := by
  have htype : NodeType.of? (.terminal a) = some (.token a) := by
    cases a <;> decide
  refine ⟨_, hk ▸ htype, ?_⟩
  rw [hcs]
  rfl

end Node

namespace Tree

theorem Built.proper {t : Tree} (h : t.Built) : ∀ place field, (t.isExtra → field = none) →
    ∀ n ∈ (Node.display place field t).flatMap Node.nodes, n.Proper := by
  induction h with
  | leaf l =>
    intro place field hfield
    refine Node.proper_display (fun _ => ⟨fun _ hk => ?_, hfield⟩) (fun _ n hn => ?_)
    · rcases ha : l.kind with a | _
      · exact Node.conforms_of_terminal (a := a) (by simp [Node.ofTree, kind, ha]) rfl
      · simp [Node.ofTree, kind, ha] at hk
    · simp [Node.under, children, Node.layoutAll_nil] at hn
  | missing a ha =>
    intro place field hfield
    refine Node.proper_display (fun _ => ⟨fun _ _ => ?_, hfield⟩) (fun _ n hn => ?_)
    · exact Node.conforms_of_terminal (a := a) rfl rfl
    · simp [Node.under, children, Node.layoutAll_nil] at hn
  | node p cs hp hcs ih =>
    intro place field hfield
    refine Node.proper_display (fun hv => ⟨fun _ _ => ?_, hfield⟩) fun inherited => ?_
    · exact Node.conforms_node hv hp hcs _ _ _
    · exact Node.proper_layoutAll ih _ _ _ _
  | error cs hne hcs hfile ih =>
    intro place field hfield
    refine Node.proper_display (fun _ => ⟨fun _ hk => absurd rfl hk, hfield⟩) fun inherited => ?_
    exact Node.proper_layoutAll ih _ _ _ _
  | skipped cs hne hcs hfile ih =>
    intro place field hfield
    refine Node.proper_display (fun hv => ?_) fun inherited => ?_
    · cases hv
    · exact Node.proper_layoutAll ih _ _ _ _

/-- The end of the source adds nothing to what a file shows of its production. -/
theorem Built.spread_file {p : Production} {cs : List Tree} (h : Built (.node p cs))
    (blank : List Char) (place : Extent) : Spread (Role.assign p.fieldAt none 0 p.rhs)
      (Node.facets (Node.under place none (.node p (cs ++ [.finish blank])))) := by
  cases h with
  | node _ _ hp hcs =>
  have hparts : parts (cs ++ [.finish blank]) = parts cs := by
    rw [parts_append]
    simp [parts, isExtra]
  refine Node.spread_under (hparts ▸ hp) (fun c hc => ?_) place
  rcases List.mem_append.1 hc with hc | hc
  · exact .inl (hcs c hc)
  · rw [List.mem_singleton.1 hc]
    exact .inr ⟨rfl, fun _ _ => rfl⟩

theorem proper_finish (blank : List Char) (place : Extent) (field : Option Field) :
    ∀ n ∈ (Node.display place field (.finish blank)).flatMap Node.nodes, n.Proper := by
  simp [Node.display_finish]

theorem Whole.proper {t : Tree} {input : Scan} (h : t.Whole input) :
    ∀ n ∈ (Node.root t).nodes, n.Proper := by
  rw [Node.root_eq]
  intro n hn
  rw [Node.nodes_eq] at hn
  cases h with
  | file p cs hlhs hb hl =>
    rcases List.mem_cons.1 hn with rfl | hn
    · refine ⟨fun _ _ => NodeType.admits_of_spread ?_ (hb.spread_file _ 0), fun _ => rfl⟩
      rw [hlhs]
      rfl
    · refine Node.proper_layoutAll (fun c hc place field hfield => ?_) _ _ _ _ n hn
      rcases List.mem_append.1 hc with hc | hc
      · cases hb with
        | node _ _ hp hcs => exact (hcs c hc).proper place field hfield
      · rw [List.mem_singleton.1 hc]
        exact proper_finish _ place field
  | lost ts hbuilt hfile hl =>
    rcases List.mem_cons.1 hn with rfl | hn
    · exact ⟨fun _ hk => absurd rfl hk, fun _ => rfl⟩
    · refine Node.proper_layoutAll (fun c hc place field hfield => ?_) _ _ _ _ n hn
      rcases List.mem_append.1 hc with hc | hc
      · exact (hbuilt c hc).proper place field hfield
      · rw [List.mem_singleton.1 hc]
        exact proper_finish _ place field

end Tree

/-- All named nodes of a document but error nodes look as their node types say, and no extra node
has a field. -/
theorem Document.conforms {source : String} {d : Document}
    (h : (Document.parse source).value = .ok d) :
    (∀ n ∈ d.root.nodes, n.isNamed → n.kind ≠ .error → n.Conforms) ∧
      ∀ n ∈ d.root.nodes, n.isExtra → n.field = none := by
  obtain ⟨t, -, hroot, hwhole⟩ := whole_of_parse h
  rw [hroot]
  exact ⟨fun n hn => (hwhole.proper n hn).1, fun n hn => (hwhole.proper n hn).2⟩

theorem Document.conforms_of_unfinished_sum : ∃ d, (Document.parse "1+").value = .ok d ∧
    ∀ n ∈ d.root.nodes, n.isNamed → n.kind ≠ .error → n.Conforms := by
  obtain ⟨d, h⟩ := Document.exists_of_isSome 1000 "1+" (by decide +kernel)
  exact ⟨d, h, (Document.conforms h).1⟩

end CalcTree
