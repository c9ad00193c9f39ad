import CalcTree.Proofs.Places

/-!
# Sites

Nodes that look the same are told apart by the ways to them from the root (`Node.at?`). The sites of
a tree are its nodes with the ways to them, and come in the order of dictionaries
(`Node.pairwise_sites`).

In a nested tree a node lies within every node on the way to it (`Nested.within_of_isPrefix`), and
two nodes that are not on one way lie one after the other (`Nested.apart`).
-/

namespace CalcTree

/-- A node of a tree, and the way to it: which child to take, from the root on. -/
structure Site where
  path : List Nat
  node : Node

namespace Node

def at? : Node → List Nat → Option Node
  | n, [] => some n
  | n, i :: path => n.children[i]?.bind fun c => at? c path

mutual

/-- The nodes of a tree with the ways to them, parents before children. -/
def sites : Node → List Site
  | n@{ children := cs, .. } => ⟨[], n⟩ :: sitesAll 0 cs

def sitesAll : Nat → List Node → List Site
  | _, [] => []
  | i, n :: ns => (sites n).map (fun s => ⟨i :: s.path, s.node⟩) ++ sitesAll (i + 1) ns

end

variable {n m : Node} {ns : List Node} {s : Site} {i : Nat} {p q : List Nat}

theorem sites_eq (n : Node) : n.sites = ⟨[], n⟩ :: sitesAll 0 n.children := by
  cases n
  rw [sites]

theorem mem_sitesAll : s ∈ sitesAll i ns ↔
    ∃ j c r, ns[j]? = some c ∧ r ∈ c.sites ∧ s = ⟨(i + j) :: r.path, r.node⟩ := by
  induction ns generalizing i with
  | nil => simp [sitesAll]
  | cons n ns ih =>
    rw [sitesAll, List.mem_append, ih, List.mem_map]
    constructor
    · rintro (⟨r, hr, rfl⟩ | ⟨j, c, r, hc, hr, rfl⟩)
      · exact ⟨0, n, r, rfl, hr, rfl⟩
      · exact ⟨j + 1, c, r, hc, hr, by rw [Nat.add_right_comm, Nat.add_assoc]⟩
    · rintro ⟨_ | j, c, r, hc, hr, rfl⟩
      · obtain rfl := Option.some.inj hc
        exact .inl ⟨r, hr, rfl⟩
      · exact .inr ⟨j, c, r, hc, hr, by rw [Nat.add_right_comm, Nat.add_assoc]⟩

theorem mem_sites : ∀ {n : Node} {p : List Nat}, ⟨p, m⟩ ∈ n.sites ↔ n.at? p = some m
  | n, [] => by
    rw [sites_eq, List.mem_cons, mem_sitesAll, at?]
    simp [eq_comm]
  | n, i :: p => by
    rw [sites_eq, List.mem_cons, mem_sitesAll, at?, Option.bind_eq_some_iff]
    constructor
    · rintro (h | ⟨j, c, ⟨q, k⟩, hc, hr, h⟩)
      · simp at h
      · simp only [Nat.zero_add, Site.mk.injEq, List.cons.injEq] at h
        obtain ⟨⟨rfl, rfl⟩, rfl⟩ := h
        exact ⟨c, hc, mem_sites.1 hr⟩
    · rintro ⟨c, hc, hm⟩
      exact .inr ⟨i, c, ⟨p, m⟩, hc, mem_sites.2 hm, by simp⟩

theorem map_node_sitesAll (h : ∀ n ∈ ns, n.sites.map Site.node = n.nodes) (i : Nat) :
    (sitesAll i ns).map Site.node = ns.flatMap nodes := by
  induction ns generalizing i with
  | nil => rfl
  | cons n ns ih =>
    rw [sitesAll, List.map_append, List.map_map, ih (fun m hm => h m (by simp [hm])),
      List.flatMap_cons, ← h n (by simp)]
    rfl

theorem map_node_sites (n : Node) : n.sites.map Site.node = n.nodes := by
  rw [sites_eq, List.map_cons, nodes_eq]
  congr 1
  refine map_node_sitesAll (fun c hc => ?_) 0
  have := sizeOf_lt_of_mem hc
  exact map_node_sites c
termination_by sizeOf n

theorem mem_nodes_of_mem_sites (h : s ∈ n.sites) : s.node ∈ n.nodes :=
  n.map_node_sites ▸ List.mem_map_of_mem h

/-- The sites below the root. -/
theorem mem_tail_sites (hs : s ∈ n.sites) (hpath : s.path ≠ []) : s ∈ n.sites.tail := by
  rw [sites_eq] at hs ⊢
  rcases List.mem_cons.1 hs with rfl | hs
  · exact absurd rfl hpath
  · exact hs

theorem mem_tail_nodes (hs : s ∈ n.sites.tail) : s.node ∈ n.nodes.tail := by
  rw [← n.map_node_sites, ← List.map_tail]
  exact List.mem_map_of_mem hs

/-- The ways to nodes in the order of dictionaries. -/
theorem pairwise_sitesAll (h : ∀ n ∈ ns, n.sites.Pairwise (·.path < ·.path)) (i : Nat) :
    (sitesAll i ns).Pairwise (·.path < ·.path) := by
  induction ns generalizing i with
  | nil => exact .nil
  | cons n ns ih =>
    rw [sitesAll, List.pairwise_append]
    refine ⟨?_, ih (fun m hm => h m (by simp [hm])) _, ?_⟩
    · rw [List.pairwise_map]
      refine (h n (by simp)).imp fun hab => ?_
      exact List.cons_lt_cons_iff.2 (.inr ⟨rfl, hab⟩)
    · intro a ha b hb
      obtain ⟨r, -, rfl⟩ := List.mem_map.1 ha
      obtain ⟨j, c, r', -, -, rfl⟩ := mem_sitesAll.1 hb
      exact List.cons_lt_cons_iff.2 (.inl (by omega))

theorem pairwise_sites (n : Node) : n.sites.Pairwise (·.path < ·.path) := by
  rw [sites_eq, List.pairwise_cons]
  refine ⟨fun s hs => ?_, pairwise_sitesAll (fun c hc => ?_) 0⟩
  · obtain ⟨j, c, r, -, -, rfl⟩ := mem_sitesAll.1 hs
    exact List.nil_lt_cons _ _
  · have := sizeOf_lt_of_mem hc
    exact pairwise_sites c
termination_by sizeOf n

/-! ## Nesting by ways -/

theorem Nested.row (h : n.Nested) : InRow n.start.bytes n.stop.bytes n.children :=
  h n (by rw [nodes_eq]; exact List.mem_cons_self)

theorem Nested.child {c : Node} (h : n.Nested) (hc : c ∈ n.children) : c.Nested := by
  intro m hm
  refine h m ?_
  rw [nodes_eq]
  exact List.mem_cons_of_mem _ (List.mem_flatMap.2 ⟨c, hc, hm⟩)

/-- What is at the end of a way lies within what the way starts from. -/
theorem Nested.within : ∀ {p : List Nat} {n m : Node}, n.Nested → n.at? p = some m →
    n.start.bytes ≤ m.start.bytes ∧ m.start.bytes ≤ m.stop.bytes ∧ m.stop.bytes ≤ n.stop.bytes
  | [], n, m, h, hm => by
    obtain rfl := Option.some.inj hm
    exact ⟨Nat.le_refl _, h.row.le, Nat.le_refl _⟩
  | i :: p, n, m, h, hm => by
    obtain ⟨c, hc, hm⟩ := Option.bind_eq_some_iff.1 hm
    have hmem := List.mem_of_getElem? hc
    have hrow := h.row.of_mem hmem
    have := (h.child hmem).within hm
    omega

theorem at?_append (n : Node) (p q : List Nat) :
    n.at? (p ++ q) = (n.at? p).bind fun m => m.at? q := by
  induction p generalizing n with
  | nil => rfl
  | cons i p ih =>
    rw [List.cons_append, at?, at?, Option.bind_assoc]
    simp only [ih]

theorem at?_concat (h : n.at? p = some m) (i : Nat) : n.at? (p ++ [i]) = m.children[i]? := by
  rw [at?_append, h, Option.bind_some, at?]
  exact Option.bind_fun_some _

/-- All nodes but the root are children. -/
theorem exists_parent (h : n.at? p = some m) (hp : p ≠ []) :
    ∃ q i k, p = q ++ [i] ∧ n.at? q = some k ∧ k.children[i]? = some m := by
  rcases List.eq_nil_or_concat p with rfl | ⟨q, i, rfl⟩
  · exact absurd rfl hp
  rw [List.concat_eq_append] at h ⊢
  obtain ⟨k, hk, -⟩ := Option.bind_eq_some_iff.1 (n.at?_append q [i] ▸ h)
  exact ⟨q, i, k, rfl, hk, at?_concat hk i ▸ h⟩

theorem mem_tail_of_mem_children {c : Node} (hm : m ∈ n.nodes) (hc : c ∈ m.children) :
    c ∈ n.nodes.tail := by
  rw [← n.map_node_sites] at hm
  obtain ⟨⟨q, k⟩, hs, rfl⟩ := List.mem_map.1 hm
  obtain ⟨i, hi⟩ := List.getElem?_of_mem hc
  rw [← at?_concat (mem_sites.1 hs) i] at hi
  exact mem_tail_nodes (mem_tail_sites (mem_sites.2 hi) (by simp))

theorem Nested.of_at? : ∀ {p : List Nat} {n m : Node}, n.Nested → n.at? p = some m → m.Nested
  | [], n, m, h, hm => by
    obtain rfl := Option.some.inj hm
    exact h
  | i :: p, n, m, h, hm => by
    obtain ⟨c, hc, hm⟩ := Option.bind_eq_some_iff.1 hm
    exact (h.child (List.mem_of_getElem? hc)).of_at? hm

theorem Nested.within_of_isPrefix {a b : Node} (h : n.Nested) (ha : n.at? p = some a)
    (hb : n.at? q = some b) (hpq : p <+: q) :
    a.start.bytes ≤ b.start.bytes ∧ b.stop.bytes ≤ a.stop.bytes := by
  obtain ⟨r, rfl⟩ := hpq
  rw [at?_append, ha, Option.bind_some] at hb
  have := (h.of_at? ha).within hb
  omega

/-- Nodes of which none is inside the other lie one after the other. -/
theorem Nested.apart : ∀ {p q : List Nat} {n a b : Node}, n.Nested → n.at? p = some a →
    n.at? q = some b → ¬ p <+: q → ¬ q <+: p →
    a.stop.bytes ≤ b.start.bytes ∨ b.stop.bytes ≤ a.start.bytes
  | [], _, _, _, _, _, _, _, hpq, _ => absurd List.nil_prefix hpq
  | _ :: _, [], _, _, _, _, _, _, _, hqp => absurd List.nil_prefix hqp
  | i :: p, j :: q, n, a, b, h, ha, hb, hpq, hqp => by
    obtain ⟨c, hc, ha⟩ := Option.bind_eq_some_iff.1 ha
    obtain ⟨d, hd, hb⟩ := Option.bind_eq_some_iff.1 hb
    have hchild := h.child (List.mem_of_getElem? hc)
    by_cases hij : i = j
    · subst hij
      obtain rfl := Option.some.inj (hc.symm.trans hd)
      rw [List.prefix_cons_inj] at hpq hqp
      exact hchild.apart ha hb hpq hqp
    · have hin := hchild.within ha
      have hin' := (h.child (List.mem_of_getElem? hd)).within hb
      obtain ⟨hi, rfl⟩ := List.getElem?_eq_some_iff.1 hc
      obtain ⟨hj, rfl⟩ := List.getElem?_eq_some_iff.1 hd
      have hrow := List.pairwise_iff_getElem.1 h.row.pairwise
      rcases Nat.lt_or_gt_of_ne hij with hlt | hlt
      · have := hrow i j hi hj hlt
        omega
      · have := hrow j i hj hi hlt
        omega

end Node

end CalcTree
