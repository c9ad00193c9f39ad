import CalcTree.Highlight
import CalcTree.Proofs.Conformance
import CalcTree.Proofs.Sites
import CalcTree.Proofs.Spans

/-!
# What is highlighted

The rules name each token of a tree exactly once, apart from the rules for the roles of names, which
only add to that (`Document.classifies`).

A capture says where a node lies, and not which node it is. So captures are followed back to the
sites that they are of (`captures_perm`). Which of the rules for tokens takes a leaf can be told
from its kind (`captured_eq`), and which of the rules for names takes a name can be told from the
node above it (`parent_eq`). If there is no damage, that node is built by a production, and there
are few productions with a name among their parts (`Production.identifier_roles`).
-/

namespace CalcTree

namespace Highlight

/-! ## Captures by their sites -/

/-- Whether a child is what a child pattern looks for, if these are the children after it. -/
def fits (role : Option Field) (t : Terminal) (before : Option (Field × Nonterminal)) (n : Node)
    (later : List Node) : Bool :=
  isToken t n && role.all (n.field == some ·) &&
    before.all fun (f, k) => later.any fun m => m.field == some f && m.kind == .nonterminal k

/-- The children that a child pattern finds, with the ways to them; `i` is the number of the
first. -/
def siteChildren (role : Option Field) (t : Terminal) (before : Option (Field × Nonterminal))
    (path : List Nat) : Nat → List Node → List Site
  | _, [] => []
  | i, n :: ns =>
    (if fits role t before n ns then [⟨path ++ [i], n⟩] else []) ++
      siteChildren role t before path (i + 1) ns

/-- What a pattern finds at a site. -/
def Pattern.sitesAt (p : Pattern) (s : Site) : List Site :=
  match p with
  | .token t => if isToken t s.node then [s] else []
  | .child parent role t before =>
    if s.node.kind == .nonterminal parent then
      siteChildren role t before s.path 0 s.node.children
    else []
  | .anyOf ts => if ts.any (isToken · s.node) then [s] else []

/-- The sites that a rule captures. -/
def Rule.sites (root : Node) (r : Rule) : List Site :=
  (root.sites.flatMap r.pattern.sitesAt).filter (0 < ·.node.stop.bytes)

/-- The sites that the rule of a number captures. -/
def captured (root : Node) (i : Nat) : List Site :=
  (rules[i]?.map (Rule.sites root)).getD []

/-- The capture of a site by the rule of a number. -/
def capture (i : Nat) (s : Site) : Capture :=
  ⟨s.node.start.bytes, s.node.stop.bytes, i, (rules[i]?.map Rule.name).getD ""⟩

variable {role : Option Field} {t : Terminal} {before : Option (Field × Nonterminal)}
  {path : List Nat} {s : Site} {root : Node}

theorem findChildren_cons (n : Node) (ns : List Node) : findChildren role t before (n :: ns) =
    (if fits role t before n ns then [n] else []) ++ findChildren role t before ns :=
  rfl

theorem map_node_siteChildren (ns : List Node) : ∀ i,
    (siteChildren role t before path i ns).map Site.node = findChildren role t before ns := by
  induction ns with
  | nil => exact fun i => rfl
  | cons n ns ih =>
    intro i
    rw [siteChildren, findChildren_cons, List.map_append, ih]
    split_ifs <;> rfl

theorem Pattern.map_node_sitesAt (p : Pattern) (s : Site) :
    (p.sitesAt s).map Site.node = p.find s.node := by
  cases p <;> simp only [sitesAt, find] <;> split_ifs <;> simp [map_node_siteChildren]

theorem Rule.captures_eq (root : Node) (i : Nat) (r : Rule) : r.captures root i =
    (r.sites root).map fun s => ⟨s.node.start.bytes, s.node.stop.bytes, i, r.name⟩ := by
  have hnodes : (root.sites.flatMap r.pattern.sitesAt).map Site.node =
      root.nodes.flatMap r.pattern.find := by
    rw [← root.map_node_sites, List.map_flatMap, List.flatMap_map]
    simp only [Pattern.map_node_sitesAt]
  rw [captures, ← hnodes, List.filter_map, List.map_map, sites]
  rfl

/-- The captures are those of the sites captured. -/
theorem captures_perm (root : Node) : (captures root).Perm
    ((List.range rules.length).flatMap fun i => (captured root i).map (capture i)) := by
  refine (List.mergeSort_perm _ _).trans (.of_eq ?_)
  rw [List.flatMap]
  congr 1
  refine List.ext_getElem? fun i => ?_
  rw [List.getElem?_mapIdx, List.getElem?_map]
  rcases hi : rules[i]? with _ | r
  · rw [List.getElem?_eq_none (by simpa using hi)]
    rfl
  · obtain ⟨hlt, -⟩ := List.getElem?_eq_some_iff.1 hi
    have hcapture : capture i =
        fun s => ⟨s.node.start.bytes, s.node.stop.bytes, i, r.name⟩ := by
      funext s
      simp [capture, hi]
    rw [List.getElem?_range hlt]
    simp only [Option.map_some, captured, hi, Option.getD_some, Rule.captures_eq, hcapture]

theorem mem_siteChildren {ns : List Node} : ∀ {i : Nat},
    s ∈ siteChildren role t before path i ns ↔ ∃ j, s.path = path ++ [i + j] ∧
      ns[j]? = some s.node ∧ fits role t before s.node (ns.drop (j + 1)) := by
  induction ns with
  | nil => simp [siteChildren]
  | cons n ns ih =>
    intro i
    rw [siteChildren, List.mem_append, ih]
    constructor
    · rintro (hs | ⟨j, hpath, hn, hfits⟩)
      · split_ifs at hs with hfits
        · obtain rfl := List.mem_singleton.1 hs
          exact ⟨0, rfl, rfl, hfits⟩
        · cases hs
      · exact ⟨j + 1, by rw [hpath, Nat.add_right_comm, Nat.add_assoc], hn, hfits⟩
    · rintro ⟨_ | j, hpath, hn, hfits⟩
      · obtain rfl := Option.some.inj hn
        refine .inl ?_
        rw [if_pos (by exact hfits), List.mem_singleton, show path ++ [i] = s.path from hpath.symm]
      · exact .inr ⟨j, by rw [hpath, Nat.add_right_comm, Nat.add_assoc], hn, hfits⟩

theorem mem_sites_child {parent : Nonterminal} {name : String} :
    s ∈ Rule.sites root ⟨.child parent role t before, name⟩ ↔ 0 < s.node.stop.bytes ∧
      ∃ q i m, s.path = q ++ [i] ∧ root.at? q = some m ∧ m.kind = .nonterminal parent ∧
        m.children[i]? = some s.node ∧ fits role t before s.node (m.children.drop (i + 1)) := by
  rw [Rule.sites, List.mem_filter, and_comm, decide_eq_true_iff, List.mem_flatMap]
  refine and_congr_right fun _ => ?_
  constructor
  · rintro ⟨⟨q, m⟩, hm, hs⟩
    simp only [Pattern.sitesAt] at hs
    split_ifs at hs with hk
    · obtain ⟨j, hpath, hn, hfits⟩ := mem_siteChildren.1 hs
      exact ⟨q, 0 + j, m, hpath, Node.mem_sites.1 hm, by simpa using hk, by simpa using hn,
        by simpa using hfits⟩
    · cases hs
  · rintro ⟨q, i, m, hpath, hm, hk, hn, hfits⟩
    refine ⟨⟨q, m⟩, Node.mem_sites.2 hm, ?_⟩
    simp only [Pattern.sitesAt, hk, BEq.rfl, ↓reduceIte]
    exact mem_siteChildren.2 ⟨i, by simpa using hpath, hn, hfits⟩

theorem mem_sites_of_child {parent : Nonterminal} {name : String}
    (h : s ∈ Rule.sites root ⟨.child parent role t before, name⟩) : s ∈ root.sites := by
  obtain ⟨-, q, i, m, hpath, hm, -, hn, -⟩ := mem_sites_child.1 h
  rw [← Node.at?_concat hm i, ← hpath] at hn
  exact Node.mem_sites.2 hn

/-! ## Tokens by their rules -/

/-- The rule, of those that take tokens wherever they stand, that takes a token. -/
def ruleOf : Terminal → Nat
  | .comment => 0
  | .number => 1
  | .identifier => 6
  | .plus | .minus | .star | .slash | .percent | .caret | .bang => 7
  | .colon | .semicolon => 8
  | .leftParen | .rightParen | .leftBracket | .rightBracket | .leftBrace | .rightBrace => 9

def ruleOf? (n : Node) : Option Nat :=
  match n.kind with
  | .terminal t => some (ruleOf t)
  | _ => none

theorem Rule.sites_eq_filter {r : Rule} {i : Nat}
    (h : ∀ s, r.pattern.sitesAt s = if ruleOf? s.node = some i then [s] else []) :
    r.sites root = root.sites.filter fun s => ruleOf? s.node = some i ∧ 0 < s.node.stop.bytes := by
  have hfind : root.sites.flatMap r.pattern.sitesAt =
      root.sites.filter (ruleOf? ·.node = some i) := by
    induction root.sites with
    | nil => rfl
    | cons s ss ih =>
      rw [List.flatMap_cons, ih, h, List.filter_cons]
      simp only [decide_eq_true_eq]
      split_ifs <;> rfl
  rw [sites, hfind, List.filter_filter]
  simp only [Bool.decide_and, Bool.and_comm]

theorem captured_eq {i : Nat} (hi : i ∈ [0, 1, 6, 7, 8, 9]) : captured root i =
    root.sites.filter fun s => ruleOf? s.node = some i ∧ 0 < s.node.stop.bytes := by
  have hrule : ∃ r, rules[i]? = some r ∧
      ∀ s, r.pattern.sitesAt s = if ruleOf? s.node = some i then [s] else [] := by
    simp only [List.mem_cons, List.not_mem_nil, or_false] at hi
    rcases hi with rfl | rfl | rfl | rfl | rfl | rfl <;> refine ⟨_, rfl, fun s => ?_⟩ <;>
      rcases hk : s.node.kind with _ | a | _ | _ | _ <;> try cases a
    all_goals simp [Pattern.sitesAt, isToken, ruleOf?, ruleOf, hk]
  obtain ⟨r, hr, hsites⟩ := hrule
  rw [captured, hr, ← Rule.sites_eq_filter hsites]
  rfl

theorem mem_captured {i : Nat} (hi : i ∈ [0, 1, 6, 7, 8, 9]) : s ∈ captured root i ↔
    s ∈ root.sites ∧ ruleOf? s.node = some i ∧ 0 < s.node.stop.bytes := by
  rw [captured_eq hi, List.mem_filter, decide_eq_true_iff]

theorem ruleOf?_mem {n : Node} {i : Nat} (h : ruleOf? n = some i) : i ∈ [0, 1, 6, 7, 8, 9] := by
  have hmem : ∀ t, ruleOf t ∈ [0, 1, 6, 7, 8, 9] := by
    intro t
    cases t <;> decide
  unfold ruleOf? at h
  split at h
  · exact Option.some.inj h ▸ hmem _
  · cases h

/-- The rules that take tokens wherever they stand capture every token once. -/
theorem captured_perm (root : Node) : ([0, 1, 6, 7, 8, 9].flatMap (captured root)).Perm
    (root.sites.filter fun s => (ruleOf? s.node).isSome ∧ 0 < s.node.stop.bytes) := by
  have hnodup : root.sites.Nodup := by
    refine List.Pairwise.imp (S := (· ≠ ·)) ?_ root.pairwise_sites
    rintro a b hab rfl
    exact List.lt_irrefl a.path hab
  refine (List.perm_ext_iff_of_nodup ?_ (hnodup.filter _)).2 fun s => ?_
  · refine List.nodup_flatMap.2 ⟨fun i hi => ?_, ?_⟩
    · rw [captured_eq hi]
      exact hnodup.filter _
    · refine List.Pairwise.imp_of_mem (R := (· ≠ ·)) (fun {i j} hi hj hij s hs hs' => hij ?_)
        (by decide)
      rw [mem_captured hi] at hs
      rw [mem_captured hj, hs.2.1] at hs'
      exact Option.some.inj hs'.2.1
  · rw [List.mem_flatMap, List.mem_filter, decide_eq_true_iff]
    constructor
    · rintro ⟨i, hi, hs⟩
      obtain ⟨hmem, hrule, hpos⟩ := (mem_captured hi).1 hs
      exact ⟨hmem, by rw [hrule]; rfl, hpos⟩
    · rintro ⟨hmem, hrule, hpos⟩
      obtain ⟨i, hi⟩ := Option.isSome_iff_exists.1 hrule
      exact ⟨i, ruleOf?_mem hi, (mem_captured (ruleOf?_mem hi)).2 ⟨hmem, hi, hpos⟩⟩

/-- The captures by the rules of some numbers. -/
theorem filter_captures_perm (root : Node) (is : List Nat) :
    ((captures root).filter (·.rule ∈ is)).Perm
      (((List.range rules.length).filter (· ∈ is)).flatMap
        fun i => (captured root i).map (capture i)) := by
  refine ((captures_perm root).filter _).trans (.of_eq ?_)
  induction List.range rules.length with
  | nil => rfl
  | cons i js ih =>
    rw [List.flatMap_cons, List.filter_append, ih, List.filter_cons]
    by_cases hi : i ∈ is
    · rw [if_pos (by simpa using hi), List.flatMap_cons,
        List.filter_eq_self.2 (by simpa [capture] using fun _ _ => hi)]
    · rw [if_neg (by simpa using hi),
        List.filter_eq_nil_iff.2 (by simpa [capture] using fun _ _ => hi), List.nil_append]

/-! ## Names by their roles -/

theorem ruleOf?_of_isToken {n : Node} (h : isToken t n) : ruleOf? n = some (ruleOf t) := by
  rw [ruleOf?, show n.kind = .terminal t by simpa [isToken] using h]

theorem isToken_of_fits {n : Node} {later : List Node} (h : fits role t before n later) :
    isToken t n := by
  simp only [fits, Bool.and_eq_true] at h
  exact h.1.1

theorem captured_of_child {parent : Nonterminal} {name : String}
    (h : s ∈ Rule.sites root ⟨.child parent role .identifier before, name⟩) :
    s.node.kind = .terminal .identifier ∧ s ∈ captured root 6 := by
  obtain ⟨hpos, q, i, m, -, -, -, -, hfits⟩ := mem_sites_child.1 h
  have htoken := isToken_of_fits hfits
  exact ⟨by simpa [isToken] using htoken, (mem_captured (by decide)).2
    ⟨mem_sites_of_child h, ruleOf?_of_isToken htoken, hpos⟩⟩

/-- A site has one node above it. -/
theorem parent_eq {parent parent' : Nonterminal} {role' : Option Field} {t' : Terminal}
    {before' : Option (Field × Nonterminal)} {name name' : String}
    (h : s ∈ Rule.sites root ⟨.child parent role t before, name⟩)
    (h' : s ∈ Rule.sites root ⟨.child parent' role' t' before', name'⟩) : parent = parent' := by
  obtain ⟨-, q, i, m, hpath, hm, hk, -⟩ := mem_sites_child.1 h
  obtain ⟨-, q', i', m', hpath', hm', hk', -⟩ := mem_sites_child.1 h'
  obtain ⟨rfl, -⟩ := List.append_inj' (hpath.symm.trans hpath') rfl
  obtain rfl := Option.some.inj (hm.symm.trans hm')
  simpa using hk.symm.trans hk'

theorem captured_function_subset : captured root 2 ⊆ captured root 3 := by
  intro s hs
  obtain ⟨hpos, q, i, m, hpath, hm, hk, hn, hfits⟩ := mem_sites_child.1 hs
  refine mem_sites_child.2 ⟨hpos, q, i, m, hpath, hm, hk, hn, ?_⟩
  simp only [fits, Bool.and_eq_true] at hfits ⊢
  exact ⟨hfits.1, rfl⟩

end Highlight

/-! ## Tokens in trees -/

namespace Node

variable {t : Tree} {input : Scan} {m n : Node}

theorem ruleOf?_root (h : t.Whole input) : Highlight.ruleOf? (root t) = none := by
  cases h with
  | file p cs hp hb hl => rfl
  | lost => rfl

/-- Below the root the tokens are the leaves that are no error nodes. -/
theorem isSome_ruleOf?_iff (h : t.Whole input) (hm : m ∈ (root t).nodes.tail) :
    (Highlight.ruleOf? m).isSome ↔ m.children = [] ∧ m.isError = false := by
  obtain ⟨u, p, f, hv, rfl, hb, hfile, -⟩ := exists_of_mem_tail h hm
  cases hb with
  | leaf l =>
    rcases hk : l.kind with a | _ <;>
      simp [Highlight.ruleOf?, shownAt, ofTree, Tree.kind, hk, isError, under, Tree.children,
        layoutAll_nil]
  | missing a ha => simp [Highlight.ruleOf?, shownAt, ofTree, Tree.kind, isError, under,
      Tree.children, layoutAll_nil]
  | node q cs hp hcs =>
    have hlhs : q.lhs ≠ .sourceFile := by simpa [Tree.IsFile, Tree.symbol?] using hfile
    have hspan := (Tree.Built.node q cs hp hcs).span_under (Tree.children_ne_nil hp hlhs) p none
    have hne := hspan.ne_nil
    exact iff_of_false (by simp [Highlight.ruleOf?, shownAt, ofTree, Tree.kind]) fun h => hne h.1
  | error cs hne hcs hfile => simp [Highlight.ruleOf?, shownAt, ofTree, Tree.kind, isError]
  | skipped => cases hv

/-- Tokens that are not missing take room. -/
theorem stop_pos (h : t.Whole input) (hi : input.Spaced) (hm : m ∈ (root t).nodes.tail)
    {a : Terminal} (hk : m.kind = .terminal a) (hmissing : m.isMissing = false) :
    0 < m.stop.bytes := by
  obtain ⟨u, p, f, hv, rfl, hb, hfile, ls, ms, hl, rfl⟩ := exists_of_mem_tail h hm
  cases hb with
  | leaf l =>
    have hpos := hi l (by simp [hl, Tree.leaves])
    show 0 < (Lexeme.reachAll ls + l.reach).bytes
    rw [Extent.bytes_add]
    omega
  | missing => cases hmissing
  | node | error | skipped => cases hk

/-- Comments and errors are what is extra. -/
theorem isExtra_iff (h : t.Whole input) (hm : m ∈ (root t).nodes.tail)
    (herror : m.isError = false) : m.isExtra ↔ m.kind = .terminal .comment := by
  obtain ⟨u, p, f, hv, rfl, hb, hfile, -⟩ := exists_of_mem_tail h hm
  cases hb with
  | leaf l => rcases hk : l.kind with a | _ <;> simp [shownAt, ofTree, Tree.isExtra, Tree.kind, hk]
  | missing a ha => simpa [shownAt, ofTree, Tree.isExtra, Tree.kind] using ha
  | node | skipped => simp [shownAt, ofTree, Tree.isExtra, Tree.kind]
  | error => cases herror

/-- What a node with children shows of its production. -/
theorem exists_production (h : t.Whole input) (hm : m ∈ (root t).nodes) (hne : m.children ≠ [])
    (herror : m.isError = false) : ∃ p : Production, p.lhs.isVisible ∧
      m.kind = .nonterminal p.lhs ∧
      Spread (Role.assign p.fieldAt none 0 p.rhs) (facets m.children) := by
  rcases root_or_mem_tail hm with rfl | hm
  · rw [root_eq] at herror ⊢
    have hv := h.isVisible
    cases h with
    | file p cs hp hb hl => exact ⟨p, hv, rfl, hb.spread_file _ 0⟩
    | lost => cases herror
  · obtain ⟨u, place, f, hv, rfl, hb, -⟩ := exists_of_mem_tail h hm
    cases hb with
    | leaf | missing => exact absurd rfl hne
    | node p cs hp hcs =>
      exact ⟨p, hv, rfl, spread_under hp (fun c hc => .inl (hcs c hc)) place⟩
    | error => cases herror
    | skipped => cases hv

end Node

namespace Production

/-- Names stand in assignments, calls and lists of parameters, and are expressions on their own. -/
theorem identifier_roles : ∀ p ∈ all, p.lhs.isVisible →
    ∀ r ∈ Role.assign p.fieldAt none 0 p.rhs, .terminal .identifier ∈ r.2.kinds →
      p.lhs = .assignment ∧ r.1 = some .name ∨ p.lhs = .functionCall ∧ r.1 = some .function ∨
        p.lhs = .parameterList ∨ p = namePrimary := by
  decide +kernel

end Production

/-! ## Documents -/

namespace Node

variable {t : Tree} {input : Scan}

/-- The tokens that the rules are for are the leaves that are no error nodes. -/
theorem map_node_filter_sites (h : t.Whole input) :
    ((root t).sites.filter fun s =>
      (Highlight.ruleOf? s.node).isSome ∧ 0 < s.node.stop.bytes).map Site.node =
    (root t).leaves.filter fun n => n.isError = false ∧ 0 < n.stop.bytes := by
  set q : Node → Bool := fun n => (Highlight.ruleOf? n).isSome ∧ 0 < n.stop.bytes
  have hnodes : ((root t).sites.filter fun s => q s.node).map Site.node =
      (root t).nodes.filter q := by
    rw [← map_node_sites, List.filter_map]
    rfl
  rw [hnodes, nodes_eq, List.filter_cons_of_neg (by simp [q, ruleOf?_root h]), leaves, nodes_eq,
    List.tail_cons, List.filter_filter]
  refine List.filter_congr fun n hn => ?_
  have htoken := isSome_ruleOf?_iff h (m := n) (by rwa [nodes_eq])
  rw [Bool.eq_iff_iff]
  simp only [q, htoken, decide_eq_true_eq, Bool.and_eq_true, List.isEmpty_iff]
  tauto

end Node

namespace Highlight

section Whole

variable {t : Tree} {input : Scan} {s : Site} {i : Nat}

/-- The rules that take tokens wherever they stand capture the ranges of the leaves. -/
theorem ranges_perm (h : t.Whole input) :
    (((captures (.root t)).filter (·.rule ∈ [0, 1, 6, 7, 8, 9])).map
      fun c => (c.start, c.stop)).Perm
    (((Node.root t).leaves.filter fun n => n.isError = false ∧ 0 < n.stop.bytes).map
      fun n => (n.start.bytes, n.stop.bytes)) := by
  have hrules : (List.range rules.length).filter (· ∈ [0, 1, 6, 7, 8, 9]) = [0, 1, 6, 7, 8, 9] := by
    decide
  have hranges := (filter_captures_perm (.root t) [0, 1, 6, 7, 8, 9]).map
    fun c => (c.start, c.stop)
  rw [hrules, List.map_flatMap] at hranges
  rw [← Node.map_node_filter_sites h, List.map_map]
  refine hranges.trans (.trans (.of_eq ?_) ((captured_perm (.root t)).map _))
  rw [List.map_flatMap]
  refine List.flatMap_congr fun i _ => ?_
  rw [List.map_map]
  rfl

theorem leaf_of_captured (h : t.Whole input) (hi : i ∈ [0, 1, 6, 7, 8, 9])
    (hs : s ∈ captured (.root t) i) : s ∈ (Node.root t).sites.tail ∧
      s.node.children = [] ∧ s.node.isError = false ∧ 0 < s.node.stop.bytes := by
  obtain ⟨hmem, hrule, hpos⟩ := (mem_captured hi).1 hs
  have htail : s ∈ (Node.root t).sites.tail := by
    rw [Node.sites_eq] at hmem ⊢
    rcases List.mem_cons.1 hmem with rfl | hmem
    · rw [Node.ruleOf?_root h] at hrule
      cases hrule
    · exact hmem
  obtain ⟨hleaf, herror⟩ := (Node.isSome_ruleOf?_iff h (Node.mem_tail_nodes htail)).1
    (Option.isSome_of_mem hrule)
  exact ⟨htail, hleaf, herror, hpos⟩

theorem existsUnique_captured (h : t.Whole input) (hs : s ∈ (Node.root t).sites.tail)
    (hleaf : s.node.children = []) (herror : s.node.isError = false)
    (hpos : 0 < s.node.stop.bytes) :
    ∃! i, i ∈ [0, 1, 6, 7, 8, 9] ∧ s ∈ captured (.root t) i := by
  obtain ⟨i, hi⟩ := Option.isSome_iff_exists.1
    ((Node.isSome_ruleOf?_iff h (Node.mem_tail_nodes hs)).2 ⟨hleaf, herror⟩)
  refine ⟨i, ⟨ruleOf?_mem hi, ?_⟩, fun j ⟨hj, hs'⟩ => ?_⟩
  · exact (mem_captured (ruleOf?_mem hi)).2 ⟨List.mem_of_mem_tail hs, hi, hpos⟩
  · obtain ⟨-, hrule, -⟩ := (mem_captured hj).1 hs'
    exact Option.some.inj (hrule.symm.trans hi)

end Whole

section Sound

variable {t : Tree} {input : Scan} {s : Site} {m n : Node}
  (hsound : ∀ n ∈ (Node.root t).nodes, n.isFlaw = false)

include hsound

theorem isError_of_sound (hm : m ∈ (Node.root t).nodes) : m.isError = false :=
  (Bool.or_eq_false_iff.1 (hsound m hm)).1

/-- Comments are all that is extra in a tree without flaws. -/
theorem isExtra_of_sound (h : t.Whole input) (hm : m ∈ (Node.root t).nodes)
    (hn : n ∈ m.children) : n.isExtra ↔ n.kind = .terminal .comment := by
  have htail := Node.mem_tail_of_mem_children hm hn
  exact Node.isExtra_iff h htail (isError_of_sound hsound (List.mem_of_mem_tail htail))

/-- A name is the only named child, comments apart, of a construct with a single part. -/
theorem filter_children_eq (h : t.Whole input) (hm : m ∈ (Node.root t).nodes)
    (hn : n ∈ m.children) (hk : n.kind = .terminal .identifier)
    (hone : (Node.facets m.children).length = 1) :
    m.children.filter (fun n => n.isNamed ∧ n.kind ≠ .terminal .comment) = [n] := by
  have hparts : m.children.filter (fun n => n.isNamed ∧ n.kind ≠ .terminal .comment) =
      (m.children.filter (!·.isExtra)).filter Node.isNamed := by
    rw [List.filter_filter]
    refine List.filter_congr fun n hn => ?_
    rw [Bool.eq_iff_iff]
    simp [← isExtra_of_sound hsound h hm hn]
  rw [Node.facets, List.length_map] at hone
  obtain ⟨x, hx⟩ := List.length_eq_one_iff.1 hone
  have hmem : n ∈ m.children.filter (!·.isExtra) := by
    simp [hn, ← Bool.not_eq_true, isExtra_of_sound hsound h hm hn, hk]
  rw [hx, List.mem_singleton] at hmem
  rw [hparts, hx, ← hmem]
  simp [Node.isNamed, hk, Kind.isNamed, Terminal.isNamed, Terminal.char?]

theorem stop_pos_of_sound (h : t.Whole input) (hi : input.Spaced)
    (hm : m ∈ (Node.root t).nodes.tail) {a : Terminal} (hk : m.kind = .terminal a) :
    0 < m.stop.bytes :=
  Node.stop_pos h hi hm hk (Bool.or_eq_false_iff.1 (hsound m (List.mem_of_mem_tail hm))).2

/-- In a tree without flaws a name that is in no role is an expression on its own. -/
theorem only_child (h : t.Whole input) (hi : input.Spaced) (hs : s ∈ (Node.root t).sites)
    (hk : s.node.kind = .terminal .identifier)
    (hrole : ∀ i ∈ [3, 4, 5], s ∉ captured (.root t) i) : ∃ q i m, s.path = q ++ [i] ∧
      (Node.root t).at? q = some m ∧ m.kind = .nonterminal .primary ∧
      m.children.filter (fun n => n.isNamed ∧ n.kind ≠ .terminal .comment) = [s.node] := by
  have hat : (Node.root t).at? s.path = some s.node := Node.mem_sites.1 hs
  have hpath : s.path ≠ [] := by
    intro hnil
    rw [hnil, Node.at?, Option.some.injEq] at hat
    have hnone := Node.ruleOf?_root h
    rw [hat, ruleOf?, hk] at hnone
    cases hnone
  obtain ⟨q, i, m, hq, hm, hn⟩ := Node.exists_parent hat hpath
  have hmem : m ∈ (Node.root t).nodes := Node.mem_nodes_of_mem_sites (Node.mem_sites.2 hm)
  have hchild := List.mem_of_getElem? hn
  obtain ⟨p, hv, hkind, hspread⟩ := Node.exists_production h hmem (List.ne_nil_of_mem hchild)
    (isError_of_sound hsound hmem)
  have hfacet : (s.node.field, s.node.kind) ∈ Node.facets m.children := by
    refine List.mem_map.2 ⟨s.node, List.mem_filter.2 ⟨hchild, ?_⟩, rfl⟩
    simp [← Bool.not_eq_true, isExtra_of_sound hsound h hmem hchild, hk]
  have hcaptured : ∀ {parent role name}, m.kind = .nonterminal parent →
      role.all (s.node.field == some ·) →
      s ∈ Rule.sites (.root t) ⟨.child parent role .identifier none, name⟩ := by
    intro parent role name hparent hfield
    have htail := Node.mem_tail_of_mem_children hmem hchild
    refine mem_sites_child.2 ⟨stop_pos_of_sound hsound h hi htail hk, q, i, m, hq, hm, hparent, hn,
      ?_⟩
    simp only [fits, isToken, hk, BEq.rfl, hfield, Option.all_none, Bool.and_self]
  obtain ⟨r, hr, hfield, hkinds⟩ := hspread.exists_role _ hfacet
  simp only [hk] at hkinds
  rcases p.identifier_roles p.mem_all hv r hr hkinds with
    ⟨hlhs, hname⟩ | ⟨hlhs, hname⟩ | hlhs | rfl
  · refine absurd (hcaptured (hlhs ▸ hkind) ?_) (hrole 3 (by simp))
    simp [← show r.1 = s.node.field from hfield, hname]
  · refine absurd (hcaptured (hlhs ▸ hkind) ?_) (hrole 4 (by simp))
    simp [← show r.1 = s.node.field from hfield, hname]
  · exact absurd (hcaptured (hlhs ▸ hkind) rfl) (hrole 5 (by simp))
  · refine ⟨q, i, m, hq, hm, hkind, filter_children_eq hsound h hmem hchild hk ?_⟩
    exact hspread.length_eq (by decide)

end Sound

end Highlight

namespace Document

open Highlight

variable {source : String} {d : Document}

/-- The rules that take tokens wherever they stand name each leaf of a document exactly once, error
nodes and what ends where the source starts apart. The rules for names in their roles take names
that are named already; none is in two roles, and if there is no damage a name without a role is an
expression on its own. -/
theorem classifies (h : (parse source).value = .ok d) :
    (captures d.root).Perm ((List.range rules.length).flatMap fun i =>
      (captured d.root i).map (capture i)) ∧
    (((captures d.root).filter (·.rule ∈ [0, 1, 6, 7, 8, 9])).map fun c => (c.start, c.stop)).Perm
      ((d.root.leaves.filter fun n => n.isError = false ∧ 0 < n.stop.bytes).map
        fun n => (n.start.bytes, n.stop.bytes)) ∧
    (∀ i ∈ [0, 1, 6, 7, 8, 9], ∀ s ∈ captured d.root i, s ∈ d.root.sites.tail ∧
      s.node.children = [] ∧ s.node.isError = false ∧ 0 < s.node.stop.bytes) ∧
    (∀ s ∈ d.root.sites.tail, s.node.children = [] → s.node.isError = false →
      0 < s.node.stop.bytes → ∃! i, i ∈ [0, 1, 6, 7, 8, 9] ∧ s ∈ captured d.root i) ∧
    (∀ i ∈ [2, 3, 4, 5], ∀ s ∈ captured d.root i,
      s.node.kind = .terminal .identifier ∧ s ∈ captured d.root 6) ∧
    captured d.root 2 ⊆ captured d.root 3 ∧
    (∀ i ∈ [3, 4, 5], ∀ j ∈ [3, 4, 5], ∀ s ∈ captured d.root i, s ∈ captured d.root j → i = j) ∧
    (d.root.isDamaged = false → ∀ s ∈ d.root.sites, s.node.kind = .terminal .identifier →
      (∀ i ∈ [3, 4, 5], s ∉ captured d.root i) → ∃ q i m, s.path = q ++ [i] ∧
        d.root.at? q = some m ∧ m.kind = .nonterminal .primary ∧
        m.children.filter (fun n => n.isNamed ∧ n.kind ≠ .terminal .comment) = [s.node]) := by
  obtain ⟨t, -, hroot, hwhole⟩ := whole_of_parse h
  rw [hroot]
  refine ⟨captures_perm _, ranges_perm hwhole, fun i hi s => leaf_of_captured hwhole hi,
    fun s => existsUnique_captured hwhole, ?_, captured_function_subset, ?_, fun hd s => ?_⟩
  · intro i hi s hs
    simp only [List.mem_cons, List.not_mem_nil, or_false] at hi
    rcases hi with rfl | rfl | rfl | rfl <;> exact captured_of_child hs
  · intro i hi j hj s hs hs'
    simp only [List.mem_cons, List.not_mem_nil, or_false] at hi hj
    rcases hi with rfl | rfl | rfl <;> rcases hj with rfl | rfl | rfl <;>
      first | rfl | cases parent_eq hs hs'
  · refine only_child (fun n hn => ?_) hwhole (Scan.spaced_ofChars _)
    by_contra hflaw
    rw [(Node.isDamaged_root_iff hwhole).2 ⟨n, hn, by simpa using hflaw⟩] at hd
    cases hd

theorem classifies_function : ∃ d, (parse "f:\x7b[x]x\x7d").value = .ok d ∧
    (((captures d.root).filter (·.rule ∈ [0, 1, 6, 7, 8, 9])).map fun c => (c.start, c.stop)).Perm
      [(0, 1), (1, 2), (2, 3), (3, 4), (4, 5), (5, 6), (6, 7), (7, 8)] ∧
    ∃ s ∈ d.root.sites, s.node.kind = .terminal .identifier ∧ ∃ q i m, s.path = q ++ [i] ∧
      d.root.at? q = some m ∧ m.kind = .nonterminal .primary ∧
      m.children.filter (fun n => n.isNamed ∧ n.kind ≠ .terminal .comment) = [s.node] := by
  have hany : (ofSourceWithin? 1000 "f:\x7b[x]x\x7d").any fun d => d.root.isDamaged = false ∧
      ((d.root.leaves.filter fun n => n.isError = false ∧ 0 < n.stop.bytes).map
        fun n => (n.start.bytes, n.stop.bytes)) =
        [(0, 1), (1, 2), (2, 3), (3, 4), (4, 5), (5, 6), (6, 7), (7, 8)] ∧
      ∃ s ∈ d.root.sites, s.node.kind = .terminal .identifier ∧
        ∀ i ∈ [3, 4, 5], s.path ∉ (captured d.root i).map Site.path := by decide +kernel
  obtain ⟨d, h, hd, hranges, s, hs, hk, hrole⟩ := exists_of_within 1000 _ _ hany
  obtain ⟨-, hperm, -, -, -, -, -, hname⟩ := classifies h
  refine ⟨d, h, hranges ▸ hperm, s, hs, hk, hname hd s hs hk fun i hi hs' => ?_⟩
  exact hrole i hi (List.mem_map_of_mem hs')

end Document

end CalcTree
