import CalcTree.Proofs.Program

/-!
# Programs of derivations

Every derivation of a file is one of a program (`Program.exists_of_valid`). Where a statement ends
in an expression and the next one starts with a minus, the same tokens are also those of a
difference. So every program has a well formed one with the same tokens
(`Program.exists_wellFormed`), and what the grammar derives are the tokens of well formed programs
(`Program.mem_language_iff`).
-/

namespace CalcTree

/-! ## Programs of derivations -/

namespace Production

/-- The ways to build a construct. -/
def ways (n : Nonterminal) : List Production :=
  all.filter fun p => p.lhs = n

theorem mem_ways {p : Production} {n : Nonterminal} (h : p.lhs = n) : p ∈ ways n :=
  List.mem_filter.2 ⟨p.mem_all, decide_eq_true h⟩

end Production

namespace Derivation

variable {d : Derivation} {ds : List Derivation} {X Y Z W : Symbol}

theorem eq_token {t : Terminal} (h : d.symbol = .terminal t) : d = .token t := by
  cases d with
  | token t' =>
    obtain rfl : t' = t := by simpa using h
    rfl
  | node => simp at h

theorem exists_node {n : Nonterminal} (hv : d.Valid) (h : d.symbol = .nonterminal n) :
    ∃ p ∈ Production.ways n, ∃ ds, d = .node p ds ∧ ds.map symbol = p.rhs ∧ ValidAll ds := by
  cases d with
  | token => simp at h
  | node p ds => exact ⟨p, Production.mem_ways (by simpa using h), ds, rfl, hv⟩

theorem exists_part (h : ds.map symbol = [X]) (hv : ValidAll ds) :
    ∃ a, ds = [a] ∧ a.symbol = X ∧ a.Valid := by
  rcases ds with _ | ⟨a, _ | ⟨b, ds⟩⟩ <;> simp only [List.map_nil, List.map_cons,
    List.cons.injEq, reduceCtorEq, and_true, and_false] at h
  exact ⟨a, rfl, h, hv.1⟩

theorem exists_two (h : ds.map symbol = [X, Y]) (hv : ValidAll ds) :
    ∃ a b, ds = [a, b] ∧ (a.symbol = X ∧ a.Valid) ∧ b.symbol = Y ∧ b.Valid := by
  rcases ds with _ | ⟨a, ds⟩ <;>
    simp only [List.map_nil, List.map_cons, List.cons.injEq, reduceCtorEq] at h
  obtain ⟨b, rfl, hb⟩ := exists_part h.2 hv.2
  exact ⟨a, b, rfl, ⟨h.1, hv.1⟩, hb⟩

theorem exists_three (h : ds.map symbol = [X, Y, Z]) (hv : ValidAll ds) :
    ∃ a b c, ds = [a, b, c] ∧ (a.symbol = X ∧ a.Valid) ∧ (b.symbol = Y ∧ b.Valid) ∧
      c.symbol = Z ∧ c.Valid := by
  rcases ds with _ | ⟨a, ds⟩ <;>
    simp only [List.map_nil, List.map_cons, List.cons.injEq, reduceCtorEq] at h
  obtain ⟨b, c, rfl, hb, hc⟩ := exists_two h.2 hv.2
  exact ⟨a, b, c, rfl, ⟨h.1, hv.1⟩, hb, hc⟩

theorem exists_four (h : ds.map symbol = [X, Y, Z, W]) (hv : ValidAll ds) :
    ∃ a b c d, ds = [a, b, c, d] ∧ (a.symbol = X ∧ a.Valid) ∧ (b.symbol = Y ∧ b.Valid) ∧
      (c.symbol = Z ∧ c.Valid) ∧ d.symbol = W ∧ d.Valid := by
  rcases ds with _ | ⟨a, ds⟩ <;>
    simp only [List.map_nil, List.map_cons, List.cons.injEq, reduceCtorEq] at h
  obtain ⟨b, c, d, rfl, hb, hc, hd⟩ := exists_three h.2 hv.2
  exact ⟨a, b, c, d, rfl, ⟨h.1, hv.1⟩, hb, hc, hd⟩

end Derivation

namespace Phrase

open CalcTree.Derivation

/-- Whether derivations of fewer than `n` productions are those of phrases. -/
def Readable (n : Nat) : Prop :=
  ∀ {d : Derivation} {l : Level}, d.nodes < n → d.Valid →
    d.symbol = .nonterminal l.nonterminal → ∃ e : Phrase l, e.derivation = d

namespace Readable

variable {n : Nat} {ds : List Derivation} {t : Terminal} {k l : Level}

theorem single (h : Readable n) (hn : nodesAll ds < n)
    (hds : ds.map symbol = [.nonterminal l.nonterminal]) (hv : ValidAll ds) :
    ∃ e : Phrase l, ds = [e.derivation] := by
  obtain ⟨a, rfl, ha, hva⟩ := exists_part hds hv
  obtain ⟨e, rfl⟩ := h (by simpa [nodesAll] using hn) hva ha
  exact ⟨e, rfl⟩

theorem infixed (h : Readable n) (hn : nodesAll ds < n)
    (hds : ds.map symbol = [.nonterminal k.nonterminal, .terminal t, .nonterminal l.nonterminal])
    (hv : ValidAll ds) :
    ∃ (x : Phrase k) (y : Phrase l), ds = [x.derivation, .token t, y.derivation] := by
  obtain ⟨a, b, c, rfl, ⟨ha, hva⟩, ⟨hb, -⟩, hc, hvc⟩ := exists_three hds hv
  simp only [nodesAll] at hn
  obtain ⟨x, rfl⟩ := h (by omega) hva ha
  obtain ⟨y, rfl⟩ := h (by omega) hvc hc
  rw [eq_token hb]
  exact ⟨x, y, rfl⟩

theorem expression {d : Derivation} (h : Readable n) (hn : d.nodes < n) (hv : d.Valid)
    (hd : d.symbol = .nonterminal .expression) :
    ∃ e : Phrase .sum, d = .node .expression [e.derivation] := by
  obtain ⟨p, hp, ds, rfl, hds, hall⟩ := exists_node hv hd
  rcases (show p ∈ [.expression] from hp) with _ | ⟨_, _ | _⟩
  simp only [nodes] at hn
  obtain ⟨e, rfl⟩ := h.single (l := .sum) (by omega) hds hall
  exact ⟨e, rfl⟩

/-! Each level, if the derivations below are those of phrases. -/

variable {d : Derivation}

theorem sum (h : Readable n) (hn : d.nodes ≤ n) (hv : d.Valid)
    (hd : d.symbol = .nonterminal .sum) : ∃ e : Phrase .sum, e.derivation = d := by
  obtain ⟨p, hp, ds, rfl, hds, hall⟩ := exists_node hv hd
  rw [nodes] at hn
  -- One case for each place in the list of productions, and none past its end.
  rcases (show p ∈ [.sumOfAdditive, .sumOfProduct] from hp) with _ | ⟨_, _ | ⟨_, _ | _⟩⟩
  · obtain ⟨a, rfl, ha, hva⟩ := exists_part hds hall
    obtain ⟨q, hq, es, rfl, hes, hall'⟩ := exists_node hva ha
    simp only [nodesAll, nodes] at hn
    rcases (show q ∈ [.addition, .subtraction] from hq) with _ | ⟨_, _ | ⟨_, _ | _⟩⟩
    · obtain ⟨x, y, rfl⟩ := h.infixed (k := .sum) (l := .product) (by omega) hes hall'
      exact ⟨additive x .plus y, rfl⟩
    · obtain ⟨x, y, rfl⟩ := h.infixed (k := .sum) (l := .product) (by omega) hes hall'
      exact ⟨additive x .minus y, rfl⟩
  · obtain ⟨x, rfl⟩ := h.single (l := .product) (by omega) hds hall
    exact ⟨ofProduct x, rfl⟩

theorem product (h : Readable n) (hn : d.nodes ≤ n) (hv : d.Valid)
    (hd : d.symbol = .nonterminal .product) : ∃ e : Phrase .product, e.derivation = d := by
  obtain ⟨p, hp, ds, rfl, hds, hall⟩ := exists_node hv hd
  rw [nodes] at hn
  rcases (show p ∈ [.productOfMultiplicative, .productOfSigned] from hp) with
    _ | ⟨_, _ | ⟨_, _ | _⟩⟩
  · obtain ⟨a, rfl, ha, hva⟩ := exists_part hds hall
    obtain ⟨q, hq, es, rfl, hes, hall'⟩ := exists_node hva ha
    simp only [nodesAll, nodes] at hn
    rcases (show q ∈ [.multiplication, .division, .remainder] from hq) with
      _ | ⟨_, _ | ⟨_, _ | ⟨_, _ | _⟩⟩⟩
    · obtain ⟨x, y, rfl⟩ := h.infixed (k := .product) (l := .signed) (by omega) hes hall'
      exact ⟨multiplicative x .star y, rfl⟩
    · obtain ⟨x, y, rfl⟩ := h.infixed (k := .product) (l := .signed) (by omega) hes hall'
      exact ⟨multiplicative x .slash y, rfl⟩
    · obtain ⟨x, y, rfl⟩ := h.infixed (k := .product) (l := .signed) (by omega) hes hall'
      exact ⟨multiplicative x .percent y, rfl⟩
  · obtain ⟨x, rfl⟩ := h.single (l := .signed) (by omega) hds hall
    exact ⟨ofSigned x, rfl⟩

theorem signed (h : Readable n) (hn : d.nodes ≤ n) (hv : d.Valid)
    (hd : d.symbol = .nonterminal .signed) : ∃ e : Phrase .signed, e.derivation = d := by
  obtain ⟨p, hp, ds, rfl, hds, hall⟩ := exists_node hv hd
  rw [nodes] at hn
  rcases (show p ∈ [.signedOfUnary, .signedOfRaised] from hp) with _ | ⟨_, _ | ⟨_, _ | _⟩⟩
  · obtain ⟨a, rfl, ha, hva⟩ := exists_part hds hall
    obtain ⟨q, hq, es, rfl, hes, hall'⟩ := exists_node hva ha
    rcases (show q ∈ [.negation] from hq) with _ | ⟨_, _ | _⟩
    obtain ⟨b, c, rfl, ⟨hb, -⟩, hc, hvc⟩ := exists_two hes hall'
    simp only [nodesAll, nodes] at hn
    obtain ⟨x, rfl⟩ := h (l := .signed) (by omega) hvc hc
    rw [eq_token hb]
    exact ⟨negation x, rfl⟩
  · obtain ⟨x, rfl⟩ := h.single (l := .raised) (by omega) hds hall
    exact ⟨ofRaised x, rfl⟩

theorem raised (h : Readable n) (hn : d.nodes ≤ n) (hv : d.Valid)
    (hd : d.symbol = .nonterminal .raised) : ∃ e : Phrase .raised, e.derivation = d := by
  obtain ⟨p, hp, ds, rfl, hds, hall⟩ := exists_node hv hd
  rw [nodes] at hn
  rcases (show p ∈ [.raisedOfPower, .raisedOfSuffixed] from hp) with _ | ⟨_, _ | ⟨_, _ | _⟩⟩
  · obtain ⟨a, rfl, ha, hva⟩ := exists_part hds hall
    obtain ⟨q, hq, es, rfl, hes, hall'⟩ := exists_node hva ha
    rcases (show q ∈ [.power] from hq) with _ | ⟨_, _ | _⟩
    simp only [nodesAll, nodes] at hn
    obtain ⟨x, y, rfl⟩ := h.infixed (k := .suffixed) (l := .signed) (by omega) hes hall'
    exact ⟨power x y, rfl⟩
  · obtain ⟨x, rfl⟩ := h.single (l := .suffixed) (by omega) hds hall
    exact ⟨ofSuffixed x, rfl⟩

theorem suffixed (h : Readable n) (hn : d.nodes ≤ n) (hv : d.Valid)
    (hd : d.symbol = .nonterminal .suffixed) : ∃ e : Phrase .suffixed, e.derivation = d := by
  obtain ⟨p, hp, ds, rfl, hds, hall⟩ := exists_node hv hd
  rw [nodes] at hn
  rcases (show p ∈ [.suffixedOfFactorial, .suffixedOfPrimary] from hp) with
    _ | ⟨_, _ | ⟨_, _ | _⟩⟩
  · obtain ⟨a, rfl, ha, hva⟩ := exists_part hds hall
    obtain ⟨q, hq, es, rfl, hes, hall'⟩ := exists_node hva ha
    rcases (show q ∈ [.factorial] from hq) with _ | ⟨_, _ | _⟩
    obtain ⟨b, c, rfl, ⟨hb, hvb⟩, hc, -⟩ := exists_two hes hall'
    simp only [nodesAll, nodes] at hn
    obtain ⟨x, rfl⟩ := h (l := .suffixed) (by omega) hvb hb
    rw [eq_token hc]
    exact ⟨factorial x, rfl⟩
  · obtain ⟨x, rfl⟩ := h.single (l := .primary) (by omega) hds hall
    exact ⟨ofPrimary x, rfl⟩

theorem functionCall (h : Readable n) (hn : d.nodes < n) (hv : d.Valid)
    (hd : d.symbol = .nonterminal .functionCall) :
    ∃ e : Phrase .primary, e.derivation = .node .callPrimary [d] := by
  obtain ⟨p, hp, ds, rfl, hds, hall⟩ := exists_node hv hd
  rw [nodes] at hn
  rcases (show p ∈ [.emptyCall, .call] from hp) with _ | ⟨_, _ | ⟨_, _ | _⟩⟩
  · obtain ⟨a, b, c, rfl, ⟨ha, -⟩, ⟨hb, -⟩, hc, -⟩ := exists_three hds hall
    rw [eq_token ha, eq_token hb, eq_token hc]
    exact ⟨emptyCall, rfl⟩
  · obtain ⟨a, b, c, e, rfl, ⟨ha, -⟩, ⟨hb, -⟩, ⟨hc, hvc⟩, he, -⟩ := exists_four hds hall
    simp only [nodesAll] at hn
    obtain ⟨x, rfl⟩ := h (l := .arguments) (by omega) hvc hc
    rw [eq_token ha, eq_token hb, eq_token he]
    exact ⟨call x, rfl⟩

theorem primary (h : Readable n) (hn : d.nodes ≤ n) (hv : d.Valid)
    (hd : d.symbol = .nonterminal .primary) : ∃ e : Phrase .primary, e.derivation = d := by
  obtain ⟨p, hp, ds, rfl, hds, hall⟩ := exists_node hv hd
  rw [nodes] at hn
  rcases (show p ∈ [.numberPrimary, .namePrimary, .callPrimary, .parenthesised] from hp) with
    _ | ⟨_, _ | ⟨_, _ | ⟨_, _ | ⟨_, _ | _⟩⟩⟩⟩
  · obtain ⟨a, rfl, ha, -⟩ := exists_part hds hall
    rw [eq_token ha]
    exact ⟨number, rfl⟩
  · obtain ⟨a, rfl, ha, -⟩ := exists_part hds hall
    rw [eq_token ha]
    exact ⟨name, rfl⟩
  · obtain ⟨a, rfl, ha, hva⟩ := exists_part hds hall
    simp only [nodesAll] at hn
    exact h.functionCall (by omega) hva ha
  · obtain ⟨a, b, c, rfl, ⟨ha, -⟩, ⟨hb, hvb⟩, hc, -⟩ := exists_three hds hall
    simp only [nodesAll] at hn
    obtain ⟨x, rfl⟩ := h.expression (by omega) hvb hb
    rw [eq_token ha, eq_token hc]
    exact ⟨parenthesised x, rfl⟩

theorem arguments (h : Readable n) (hn : d.nodes ≤ n) (hv : d.Valid)
    (hd : d.symbol = .nonterminal .argumentList) : ∃ e : Phrase .arguments, e.derivation = d := by
  obtain ⟨p, hp, ds, rfl, hds, hall⟩ := exists_node hv hd
  rw [nodes] at hn
  rcases (show p ∈ [.oneArgument, .manyArguments] from hp) with _ | ⟨_, _ | ⟨_, _ | _⟩⟩
  · obtain ⟨a, rfl, ha, hva⟩ := exists_part hds hall
    simp only [nodesAll] at hn
    obtain ⟨x, rfl⟩ := h.expression (by omega) hva ha
    exact ⟨oneArgument x, rfl⟩
  · obtain ⟨a, b, rfl, ⟨ha, hva⟩, hb, hvb⟩ := exists_two hds hall
    simp only [nodesAll] at hn
    obtain ⟨x, rfl⟩ := h.expression (by omega) hva ha
    obtain ⟨y, rfl⟩ := h (l := .moreArguments) (by omega) hvb hb
    exact ⟨manyArguments x y, rfl⟩

theorem moreArguments (h : Readable n) (hn : d.nodes ≤ n) (hv : d.Valid)
    (hd : d.symbol = .nonterminal .moreArguments) :
    ∃ e : Phrase .moreArguments, e.derivation = d := by
  obtain ⟨p, hp, ds, rfl, hds, hall⟩ := exists_node hv hd
  rw [nodes] at hn
  rcases (show p ∈ [.secondArgument, .nextArgument] from hp) with _ | ⟨_, _ | ⟨_, _ | _⟩⟩
  · obtain ⟨a, b, rfl, ⟨ha, -⟩, hb, hvb⟩ := exists_two hds hall
    simp only [nodesAll] at hn
    obtain ⟨x, rfl⟩ := h.expression (by omega) hvb hb
    rw [eq_token ha]
    exact ⟨secondArgument x, rfl⟩
  · obtain ⟨a, b, c, rfl, ⟨ha, hva⟩, ⟨hb, -⟩, hc, hvc⟩ := exists_three hds hall
    simp only [nodesAll] at hn
    obtain ⟨x, rfl⟩ := h (l := .moreArguments) (by omega) hva ha
    obtain ⟨y, rfl⟩ := h.expression (by omega) hvc hc
    rw [eq_token hb]
    exact ⟨nextArgument x y, rfl⟩

end Readable

theorem readable (n : Nat) : Readable n := by
  induction n with
  | zero =>
    intro d l hn
    simp at hn
  | succ n ih =>
    intro d l hn hv hl
    have hn' := Nat.le_of_lt_succ hn
    cases l with
    | sum => exact ih.sum hn' hv hl
    | product => exact ih.product hn' hv hl
    | signed => exact ih.signed hn' hv hl
    | raised => exact ih.raised hn' hv hl
    | suffixed => exact ih.suffixed hn' hv hl
    | primary => exact ih.primary hn' hv hl
    | arguments => exact ih.arguments hn' hv hl
    | moreArguments => exact ih.moreArguments hn' hv hl

end Phrase

namespace Statement

open CalcTree.Derivation

variable {d : Derivation}

theorem exists_moreParameters : ∀ (n : Nat) {d : Derivation}, d.nodes ≤ n → d.Valid →
    d.symbol = .nonterminal .moreParameters → ∃ k, moreParameters k = d
  | 0, d, hn, hv, hd => by
    obtain ⟨p, -, ds, rfl, -⟩ := exists_node hv hd
    simp [nodes] at hn
  | n + 1, d, hn, hv, hd => by
    obtain ⟨p, hp, ds, rfl, hds, hall⟩ := exists_node hv hd
    rw [nodes] at hn
    rcases (show p ∈ [.secondParameter, .nextParameter] from hp) with _ | ⟨_, _ | ⟨_, _ | _⟩⟩
    · obtain ⟨a, b, rfl, ⟨ha, -⟩, hb, -⟩ := exists_two hds hall
      rw [eq_token ha, eq_token hb]
      exact ⟨0, rfl⟩
    · obtain ⟨a, b, c, rfl, ⟨ha, hva⟩, ⟨hb, -⟩, hc, -⟩ := exists_three hds hall
      simp only [nodesAll] at hn
      obtain ⟨k, rfl⟩ := exists_moreParameters n (by omega) hva ha
      rw [eq_token hb, eq_token hc]
      exact ⟨k + 1, rfl⟩

theorem exists_parameterList (hv : d.Valid) (hd : d.symbol = .nonterminal .parameterList) :
    ∃ k, parameterList k = d := by
  obtain ⟨p, hp, ds, rfl, hds, hall⟩ := exists_node hv hd
  rcases (show p ∈ [.noParameters, .oneParameter, .manyParameters] from hp) with
    _ | ⟨_, _ | ⟨_, _ | ⟨_, _ | _⟩⟩⟩
  · obtain ⟨a, b, rfl, ⟨ha, -⟩, hb, -⟩ := exists_two hds hall
    rw [eq_token ha, eq_token hb]
    exact ⟨0, rfl⟩
  · obtain ⟨a, b, c, rfl, ⟨ha, -⟩, ⟨hb, -⟩, hc, -⟩ := exists_three hds hall
    rw [eq_token ha, eq_token hb, eq_token hc]
    exact ⟨1, rfl⟩
  · obtain ⟨a, b, c, e, rfl, ⟨ha, -⟩, ⟨hb, -⟩, ⟨hc, hvc⟩, he, -⟩ := exists_four hds hall
    obtain ⟨k, rfl⟩ := exists_moreParameters _ (Nat.le_refl _) hvc hc
    rw [eq_token ha, eq_token hb, eq_token he]
    exact ⟨k + 2, rfl⟩

theorem exists_expression (hv : d.Valid) (hd : d.symbol = .nonterminal .expression) :
    ∃ e : Phrase .sum, d = .node .expression [e.derivation] :=
  Phrase.Readable.expression (Phrase.readable _) (Nat.lt_succ_self _) hv hd

theorem exists_body (hv : d.Valid) (hd : d.symbol = .nonterminal .functionBody) :
    ∃ parameters e, body parameters e = d := by
  obtain ⟨p, hp, ds, rfl, hds, hall⟩ := exists_node hv hd
  rcases (show p ∈ [.plainBody, .parametrisedBody] from hp) with _ | ⟨_, _ | ⟨_, _ | _⟩⟩
  · obtain ⟨a, b, c, rfl, ⟨ha, -⟩, ⟨hb, hvb⟩, hc, -⟩ := exists_three hds hall
    obtain ⟨e, rfl⟩ := exists_expression hvb hb
    rw [eq_token ha, eq_token hc]
    exact ⟨none, e, rfl⟩
  · obtain ⟨a, b, c, x, rfl, ⟨ha, -⟩, ⟨hb, hvb⟩, ⟨hc, hvc⟩, hx, -⟩ := exists_four hds hall
    obtain ⟨k, rfl⟩ := exists_parameterList hvb hb
    obtain ⟨e, rfl⟩ := exists_expression hvc hc
    rw [eq_token ha, eq_token hx]
    exact ⟨some k, e, rfl⟩

theorem exists_assignment (hv : d.Valid) (hd : d.symbol = .nonterminal .assignment) :
    ∃ s : Statement, s.derivation = .node .assignmentStatement [d] := by
  obtain ⟨p, hp, ds, rfl, hds, hall⟩ := exists_node hv hd
  rcases (show p ∈ [.assignFunction, .assignExpression] from hp) with _ | ⟨_, _ | ⟨_, _ | _⟩⟩
  · obtain ⟨a, b, c, rfl, ⟨ha, -⟩, ⟨hb, -⟩, hc, hvc⟩ := exists_three hds hall
    obtain ⟨parameters, e, rfl⟩ := exists_body hvc hc
    rw [eq_token ha, eq_token hb]
    exact ⟨function parameters e, rfl⟩
  · obtain ⟨a, b, c, rfl, ⟨ha, -⟩, ⟨hb, -⟩, hc, hvc⟩ := exists_three hds hall
    obtain ⟨e, rfl⟩ := exists_expression hvc hc
    rw [eq_token ha, eq_token hb]
    exact ⟨assignment e, rfl⟩

theorem exists_of_valid (hv : d.Valid) (hd : d.symbol = .nonterminal .statement) :
    ∃ s : Statement, s.derivation = d := by
  obtain ⟨p, hp, ds, rfl, hds, hall⟩ := exists_node hv hd
  rcases (show p ∈ [.assignmentStatement, .expressionStatement] from hp) with
    _ | ⟨_, _ | ⟨_, _ | _⟩⟩
  · obtain ⟨a, rfl, ha, hva⟩ := exists_part hds hall
    exact exists_assignment hva ha
  · obtain ⟨a, rfl, ha, hva⟩ := exists_part hds hall
    obtain ⟨e, rfl⟩ := exists_expression hva ha
    exact ⟨expression e, rfl⟩

end Statement

namespace Program

open CalcTree.Derivation

theorem collect_append_singleton : ∀ (P : Program) (d : Derivation) (s : Statement),
    collect d (P ++ [s]) = .node .nextStatement [collect d P, s.derivation]
  | [], _, _ => rfl
  | _ :: P, _, s => collect_append_singleton P _ s

theorem exists_collect : ∀ (n : Nat) {d : Derivation}, d.nodes ≤ n → d.Valid →
    d.symbol = .nonterminal .statements →
      ∃ s P, collect (.node .firstStatement [Statement.derivation s]) P = d
  | 0, d, hn, hv, hd => by
    obtain ⟨p, -, ds, rfl, -⟩ := exists_node hv hd
    simp [nodes] at hn
  | n + 1, d, hn, hv, hd => by
    obtain ⟨p, hp, ds, rfl, hds, hall⟩ := exists_node hv hd
    rw [nodes] at hn
    rcases (show p ∈ [.firstStatement, .nextStatement] from hp) with _ | ⟨_, _ | ⟨_, _ | _⟩⟩
    · obtain ⟨a, rfl, ha, hva⟩ := exists_part hds hall
      obtain ⟨s, rfl⟩ := Statement.exists_of_valid hva ha
      exact ⟨s, [], rfl⟩
    · obtain ⟨a, b, rfl, ⟨ha, hva⟩, hb, hvb⟩ := exists_two hds hall
      simp only [nodesAll] at hn
      obtain ⟨s, P, rfl⟩ := exists_collect n (by omega) hva ha
      obtain ⟨t, rfl⟩ := Statement.exists_of_valid hvb hb
      exact ⟨s, P ++ [t], collect_append_singleton P _ t⟩

theorem exists_of_valid {d : Derivation} (hv : d.Valid)
    (hd : d.symbol = .nonterminal .sourceFile) : ∃ P : Program, derivation P = d := by
  obtain ⟨p, hp, ds, rfl, hds, hall⟩ := exists_node hv hd
  rcases (show p ∈ [.emptyFile, .file] from hp) with _ | ⟨_, _ | ⟨_, _ | _⟩⟩
  · obtain rfl := List.map_eq_nil_iff.1 hds
    exact ⟨[], rfl⟩
  · obtain ⟨a, rfl, ha, hva⟩ := exists_part hds hall
    obtain ⟨s, P, rfl⟩ := exists_collect _ (Nat.le_refl _) hva ha
    exact ⟨s :: P, rfl⟩

end Program

/-! ## One program for each derivation -/

namespace Phrase

theorem derivation_inj {l : Level} {e e' : Phrase l} : e.derivation = e'.derivation ↔ e = e' := by
  induction e with
  | additive left op right ihl ihr =>
    cases e' with
    | additive left' op' right' =>
      cases op <;> cases op' <;>
        simp [derivation, ihl, ihr, SumOperator.production, SumOperator.terminal]
    | ofProduct => simp [derivation]
  | multiplicative left op right ihl ihr =>
    cases e' with
    | multiplicative left' op' right' =>
      cases op <;> cases op' <;>
        simp [derivation, ihl, ihr, ProductOperator.production, ProductOperator.terminal]
    | ofSigned => simp [derivation]
  | _ => cases e' <;> simp_all [derivation]

end Phrase

namespace Statement

theorem moreParameters_inj {m n : Nat} : moreParameters m = moreParameters n ↔ m = n := by
  induction m generalizing n with
  | zero => cases n <;> simp [moreParameters]
  | succ m ih => cases n <;> simp [moreParameters, ih]

theorem parameterList_inj {m n : Nat} : parameterList m = parameterList n ↔ m = n := by
  rcases m with _ | _ | m <;> rcases n with _ | _ | n <;>
    simp [parameterList, moreParameters_inj]

theorem derivation_inj {s t : Statement} : s.derivation = t.derivation ↔ s = t := by
  rcases s with a | a | ⟨_ | m, a⟩ <;> rcases t with b | b | ⟨_ | n, b⟩ <;>
    simp [derivation, body, Phrase.derivation_inj, parameterList_inj]

end Statement

namespace Program

theorem collect_inj {s t : Statement} {P Q : Program}
    (h : collect (.node .firstStatement [s.derivation]) P =
      collect (.node .firstStatement [t.derivation]) Q) : s = t ∧ P = Q := by
  induction P using List.reverseRecOn generalizing Q with
  | nil =>
    rcases List.eq_nil_or_concat Q with rfl | ⟨Q, v, rfl⟩
    · exact ⟨Statement.derivation_inj.1 (by simpa [collect] using h), rfl⟩
    · simp [collect, collect_append_singleton] at h
  | append_singleton P u ih =>
    rcases List.eq_nil_or_concat Q with rfl | ⟨Q, v, rfl⟩
    · simp [collect, collect_append_singleton] at h
    · simp only [collect_append_singleton, Derivation.node.injEq, List.cons.injEq, and_true,
        true_and, List.concat_eq_append] at h
      obtain ⟨rfl, rfl⟩ := ih h.1
      rw [Statement.derivation_inj.1 h.2]
      simp

theorem derivation_injective : Function.Injective derivation := by
  rintro (_ | ⟨s, P⟩) (_ | ⟨t, Q⟩) h
  · rfl
  · simp [derivation] at h
  · simp [derivation] at h
  · obtain ⟨rfl, rfl⟩ := collect_inj (by simpa [derivation] using h)
    rfl

end Program

/-! ## Well formed programs of the same tokens -/

namespace Phrase

variable {l : Level}

/-- A phrase without the minus that it starts with. -/
def unsigned? {l : Level} : Phrase l → Option (Phrase l)
  | multiplicative left op right => left.unsigned?.map (multiplicative · op right)
  | ofSigned e => e.unsigned?.map ofSigned
  | negation e => some e
  | _ => none

/-- The difference that a sum makes after `a`, if it starts with a minus. -/
def after? (a : Phrase .sum) {l : Level} : Phrase l → Option (Phrase .sum)
  | additive left op right => (after? a left).map (additive · op right)
  | ofProduct e => e.unsigned?.map (additive a .minus ·)
  | _ => none

theorem tokens_of_unsigned? {l : Level} {e e' : Phrase l} (h : e.unsigned? = some e') :
    e.tokens = .minus :: e'.tokens := by
  induction e with
  | multiplicative left op right ih =>
    obtain ⟨x, hx, rfl⟩ := Option.map_eq_some_iff.1 h
    simp [tokens, ih hx]
  | ofSigned e ih =>
    obtain ⟨x, hx, rfl⟩ := Option.map_eq_some_iff.1 h
    simp [tokens, ih hx]
  | negation e =>
    obtain rfl := Option.some.inj h
    rfl
  | _ => simp [unsigned?] at h

theorem tokens_of_after? {a : Phrase .sum} {l : Level} {e : Phrase l} {e' : Phrase .sum}
    (h : after? a e = some e') : e'.tokens = a.tokens ++ e.tokens := by
  induction e generalizing e' with
  | additive left op right ih =>
    obtain ⟨x, hx, rfl⟩ := Option.map_eq_some_iff.1 h
    simp [tokens, ih hx]
  | ofProduct e =>
    obtain ⟨x, hx, rfl⟩ := Option.map_eq_some_iff.1 h
    simp [tokens, tokens_of_unsigned? hx, SumOperator.terminal]
  | _ => simp [after?] at h

theorem head?_append (e : Phrase l) (w : List Terminal) :
    (e.tokens ++ w).head? = e.tokens.head? :=
  List.head?_append_of_ne_nil _ e.tokens_ne_nil

/-- What binds tighter than a sign starts with none. -/
theorem head?_ne_minus (e : Phrase l) (hl : l = .raised ∨ l = .suffixed ∨ l = .primary) :
    e.tokens.head? ≠ some .minus := by
  induction e with
  | power base exponent ih =>
    rw [tokens, head?_append]
    exact ih (by simp)
  | factorial e ih =>
    rw [tokens, head?_append]
    exact ih (by simp)
  | ofSuffixed e ih | ofPrimary e ih => exact ih (by simp)
  | number | name | parenthesised | emptyCall | call => simp [tokens]
  | _ => simp at hl

theorem isSome_unsigned? {e : Phrase l} (hl : l = .product ∨ l = .signed)
    (h : e.tokens.head? = some .minus) : e.unsigned?.isSome := by
  induction e with
  | multiplicative left op right ih =>
    rw [tokens, head?_append] at h
    simpa [unsigned?] using ih (by simp) h
  | ofSigned e ih => simpa [unsigned?] using ih (by simp) h
  | negation e => rfl
  | ofRaised e => exact absurd h (e.head?_ne_minus (by simp))
  | _ => simp at hl

theorem isSome_after? {a : Phrase .sum} {e : Phrase l} (hl : l = .sum)
    (h : e.tokens.head? = some .minus) : (after? a e).isSome := by
  induction e with
  | additive left op right ih =>
    rw [tokens, head?_append] at h
    simpa [after?] using ih rfl h
  | ofProduct e => simpa [after?] using isSome_unsigned? (.inl rfl) h
  | _ => simp at hl

end Phrase

namespace Statement

/-- An expression that starts with a minus continues a statement that ends in an expression. -/
theorem exists_join {s t : Statement} (h : ¬ Follows s t) :
    ∃ u : Statement, u.tokens = s.tokens ++ t.tokens ∧ (∀ v, Follows t v → Follows u v) := by
  simp only [Follows, not_forall, not_not] at h
  obtain ⟨hs, ht⟩ := h
  cases t with
  | assignment e => simp [tokens] at ht
  | function n e => simp [tokens] at ht
  | expression e =>
    cases s with
    | function n a => simp [endsInExpression] at hs
    | expression a =>
      obtain ⟨e', he'⟩ := Option.isSome_iff_exists.1 (Phrase.isSome_after? (a := a) rfl ht)
      exact ⟨expression e', Phrase.tokens_of_after? he', fun v hv => hv⟩
    | assignment a =>
      obtain ⟨e', he'⟩ := Option.isSome_iff_exists.1 (Phrase.isSome_after? (a := a) rfl ht)
      refine ⟨assignment e', ?_, fun v hv => hv⟩
      simp [tokens, Phrase.tokens_of_after? he']

end Statement

namespace Program

theorem exists_wellFormed : ∀ P : Program, ∃ Q : Program, Q.WellFormed ∧ Q.tokens = P.tokens
  | [] => ⟨[], .nil, rfl⟩
  | s :: P => by
    obtain ⟨Q, hQ, hP⟩ := exists_wellFormed P
    rw [tokens_cons, ← hP]
    cases Q with
    | nil => exact ⟨[s], .singleton s, rfl⟩
    | cons t Q =>
      by_cases hst : s.Follows t
      · exact ⟨s :: t :: Q, List.isChain_cons_cons.2 ⟨hst, hQ⟩, rfl⟩
      · obtain ⟨u, hu, hfollows⟩ := Statement.exists_join hst
        refine ⟨u :: Q, List.IsChain.cons_of_imp hfollows hQ, ?_⟩
        rw [tokens_cons, tokens_cons, hu, List.append_assoc]

end Program

/-- The grammar derives the tokens of well formed programs. -/
theorem Program.mem_language_iff {w : List Terminal} :
    w ∈ grammar.language ↔ ∃ P : Program, P.WellFormed ∧ P.tokens = w := by
  rw [Derivation.mem_language_iff]
  constructor
  · rintro ⟨d, hd, rfl, hv⟩
    obtain ⟨P, rfl⟩ := Program.exists_of_valid hv hd
    obtain ⟨Q, hQ, htokens⟩ := P.exists_wellFormed
    exact ⟨Q, hQ, by rw [htokens, Program.yield_derivation]⟩
  · rintro ⟨P, -, rfl⟩
    exact ⟨_, P.symbol_derivation, P.yield_derivation, P.valid_derivation⟩

end CalcTree
