import CalcTree.Error
import Mathlib.Tactic.SplitIfs

/-!
# Which grammars load

A header is accepted if its version can be read and it counts symbols and states
(`Language.load_outcomes`). What is counted as symbols are symbols and aliases together, in a 32-bit
word. So a header with no symbols passes if it has aliases, and one that has symbols is refused if
its aliases make the word wrap around to zero; in all other cases the count is as good as that of
the symbols alone (`Header.isMiscounted_iff`).

The smoke test comes to the same result as the loader on every descriptor, and each of the two
reports one event (`Language.smokeTest_agrees`): the parser takes every version that the loader
lets pass.
-/

namespace CalcTree

namespace Header

/-- Whether a header is of a version that can be read. -/
def IsReadable (h : Header) : Prop :=
  13 ≤ h.version ∧ h.version ≤ 14

instance (h : Header) : Decidable h.IsReadable :=
  inferInstanceAs (Decidable (_ ∧ _))

/-- Whether symbols are counted in a header, aliases among them. -/
def IsCounted (h : Header) : Prop :=
  h.symbolCount + h.aliasCount ≠ 0

instance (h : Header) : Decidable h.IsCounted :=
  inferInstanceAs (Decidable (_ ≠ _))

/-- Whether aliases stand in for symbols that a header does not have, or make the count of those
that it has wrap around to zero. -/
def IsMiscounted (h : Header) : Prop :=
  if h.symbolCount = 0 then h.aliasCount ≠ 0
  else h.symbolCount.toNat + h.aliasCount.toNat = UInt32.size

variable (h : Header)

theorem isReadable_iff : h.IsReadable ↔
    LoadError.minVersion ≤ h.language.version ∧ h.language.version ≤ LoadError.maxVersion :=
  Iff.rfl

theorem ne_zero_iff_toNat (n : UInt32) : n ≠ 0 ↔ n.toNat ≠ 0 := by
  rw [Ne, ← UInt32.toNat_inj, UInt32.toNat_zero]

theorem isCounted_iff_symbols : h.IsCounted ↔ h.language.symbols ≠ 0 :=
  ne_zero_iff_toNat (h.symbolCount + h.aliasCount)

/-- In all other cases the count tells whether there are symbols. -/
theorem isMiscounted_iff : h.IsMiscounted ↔ ¬ (h.IsCounted ↔ h.symbolCount ≠ 0) := by
  unfold IsMiscounted
  split_ifs with hzero
  · rw [IsCounted, hzero, UInt32.zero_add]
    simp
  · have hs := h.symbolCount.toNat_lt
    have ha := h.aliasCount.toNat_lt
    have hsome := (ne_zero_iff_toNat h.symbolCount).1 hzero
    rw [isCounted_iff_symbols, language, UInt32.toNat_add]
    simp only [hzero, ne_eq, not_false_eq_true, iff_true, UInt32.size]
    omega

end Header

namespace Language

variable {d : Descriptor} {l : Language}

/-! ## The loader -/

theorem checkVersion_eq_ok_iff {version : Nat} : checkVersion version = .ok () ↔
    LoadError.minVersion ≤ version ∧ version ≤ LoadError.maxVersion := by
  unfold checkVersion
  split_ifs with hv <;> simpa using hv

theorem check_of_version (h : ¬ (LoadError.minVersion ≤ l.version ∧
    l.version ≤ LoadError.maxVersion)) : l.check =
      .error (.incompatibleVersion l.version LoadError.minVersion LoadError.maxVersion) := by
  have hversion : checkVersion l.version =
      .error (.incompatibleVersion l.version LoadError.minVersion LoadError.maxVersion) := by
    unfold checkVersion
    rw [if_neg (by simpa using h)]
  simp only [check, hversion]
  rfl

theorem check_of_tables (h : LoadError.minVersion ≤ l.version ∧ l.version ≤ LoadError.maxVersion) :
    l.check = if l.symbols ≠ 0 ∧ l.states ≠ 0 then .ok l
      else .error (.emptyTables l.symbols l.states) := by
  simp only [check, checkVersion_eq_ok_iff.2 h, checkTables]
  by_cases hs : l.symbols = 0 <;> by_cases ht : l.states = 0 <;> simp [hs, ht] <;> rfl

theorem value_load (h : Header) : (load (some h)).value = h.language.check := by
  simp only [load]
  split <;> rename_i hcheck <;> rw [hcheck] <;> rfl

theorem load_cases (h : Header) :
    ¬ h.IsReadable ∧ (load (some h)).value =
        .error (.incompatibleVersion h.version.toNat LoadError.minVersion LoadError.maxVersion) ∨
    h.IsReadable ∧ (h.IsCounted ∧ h.stateCount ≠ 0) ∧ (load (some h)).value = .ok h.language ∨
    h.IsReadable ∧ ¬ (h.IsCounted ∧ h.stateCount ≠ 0) ∧ (load (some h)).value =
      .error (.emptyTables (h.symbolCount + h.aliasCount).toNat h.stateCount.toNat) := by
  rw [value_load, h.isReadable_iff, h.isCounted_iff_symbols, Header.ne_zero_iff_toNat h.stateCount]
  by_cases hversion : LoadError.minVersion ≤ h.language.version ∧
      h.language.version ≤ LoadError.maxVersion
  · refine .inr ?_
    rw [check_of_tables hversion]
    split_ifs with htables
    · exact .inl ⟨hversion, htables, rfl⟩
    · exact .inr ⟨hversion, htables, rfl⟩
  · exact .inl ⟨hversion, check_of_version hversion⟩

/-- A descriptor that leads nowhere is refused as null, and a header for its version or else for its
tables. That a header of a known version passes if it has symbols and states, and only then, is true
of all headers but those that have states and are miscounted. -/
theorem load_outcomes (h : Header) :
    (load none).value = .error .nullDescriptor ∧
    ((∃ l, (load (some h)).value = .ok l) ↔ h.IsReadable ∧ h.IsCounted ∧ h.stateCount ≠ 0) ∧
    (¬ h.IsReadable →
      (load (some h)).value = .error (.incompatibleVersion h.version.toNat 13 14)) ∧
    (h.IsReadable → ¬ (h.IsCounted ∧ h.stateCount ≠ 0) → (load (some h)).value =
      .error (.emptyTables (h.symbolCount + h.aliasCount).toNat h.stateCount.toNat)) ∧
    (((∃ l, (load (some h)).value = .ok l) ↔
        h.IsReadable ∧ h.symbolCount ≠ 0 ∧ h.stateCount ≠ 0) ↔
      ¬ (h.IsReadable ∧ h.stateCount ≠ 0 ∧ h.IsMiscounted)) := by
  have hpasses : (∃ l, (load (some h)).value = .ok l) ↔
      h.IsReadable ∧ h.IsCounted ∧ h.stateCount ≠ 0 := by
    rcases load_cases h with ⟨hv, hload⟩ | ⟨hv, htables, hload⟩ | ⟨hv, htables, hload⟩
    · simp [hload, hv]
    · simp [hload, hv, htables]
    · simp [hload, hv, htables]
  refine ⟨rfl, hpasses, fun hv => ?_, fun hv htables => ?_, ?_⟩
  · rcases load_cases h with ⟨-, hload⟩ | ⟨hv', -⟩ | ⟨hv', -⟩
    · exact hload
    · exact absurd hv' hv
    · exact absurd hv' hv
  · rcases load_cases h with ⟨hv', -⟩ | ⟨-, htables', -⟩ | ⟨-, -, hload⟩
    · exact absurd hv hv'
    · exact absurd htables' htables
    · exact hload
  · rw [hpasses, h.isMiscounted_iff]
    by_cases hv : h.IsReadable <;> by_cases ht : h.stateCount = 0 <;> simp [hv, ht]

theorem load_wrapped_count :
    let h : Header := { version := 14, symbolCount := 4294967295, aliasCount := 1, stateCount := 7 }
    h.IsReadable ∧ ¬ (h.IsCounted ∧ h.stateCount ≠ 0) ∧
      (load (some h)).value = .error (.emptyTables 0 7) ∧
      ¬ { h with version := 15 }.IsReadable ∧
      (load (some { h with version := 15 })).value = .error (.incompatibleVersion 15 13 14) := by
  intro h
  have hv : h.IsReadable := by decide
  have ht : ¬ (h.IsCounted ∧ h.stateCount ≠ 0) := by decide
  have hv' : ¬ { h with version := 15 }.IsReadable := by decide
  have hcount : (h.symbolCount + h.aliasCount).toNat = 0 := by decide
  have hload := (load_outcomes h).2.2.2.1 hv ht
  rw [hcount] at hload
  exact ⟨hv, ht, hload, hv', (load_outcomes _).2.2.1 hv'⟩

/-- A header without symbols that is accepted, and one with symbols and states that is refused. -/
theorem load_without_symbols :
    (∃ h : Header, h.IsReadable ∧ h.symbolCount = 0 ∧ ∃ l, (load (some h)).value = .ok l) ∧
    ∃ h : Header, h.IsReadable ∧ h.symbolCount ≠ 0 ∧ h.stateCount ≠ 0 ∧
      ∃ e, (load (some h)).value = .error e := by
  refine ⟨⟨{ version := 14, aliasCount := 1, stateCount := 1 }, by decide, rfl, _, rfl⟩,
    { version := 14, symbolCount := 4294967295, aliasCount := 1, stateCount := 1 },
    by decide, by decide, by decide, _, rfl⟩

/-! ## The smoke test -/

/-- The parser takes the versions that the loader lets pass, and no others. -/
theorem install_eq_ok_iff : l.install = .ok () ↔ checkVersion l.version = .ok () := by
  rw [checkVersion_eq_ok_iff, install]
  split_ifs with hv <;> simp at hv ⊢ <;> omega

theorem install_of_load (h : (load d).value = .ok l) : l.install = .ok () := by
  rcases d with _ | header
  · cases h
  rw [install_eq_ok_iff, checkVersion_eq_ok_iff]
  rcases load_cases header with ⟨-, hload⟩ | ⟨hv, -, hload⟩ | ⟨-, -, hload⟩ <;> rw [h] at hload
  · cases hload
  · obtain rfl := Except.ok.inj hload
    exact header.isReadable_iff.1 hv
  · cases hload

theorem ne_rejected_of_load {e : LoadError} (h : (load d).value = .error e) (version : Nat) :
    e ≠ .rejected version := by
  rintro rfl
  rcases d with _ | header
  · cases h
  rcases load_cases header with ⟨-, hload⟩ | ⟨-, -, hload⟩ | ⟨-, -, hload⟩ <;> rw [h] at hload <;>
    cases hload

/-- The event that tells of the outcome of loading a descriptor. -/
def loadEvent (d : Descriptor) : Except LoadError Language → Event
  | .ok l => .descriptorAccepted l.version l.symbols l.states
  | .error e => if d.isSome then .descriptorRefused e else .descriptorNull

theorem events_load (d : Descriptor) : (load d).events = [loadEvent d (load d).value] := by
  rcases d with _ | header
  · rfl
  · simp only [load]
    split <;> rfl

theorem smokeTest_of_ok (h : (load d).value = .ok l) : smokeTest d =
    ⟨.ok (), [.descriptorAccepted l.version l.symbols l.states, .grammarLoaded]⟩ := by
  have hevents := events_load d
  rw [h] at hevents
  simp only [smokeTest, loadAndInstall, bind, h, install_of_load h, hevents]
  rfl

theorem smokeTest_of_error {e : LoadError} (h : (load d).value = .error e) : smokeTest d =
    ⟨.error ⟨grammarName, e⟩, [loadEvent d (.error e), .grammarFailed e]⟩ := by
  have hevents := events_load d
  rw [h] at hevents
  simp only [smokeTest, loadAndInstall, bind, h, hevents]
  rfl

/-- The smoke test succeeds on the descriptors that load, and fails on the others for the reason
that they do not load. The loader reports one event and then the smoke test one. -/
theorem smokeTest_agrees (d : Descriptor) :
    ((smokeTest d).value = .ok () ↔ ∃ l, (load d).value = .ok l) ∧
    (∀ l, (load d).value = .ok l → l.install = .ok () ∧
      ∃ loaded tested, (load d).events = [loaded] ∧ (smokeTest d).events = [loaded, tested] ∧
        loaded.origin = .loader ∧ loaded.level = .debug ∧
        tested.origin = .smokeTest ∧ tested.level = .debug) ∧
    ∀ e, (load d).value = .error e → (∀ version, e ≠ .rejected version) ∧
      (∃ failure, (smokeTest d).value = .error failure ∧ failure.grammar = "Wabznasm" ∧
        failure.source = e ∧ failure.message = "Error loading Wabznasm grammar" ∧
        failure.causes = [e.message]) ∧
      ∃ loaded tested, (load d).events = [loaded] ∧ (smokeTest d).events = [loaded, tested] ∧
        loaded.origin = .loader ∧ loaded.level = .warn ∧
        loaded.details = (if d.isSome then [("err", .text e.message)] else []) ∧
        tested.origin = .smokeTest ∧ tested.level = .error ∧
        ("source", .text e.message) ∈ tested.details := by
  have hevents := events_load d
  rcases hload : (load d).value with e | l
  · rw [hload] at hevents
    rw [smokeTest_of_error hload]
    refine ⟨by simp, nofun, ?_⟩
    rintro _ ⟨⟩
    refine ⟨ne_rejected_of_load hload, ⟨_, rfl, rfl, rfl, rfl, GrammarLoadError.causes_eq _⟩, _, _,
      hevents, rfl, ?_⟩
    rcases d with _ | header <;> exact ⟨rfl, rfl, rfl, rfl, rfl, by simp [Event.details]⟩
  · rw [hload] at hevents
    rw [smokeTest_of_ok hload]
    refine ⟨by simp, ?_, nofun⟩
    rintro _ ⟨⟩
    exact ⟨install_of_load hload, _, _, hevents, rfl, rfl, rfl, rfl, rfl⟩

theorem smokeTest_agrees_on_versions :
    (∃ l, (load (some .builtin)).value = .ok l ∧ l.install = .ok ()) ∧
    (load (some { version := 15 })).value = .error (.incompatibleVersion 15 13 14) ∧
    (∃ failure, (smokeTest (some { version := 15 })).value = .error failure ∧
      failure.source = .incompatibleVersion 15 13 14) ∧
    ∃ loaded tested, (smokeTest none).events = [loaded, tested] ∧ loaded.details = [] ∧
      ("source", .text "grammar descriptor is null") ∈ tested.details := by
  have hok : (load (some .builtin)).value = .ok ⟨14, 41, 70⟩ := rfl
  have hversion : (load (some { version := 15 })).value = .error (.incompatibleVersion 15 13 14) :=
    rfl
  obtain ⟨-, ⟨failure, hfailure, -, hsource, -⟩, -⟩ := (smokeTest_agrees _).2.2 _ hversion
  obtain ⟨-, -, loaded, tested, -, hevents, -, -, hloaded, -, -, htested⟩ :=
    (smokeTest_agrees none).2.2 _ rfl
  exact ⟨⟨_, hok, ((smokeTest_agrees _).2.1 _ hok).1⟩, hversion, ⟨failure, hfailure, hsource⟩,
    loaded, tested, hevents, hloaded, htested⟩

end Language

end CalcTree
