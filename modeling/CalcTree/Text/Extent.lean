/-!
# Extents

How far a stretch of text reaches: its bytes in UTF-8, the line feeds in it, and the bytes after
the last line feed. The extents of adjoining stretches add up (`ofChars_append`), so a position
is the extent of all text before it.
-/

namespace CalcTree

structure Extent where
  bytes : Nat
  rows : Nat
  columns : Nat
deriving DecidableEq, Repr

namespace Extent

instance : Zero Extent := ⟨⟨0, 0, 0⟩⟩

instance : Inhabited Extent := ⟨0⟩

/-- Columns start again after a line feed, so the first stretch has a say in them only when the
second one holds none. -/
instance : Add Extent :=
  ⟨fun a b =>
    ⟨a.bytes + b.bytes, a.rows + b.rows,
      if b.rows = 0 then a.columns + b.columns else b.columns⟩⟩

theorem add_def (a b : Extent) :
    a + b = ⟨a.bytes + b.bytes, a.rows + b.rows,
      if b.rows = 0 then a.columns + b.columns else b.columns⟩ :=
  rfl

theorem zero_def : (0 : Extent) = ⟨0, 0, 0⟩ :=
  rfl

@[simp]
theorem bytes_add (a b : Extent) : (a + b).bytes = a.bytes + b.bytes :=
  rfl

@[simp]
theorem rows_add (a b : Extent) : (a + b).rows = a.rows + b.rows :=
  rfl

@[simp]
theorem bytes_zero : (0 : Extent).bytes = 0 :=
  rfl

@[simp]
theorem rows_zero : (0 : Extent).rows = 0 :=
  rfl

@[simp]
theorem zero_add' (a : Extent) : 0 + a = a := by
  obtain ⟨b, r, c⟩ := a
  simp [add_def, zero_def]

@[simp]
theorem add_zero' (a : Extent) : a + 0 = a := by
  obtain ⟨b, r, c⟩ := a
  simp [add_def, zero_def]

theorem add_assoc' (a b c : Extent) : a + b + c = a + (b + c) := by
  obtain ⟨ab, ar, ac⟩ := a
  obtain ⟨bb, br, bc⟩ := b
  obtain ⟨cb, cr, cc⟩ := c
  simp only [add_def, mk.injEq]
  refine ⟨by omega, by omega, ?_⟩
  by_cases hc : cr = 0 <;> by_cases hb : br = 0 <;> simp [hc, hb]
  omega

def ofChar (c : Char) : Extent :=
  if c = '\n' then ⟨1, 1, 0⟩ else ⟨c.utf8Size, 0, c.utf8Size⟩

def ofChars : List Char → Extent
  | [] => 0
  | c :: cs => ofChar c + ofChars cs

@[simp]
theorem ofChars_nil : ofChars [] = 0 :=
  rfl

theorem ofChars_append (s t : List Char) : ofChars (s ++ t) = ofChars s + ofChars t := by
  induction s with
  | nil => simp
  | cons c s ih => simp [ofChars, ih, add_assoc']

end Extent

end CalcTree
