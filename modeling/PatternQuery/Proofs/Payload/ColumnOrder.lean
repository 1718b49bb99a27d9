import PatternQuery.Payload.Attribution
import PatternQuery.Proofs.Payload.Cells
import PatternQuery.Proofs.Text.Bytes

/-!
# The order of columns

What the comparison of two columns decides, said part by part: fields that are resolved by their positions
and before all others, then names by their bytes, then paths, whose steps are compared as numbers
(`ShapedColumn.compare_eq_lt_iff`). Columns that compare as equal have one path
(`ShapedColumn.path_eq_of_compare_eq`), so the columns of one schema have only one order.
-/

namespace PatternQuery

open Std

/-- The comparison of texts finds one in front of another by its bytes. -/
theorem Text.compare_eq_lt_iff {s t : String} : compare s t = .lt ↔ bytes s < bytes t := by
  rw [← lt_iff_bytes_lt]
  exact compareOfLessAndEq_eq_lt

/-! ### Places of fields -/

namespace FieldOrder

/-- **One place is in front of another:** resolved ones by their positions, and all of them in front of
those that are not. -/
inductive Before : FieldOrder → FieldOrder → Prop
  | resolved {i j : Nat} (h : i < j) : Before (resolved i) (resolved j)
  | unresolved (i : Nat) : Before (resolved i) unresolved

theorem compare_eq_lt_iff {a b : FieldOrder} : a.compare b = .lt ↔ a.Before b := by
  constructor
  · intro h
    cases a with
    | resolved i =>
      cases b with
      | resolved j => exact .resolved (Nat.compare_eq_lt.mp h)
      | unresolved => exact .unresolved i
    | unresolved => cases b <;> exact absurd h (by simp [compare])
  · rintro (h | i)
    · exact Nat.compare_eq_lt.mpr h
    · rfl

instance : OrientedCmp compare where
  eq_swap {a b} := by
    cases a with
    | resolved i =>
      cases b with
      | resolved j => exact OrientedOrd.eq_swap
      | unresolved => rfl
    | unresolved => cases b <;> rfl

instance : TransCmp compare where
  isLE_trans {a b c} hab hbc := by
    cases a with
    | resolved i =>
      cases c with
      | resolved k =>
        cases b with
        | resolved j => exact TransOrd.isLE_trans hab hbc
        | unresolved => exact absurd hbc (by simp [compare])
      | unresolved => rfl
    | unresolved =>
      cases b with
      | resolved j => exact absurd hab (by simp [compare])
      | unresolved => exact hbc

instance : LawfulEqCmp compare where
  compare_self := ReflCmp.compare_self
  eq_of_compare {a b} h := by
    cases a with
    | resolved i =>
      cases b with
      | resolved j => exact congrArg resolved (LawfulEqOrd.eq_of_compare h)
      | unresolved => exact absurd h (by simp [compare])
    | unresolved =>
      cases b with
      | resolved j => exact absurd h (by simp [compare])
      | unresolved => rfl

end FieldOrder

/-! ### Paths -/

/-- One step is in front of another: by its block, then by its row. -/
def Nesting.Before (a b : Nesting) : Prop := a.block < b.block ∨ a.block = b.block ∧ a.row < b.row

theorem Nesting.compare_eq_lt_iff {a b : Nesting} : a.compare b = .lt ↔ a.Before b := by
  rw [Nesting.compare, Ordering.then_eq_lt, Nat.compare_eq_lt, Nat.compare_eq_eq, Nat.compare_eq_lt,
    Nesting.Before]

namespace CellPath

/-- **One path is in front of another:** by the first steps that differ, where a path without more steps
comes first, and then by the bytes of the fields. -/
def Before (a b : CellPath) : Prop :=
  List.Lex Nesting.Before a.steps b.steps ∨ a.steps = b.steps ∧ Text.bytes a.field < Text.bytes b.field

theorem compareSteps_eq_lt_iff {as bs : List Nesting} :
    compareSteps as bs = .lt ↔ List.Lex Nesting.Before as bs := by
  induction as generalizing bs with
  | nil =>
    cases bs with
    | nil => exact iff_of_false (by simp [compareSteps]) List.not_lex_nil
    | cons b bs => exact iff_of_true rfl .nil
  | cons a as ih =>
    cases bs with
    | nil => exact iff_of_false (by simp [compareSteps]) List.not_lex_nil
    | cons b bs =>
      rw [compareSteps, Ordering.then_eq_lt, Nesting.compare_eq_lt_iff, ih,
        LawfulEqCmp.compare_eq_iff_eq, List.cons_lex_cons_iff]

theorem compare_eq_lt_iff {a b : CellPath} : a.compare b = .lt ↔ a.Before b := by
  rw [compare, Ordering.then_eq_lt, compareSteps_eq_lt_iff, LawfulEqCmp.compare_eq_iff_eq,
    Text.compare_eq_lt_iff, Before]

end CellPath

/-! ### Columns -/

namespace ShapedColumn

/-- **One column is in front of another:** by the place of the field, then by its name, then by the path. -/
def Before (a b : ShapedColumn) : Prop :=
  a.order.Before b.order ∨ a.order = b.order ∧
    (Text.bytes a.path.field < Text.bytes b.path.field ∨
      a.path.field = b.path.field ∧ a.path.Before b.path)

theorem compare_eq_lt_iff {a b : ShapedColumn} : a.compare b = .lt ↔ a.Before b := by
  rw [compare, Ordering.then_eq_lt, FieldOrder.compare_eq_lt_iff, LawfulEqCmp.compare_eq_iff_eq,
    Ordering.then_eq_lt, Text.compare_eq_lt_iff, LawfulEqCmp.compare_eq_iff_eq,
    CellPath.compare_eq_lt_iff, Before]

theorem path_eq_of_compare_eq {a b : ShapedColumn} (h : a.compare b = .eq) : a.path = b.path := by
  obtain ⟨-, hpath⟩ := Ordering.then_eq_eq.mp h
  exact LawfulEqCmp.eq_of_compare (Ordering.then_eq_eq.mp hpath).2

instance : TransCmp fun a b : ShapedColumn => a.order.compare b.order where
  eq_swap := OrientedCmp.eq_swap
  isLE_trans := TransCmp.isLE_trans

instance : TransCmp fun a b : ShapedColumn => a.path.compare b.path where
  eq_swap := OrientedCmp.eq_swap
  isLE_trans := TransCmp.isLE_trans

instance : TransCmp compare := inferInstanceAs
  (TransCmp (compareLex (fun a b : ShapedColumn => a.order.compare b.order)
    (compareLex (compareOn fun c : ShapedColumn => c.path.field)
      fun a b : ShapedColumn => a.path.compare b.path)))

end ShapedColumn

end PatternQuery
