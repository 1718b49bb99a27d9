import PatternQuery.Config.Metadata
import PatternQuery.Proofs.Pattern.Introduction
import PatternQuery.Proofs.Selection.Columns

/-!
# Valid configurations

A valid configuration has a pattern that passes its check, asks for at least one row, and selects
columns of occurrences that the pattern introduces, from an ordered set. `Config.check` tests all of
this but that the columns stand in the order of display, which holds of every set of columns that was
read, so a configuration that was loaded is valid (`valid_of_load`).

Reading a record is a fold over its members, and what every member keeps the record keeps
(`Json.toRecord_induction`).
-/

namespace PatternQuery

/-! ### Records -/

/-- **What holds of the empty record and is kept by every member holds of the record that is read.** -/
theorem Json.toRecord_induction {σ : Type} {P : σ → Prop} {declared : List String} {start r : σ}
    {step : σ → String → Json → Except DecodeError σ} {v : Json} (hstart : P start)
    (hstep : ∀ r name v r', P r → step r name v = .ok r' → P r')
    (h : v.toRecord declared start step = .ok r) : P r := by
  have hfold (members : List (String × Json)) (s r : σ) (hs : P s)
      (hr : members.foldlM (fun r member => step r member.1 member.2) s = .ok r) : P r := by
    induction members generalizing s with
    | nil =>
      obtain rfl : s = r := Except.ok.inj hr
      exact hs
    | cons member members ih =>
      obtain ⟨s', hs', hr⟩ := bind_eq_ok_iff.mp hr
      exact ih s' (hstep s _ _ s' hs hs') hr
  cases v with
  | obj members => exact hfold members start r hstart h
  | arr items =>
    obtain ⟨r', hr', h⟩ := bind_eq_ok_iff.mp h
    split at h
    · exact absurd h (by simp)
    · obtain rfl : r' = r := Except.ok.inj h
      exact hfold _ start r' hstart hr'
  | _ => exact absurd h (by simp [Json.toRecord])

theorem ColumnSet.ordered_of_ofJson {v : Json} {s : ColumnSet} (h : ofJson v = .ok s) :
    s.Ordered := by
  obtain ⟨cs, -, hcs⟩ := bind_eq_ok_iff.mp h
  split at hcs
  · next s' hs' =>
    obtain rfl : s' = s := Except.ok.inj hcs
    exact (ofColumns_eq_ok_iff.mp hs').2
  · exact absurd hcs throw_ne_ok

namespace Config

variable {c : Config}

/-! ### Checking -/

/-- **A valid configuration.** -/
structure Valid (c : Config) : Prop where
  pattern_check : c.pattern.check = .ok ()
  columns_ordered : c.columns.Ordered
  limit_ne_zero : c.pagination.limit ≠ 0
  introduced : ∀ column ∈ c.columns.columns, column.id.schema ∈ c.pattern.keys

theorem check_eq_ok_iff : c.check = .ok () ↔ c.pattern.check = .ok () ∧
    c.columns.checkInvariants = .ok () ∧ c.pagination.limit ≠ 0 ∧
      ∀ column ∈ c.columns.columns, column.id.schema ∈ c.pattern.keys := by
  have hkeys : c.occurrences.map Occurrence.key = c.pattern.keys := List.map_map
  have hfind : (c.columns.columns.find? fun column => !c.pattern.keys.contains column.id.schema) =
      none ↔ ∀ column ∈ c.columns.columns, column.id.schema ∈ c.pattern.keys := by
    rw [List.find?_eq_none]
    simp
  unfold check
  rw [check_bind_eq_ok_iff, mapError_eq_ok_iff, check_bind_eq_ok_iff, mapError_eq_ok_iff, hkeys,
    ← hfind]
  refine and_congr_right fun _ => and_congr_right fun _ => ?_
  by_cases hlimit : c.pagination.limit = 0
  · rw [if_pos hlimit]
    exact ⟨fun h => absurd h throw_ne_ok, fun h => absurd hlimit h.1⟩
  · rw [if_neg hlimit]
    dsimp only
    cases c.columns.columns.find? fun column => !c.pattern.keys.contains column.id.schema with
    | none => exact ⟨fun _ => ⟨hlimit, rfl⟩, fun _ => rfl⟩
    | some column => exact ⟨fun h => absurd h throw_ne_ok, fun h => absurd h.2 (by simp)⟩

theorem make_eq_ok_iff {columns : ColumnSet} {pattern : Pattern} {applyRBAC : Bool}
    {pagination : Pagination} : make columns pattern applyRBAC pagination = .ok c ↔
      c = ⟨columns, pattern, applyRBAC, pagination⟩ ∧ c.check = .ok () := by
  unfold make
  rw [check_bind_eq_ok_iff]
  constructor
  · rintro ⟨hcheck, h⟩
    obtain rfl := Except.ok.inj h
    exact ⟨rfl, hcheck⟩
  · rintro ⟨rfl, hcheck⟩
    exact ⟨hcheck, rfl⟩

theorem valid_of_check (h : c.check = .ok ()) (hcolumns : c.columns.Ordered) : c.Valid := by
  obtain ⟨hpattern, -, hlimit, hintroduced⟩ := check_eq_ok_iff.mp h
  exact ⟨hpattern, hcolumns, hlimit, hintroduced⟩

theorem Valid.check_eq (h : c.Valid) : c.check = .ok () :=
  check_eq_ok_iff.mpr ⟨h.pattern_check, h.columns_ordered.checkInvariants_eq, h.limit_ne_zero,
    h.introduced⟩

/-! ### Loading -/

theorem ordered_of_readRecord {v : Json} {r : Record} (h : readRecord v = .ok r) :
    r.columns.Ordered := by
  refine Json.toRecord_induction (P := fun r : Record => r.columns.Ordered) ColumnSet.ordered_empty
    (fun r name v r' hr hstep => ?_) h
  split at hstep
  · obtain ⟨columns, hcolumns, hr'⟩ := bind_eq_ok_iff.mp hstep
    obtain rfl := Except.ok.inj hr'
    exact ColumnSet.ordered_of_ofJson hcolumns
  -- No other member changes the columns.
  · obtain ⟨pattern, -, hr'⟩ := bind_eq_ok_iff.mp hstep
    obtain rfl := Except.ok.inj hr'
    exact hr
  · obtain ⟨applyRBAC, -, hr'⟩ := bind_eq_ok_iff.mp hstep
    obtain rfl := Except.ok.inj hr'
    exact hr
  · obtain ⟨pagination, -, hr'⟩ := bind_eq_ok_iff.mp hstep
    obtain rfl := Except.ok.inj hr'
    exact hr
  · obtain rfl := Except.ok.inj hstep
    exact hr

/-- **A configuration that was loaded is valid.** -/
theorem valid_of_load {v : Json} (h : load v = .ok c) : c.Valid := by
  unfold load at h
  dsimp only at h
  split at h
  · exact absurd h throw_ne_ok
  · next r pattern hparts =>
    obtain ⟨r', hr', hparts⟩ := bind_eq_ok_iff.mp hparts
    obtain ⟨pattern', -, hparts⟩ := bind_eq_ok_iff.mp hparts
    obtain ⟨rfl, rfl⟩ := Prod.mk.inj (Except.ok.inj hparts)
    split at h
    · next c' hmake =>
      obtain rfl : c' = c := Except.ok.inj h
      obtain ⟨rfl, hcheck⟩ := make_eq_ok_iff.mp hmake
      exact valid_of_check hcheck (ordered_of_readRecord hr')
    · exact absurd h throw_ne_ok

end Config

end PatternQuery
