import PatternQuery.Proofs.Payload.Grammar

/-!
# Paths and their texts

A path stands behind the index of the root row in the key of a cell, and can be read on its own.
What is read does not depend on the key around it (`CellPath.ofText_eq_ok_iff`), so a text is the text of
a path iff it makes the key of a cell behind `data.data.0.` (`KeyRole.spells_zero_iff`).

Writing a path spells it with the shortest numerals (`CellPath.spellsPath_text`). A path that was read
is in range, and can therefore be written and read again.
-/

namespace PatternQuery

namespace CellPath

open Text

variable {key : String} {s : List Char} {path : CellPath} {step : Nesting} {steps : List Nesting}

/-- **How a path is spelled.** -/
def SpellsPath (path : CellPath) (s : List Char) : Prop :=
  ∃ t, SpellsSteps path.steps t ∧ IsField path.field.toList ∧ s = t ++ path.field.toList

theorem readTail_nil_eq_some_iff : readTail key [] s = .ok (some path) ↔ SpellsPath path s := by
  rw [readTail_eq_some_iff]
  constructor
  · rintro ⟨steps, t, hsteps, hspells, hs, hfield⟩
    rw [List.nil_append] at hsteps
    exact ⟨t, hsteps ▸ hspells, hfield, hs⟩
  · rintro ⟨t, hspells, hfield, hs⟩
    exact ⟨path.steps, t, rfl, hspells, hs, hfield⟩

/-- **Reading a path on its own** gives the path that the text spells. -/
theorem ofText_eq_ok_iff {text : String} : ofText text = .ok path ↔ SpellsPath path text.toList := by
  rw [ofText, bind_eq_ok_iff]
  constructor
  · rintro ⟨p, hread, hp⟩
    cases p with
    | none => exact absurd hp throw_ne_ok
    | some p =>
      obtain rfl := Except.ok.inj hp
      exact readTail_nil_eq_some_iff.mp hread
  · intro hspells
    exact ⟨_, readTail_nil_eq_some_iff.mpr hspells, rfl⟩

/-! ### Writing paths -/

/-- A step is written without zeros in front of its indices. -/
theorem toList_text_step (step : Nesting) : step.text.toList = paddedStep (0, 0) step := by
  have hchildren : "children.".toList = childrenSegment ++ ['.'] := rfl
  have hdata : ".data.".toList = '.' :: (dataSegment ++ ['.']) := rfl
  have hdot : ".".toList = ['.'] := rfl
  rw [Nesting.text, paddedStep]
  simp only [String.toList_append, toList_toString, hchildren, hdata, hdot, List.append_assoc,
    List.cons_append, List.nil_append]

theorem toList_text (path : CellPath) :
    path.text.toList = (path.steps.map (paddedStep (0, 0))).flatten ++ path.field.toList := by
  rw [text, String.toList_append, String.toList_join, List.flatMap_map, List.flatMap_def]
  simp only [toList_text_step]

theorem spellsSteps_map_paddedStep (h : ∀ step ∈ steps, StepInRange step) :
    SpellsSteps steps (steps.map (paddedStep (0, 0))).flatten := by
  refine spellsSteps_iff.mpr ⟨h, List.replicate steps.length (0, 0), List.length_replicate, ?_⟩
  have hzip : List.zipWith paddedStep (List.replicate steps.length (0, 0)) steps =
      steps.map (paddedStep (0, 0)) := by
    induction steps with
    | nil => rfl
    | cons step steps ih =>
      have hrest := ih fun step' hstep' => h step' (List.mem_cons_of_mem _ hstep')
      rw [List.length_cons, List.replicate_succ, List.zipWith_cons_cons, hrest, List.map_cons]
  rw [hzip]

/-- **Writing a path** in range spells it. -/
theorem spellsPath_text (hsteps : ∀ step ∈ path.steps, StepInRange step)
    (hfield : IsField path.field.toList) : SpellsPath path path.text.toList :=
  ⟨_, spellsSteps_map_paddedStep hsteps, hfield, toList_text path⟩

/-- What spells a path spells one in range. -/
theorem SpellsPath.inRange (h : SpellsPath path s) :
    (∀ step ∈ path.steps, StepInRange step) ∧ IsField path.field.toList := by
  obtain ⟨t, hspells, hfield, -⟩ := h
  exact ⟨(spellsSteps_iff.mp hspells).1, hfield⟩

end CellPath

namespace KeyRole

open Text CellPath

variable {key : String} {root : Nat} {path : CellPath}

/-- The key of a cell is the lead, the index of the root row, and the path. -/
theorem spells_iff_spellsPath : Spells root path key ↔ ∃ r s, IsNumeral rootLimit root r ∧
    SpellsPath path s ∧ key.toList = cellLead ++ (r ++ '.' :: s) := by
  constructor
  · rintro ⟨r, t, hroot, hspells, hfield, hkey⟩
    exact ⟨r, _, hroot, ⟨t, hspells, hfield, rfl⟩, hkey⟩
  · rintro ⟨r, _, hroot, ⟨t, hspells, hfield, rfl⟩, hkey⟩
    exact ⟨r, t, hroot, hspells, hfield, hkey⟩

/-- **A text is a path** iff it makes the key of a cell behind the index of a root row. -/
theorem spells_zero_iff {text : String} :
    Spells 0 path ("data.data.0." ++ text) ↔ SpellsPath path text.toList := by
  have hzero : IsNumeral rootLimit 0 ['0'] := isNumeral_numeral 0 (by decide)
  have hkey : ("data.data.0." ++ text).toList = cellLead ++ (['0'] ++ '.' :: text.toList) := by
    rw [String.toList_append]
    rfl
  rw [spells_iff_spellsPath, hkey]
  constructor
  · rintro ⟨r, s, hroot, hspells, heq⟩
    have hrest := List.append_cancel_left heq
    obtain ⟨-, rfl⟩ := (append_dot_inj hzero.dot_not_mem hroot.dot_not_mem).mp hrest
    exact hspells
  · intro hspells
    exact ⟨['0'], text.toList, hzero, hspells, rfl⟩

/-- **The keys of cells are read by the grammar,** and so are paths on their own: a text is read as a
path iff it makes the key of a cell behind `data.data.0.`, and a path that was read can be written and
read again. -/
theorem ofKey_decides_spells (key : String) (root : Nat) (path : CellPath) :
    (ofKey key = .ok (.cell root path) ↔ Spells root path key) ∧
    (∀ (text : String) (p : CellPath),
      ofText text = .ok p ↔ ofKey ("data.data.0." ++ text) = .ok (.cell 0 p)) ∧
    ∀ (text : String) (p : CellPath), ofText text = .ok p → ofText p.text = .ok p := by
  refine ⟨ofKey_eq_cell_iff, ?_, ?_⟩
  · intro text p
    rw [ofText_eq_ok_iff, ofKey_eq_cell_iff, spells_zero_iff]
  · intro text p hread
    obtain ⟨hsteps, hfield⟩ := (ofText_eq_ok_iff.mp hread).inRange
    exact ofText_eq_ok_iff.mpr (spellsPath_text hsteps hfield)

/-- A path spelled with zeros in front of an index, with dots in its field. -/
def paddedCity : String := "children.0.data.007.address.city"

/-- The path that it spells. -/
def cityPath : CellPath := ⟨[⟨0, 7⟩], "address.city"⟩

theorem ofKey_decides_spells_paddedCity : ofText paddedCity = .ok cityPath ∧
    ofKey ("data.data.0." ++ paddedCity) = .ok (.cell 0 cityPath) ∧
    ofText cityPath.text = .ok cityPath := by
  have hrange : ∀ step ∈ cityPath.steps, StepInRange step := by
    simp [cityPath, StepInRange, indexLimit]
  have hfield : IsField cityPath.field.toList := ⟨by decide, by decide, by decide⟩
  have hspells : SpellsPath cityPath paddedCity.toList :=
    ⟨_, spellsSteps_iff.mpr ⟨hrange, [(0, 2)], rfl, rfl⟩, hfield, by decide⟩
  have hread : ofText paddedCity = .ok cityPath := ofText_eq_ok_iff.mpr hspells
  obtain ⟨-, hbehind, hagain⟩ := ofKey_decides_spells paddedCity 0 cityPath
  exact ⟨hread, (hbehind _ _).mp hread, hagain _ _ hread⟩

end KeyRole

end PatternQuery
