import PatternQuery.Payload.CellPath
import PatternQuery.Proofs.Fallible
import PatternQuery.Proofs.Text.Numeral
import PatternQuery.Proofs.Text.Segment

/-!
# The grammar of the keys of cells

`KeyRole.Spells` says how the key of a cell is spelled: the lead, the index of the root row, the steps
and the field, where every index is a numeral (`Text.IsNumeral`) in the range of its kind. Reading a key
decides this relation (`KeyRole.ofKey_eq_cell_iff`): segments end at dots, numerals and fixed segments
hold none, so a key is cut where its parts were put together.

A numeral is the shortest numeral of its number with zeros in front (`Text.IsNumeral.exists_zeros`), so
the keys of one cell differ only in such zeros (`KeyRole.spells_iff`).
-/

namespace PatternQuery

namespace CellPath

open Text

variable {key : String} {s t rest : List Char} {step : Nesting} {steps more : List Nesting} {n limit : Nat}

/-! ### Steps -/

theorem readIndex_eq_ok_iff : readIndex limit key s = .ok n ↔ IsNumeral limit n s := by
  unfold readIndex
  dsimp only
  split_ifs with h
  · simp only [Bool.and_eq_true, Bool.not_eq_true', List.isEmpty_eq_false_iff, List.all_eq_true,
      decide_eq_true_iff] at h
    obtain ⟨⟨hne, hdigits⟩, hlt⟩ := h
    constructor
    · intro hok
      obtain rfl := Except.ok.inj hok
      exact ⟨hne, hdigits, rfl, hlt⟩
    · intro hnumeral
      rw [hnumeral.value]
  · refine ⟨fun herror => absurd herror nofun, fun hnumeral => absurd ?_ h⟩
    have hne := hnumeral.ne_nil
    have hlt := hnumeral.value.symm ▸ hnumeral.lt
    simp only [Bool.and_eq_true, Bool.not_eq_true', List.isEmpty_eq_false_iff, List.all_eq_true,
      decide_eq_true_iff]
    exact ⟨⟨hne, hnumeral.digits⟩, hlt⟩

theorem readStep_eq_nested_iff {h : rest.length ≤ s.length} :
    readStep key s = .ok (.nested step rest h) ↔
      IsNumeral indexLimit step.block (cutAtDot s).1 ∧
      (cutAtDot (cutAtDot s).2).1 = dataSegment ∧
      IsNumeral indexLimit step.row (cutAtDot (cutAtDot (cutAtDot s).2).2).1 ∧
      rest = (cutAtDot (cutAtDot (cutAtDot s).2).2).2 := by
  unfold readStep
  dsimp only
  split_ifs with hblock hmarker hincomplete
  · -- Without a block there is no step.
    refine ⟨fun h => absurd h nofun, fun ⟨hb, _⟩ => absurd ?_ hb.ne_nil⟩
    simpa using hblock
  · refine ⟨fun h => ?_, fun ⟨_, hdata, _⟩ => ?_⟩
    · obtain ⟨_, -, h⟩ := bind_eq_ok_iff.mp h
      exact absurd h nofun
    · exact absurd (hmarker.1.symm.trans hdata) (by decide)
  · refine ⟨fun h => ?_, fun ⟨_, hdata, hr, _⟩ => ?_⟩
    · obtain ⟨_, -, h⟩ := bind_eq_ok_iff.mp h
      exact absurd h nofun
    · obtain hnot | hempty := hincomplete
      · exact absurd hdata hnot
      · exact absurd (by simpa using hempty) hr.ne_nil
  · have hdata : (cutAtDot (cutAtDot s).2).1 = dataSegment := by
      by_contra hnot
      exact hincomplete (.inl hnot)
    constructor
    · intro h
      obtain ⟨block, hb, h⟩ := bind_eq_ok_iff.mp h
      obtain ⟨row, hr, h⟩ := bind_eq_ok_iff.mp h
      obtain ⟨rfl, rfl⟩ := Step.nested.inj (Except.ok.inj h)
      exact ⟨readIndex_eq_ok_iff.mp hb, hdata, readIndex_eq_ok_iff.mp hr, rfl⟩
    · rintro ⟨hb, -, hr, rfl⟩
      exact bind_eq_ok_iff.mpr ⟨_, readIndex_eq_ok_iff.mpr hb,
        bind_eq_ok_iff.mpr ⟨_, readIndex_eq_ok_iff.mpr hr, rfl⟩⟩

/-- **A step as it may be spelled.** -/
def SpellsStep (step : Nesting) (s : List Char) : Prop :=
  ∃ block row, IsNumeral indexLimit step.block block ∧ IsNumeral indexLimit step.row row ∧
    s = childrenSegment ++ '.' :: (block ++ '.' :: (dataSegment ++ '.' :: (row ++ ['.'])))

/-- Steps as they may be spelled, one after another. -/
inductive SpellsSteps : List Nesting → List Char → Prop
  | nil : SpellsSteps [] []
  | cons {step : Nesting} {steps : List Nesting} {s t : List Char} (h : SpellsStep step s)
      (hs : SpellsSteps steps t) : SpellsSteps (step :: steps) (s ++ t)

/-- **A field:** it is not empty, and does not start with the segment `children`. -/
structure IsField (s : List Char) : Prop where
  ne_nil : s ≠ []
  ne_children : s ≠ childrenSegment
  not_prefix : ¬ childrenSegment ++ ['.'] <+: s

theorem isField_iff : IsField s ↔ s ≠ [] ∧ (cutAtDot s).1 ≠ childrenSegment := by
  have hdot : '.' ∉ childrenSegment := by decide
  have hhead := (cutAtDot_fst_eq_iff (t := s) hdot).not.trans not_or
  rw [Ne, Ne, hhead]
  exact ⟨fun ⟨hne, hchildren, hprefix⟩ => ⟨hne, hchildren, hprefix⟩,
    fun ⟨hne, hchildren, hprefix⟩ => ⟨hne, hchildren, hprefix⟩⟩

theorem spelling_append (block row rest : List Char) :
    (childrenSegment ++ '.' :: (block ++ '.' :: (dataSegment ++ '.' :: (row ++ ['.'])))) ++ rest =
      childrenSegment ++ '.' :: (block ++ '.' :: (dataSegment ++ '.' :: (row ++ '.' :: rest))) := by
  simp

theorem exists_readStep_of_spellsStep (h : SpellsStep step s) (rest : List Char) (key : String) :
    (cutAtDot (s ++ rest)).1 = childrenSegment ∧
      ∃ hle, readStep key (cutAtDot (s ++ rest)).2 = .ok (.nested step rest hle) := by
  obtain ⟨block, row, hblock, hrow, rfl⟩ := h
  have hchildren : '.' ∉ childrenSegment := by decide
  have hdata : '.' ∉ dataSegment := by decide
  rw [spelling_append, cutAtDot_append_dot hchildren]
  refine ⟨rfl, ?_, ?_⟩
  · simp
    omega
  · rw [readStep_eq_nested_iff, cutAtDot_append_dot hblock.dot_not_mem, cutAtDot_append_dot hdata,
      cutAtDot_append_dot hrow.dot_not_mem]
    exact ⟨hblock, rfl, hrow, rfl⟩

theorem spellsStep_of_readStep {h : rest.length ≤ (cutAtDot s).2.length}
    (hchildren : (cutAtDot s).1 = childrenSegment)
    (hstep : readStep key (cutAtDot s).2 = .ok (.nested step rest h)) (hrest : rest ≠ []) :
    ∃ t, SpellsStep step t ∧ s = t ++ rest := by
  obtain ⟨hblock, hdata, hrow, rfl⟩ := readStep_eq_nested_iff.mp hstep
  -- Something is left behind the row, so there are dots all the way up to it.
  have hafterMark := eq_append_of_cutAtDot hrest
  have hafterBlock := eq_append_of_cutAtDot (ne_nil_of_cutAtDot hrest)
  have hafterChildren := eq_append_of_cutAtDot (ne_nil_of_cutAtDot (ne_nil_of_cutAtDot hrest))
  have hs := eq_append_of_cutAtDot
    (ne_nil_of_cutAtDot (ne_nil_of_cutAtDot (ne_nil_of_cutAtDot hrest)))
  refine ⟨_, ⟨_, _, hblock, hrow, rfl⟩, ?_⟩
  rw [spelling_append, ← hafterMark, ← hdata, ← hafterBlock, ← hafterChildren, ← hchildren, ← hs]

/-- A step spelled with zeros in front of its two indices. -/
def paddedStep (zeros : Nat × Nat) (step : Nesting) : List Char :=
  childrenSegment ++ '.' :: (numeral zeros.1 step.block ++
    '.' :: (dataSegment ++ '.' :: (numeral zeros.2 step.row ++ ['.'])))

/-- Both indices of a step are in the range of what is read. -/
def StepInRange (step : Nesting) : Prop := step.block < indexLimit ∧ step.row < indexLimit

theorem spellsSteps_iff : SpellsSteps steps s ↔ (∀ step ∈ steps, StepInRange step) ∧
    ∃ zeros, zeros.length = steps.length ∧ s = (List.zipWith paddedStep zeros steps).flatten := by
  constructor
  · intro h
    induction h with
    | nil => exact ⟨by simp, [], rfl, rfl⟩
    | cons h _ ih =>
      obtain ⟨block, row, hblock, hrow, rfl⟩ := h
      obtain ⟨blockZeros, rfl⟩ := hblock.exists_zeros
      obtain ⟨rowZeros, rfl⟩ := hrow.exists_zeros
      obtain ⟨hrange, zeros, hlength, rfl⟩ := ih
      exact ⟨List.forall_mem_cons.mpr ⟨⟨hblock.lt, hrow.lt⟩, hrange⟩, (blockZeros, rowZeros) :: zeros,
        congrArg (· + 1) hlength, rfl⟩
  · rintro ⟨hrange, zeros, hlength, rfl⟩
    induction steps generalizing zeros with
    | nil =>
      obtain rfl := List.eq_nil_of_length_eq_zero hlength
      exact .nil
    | cons step steps ih =>
      obtain ⟨⟨hblock, hrow⟩, hrange⟩ := List.forall_mem_cons.mp hrange
      cases zeros with
      | nil => exact absurd hlength nofun
      | cons z zeros =>
        have hrest := ih hrange zeros (Nat.succ.inj hlength)
        exact .cons ⟨_, _, isNumeral_numeral z.1 hblock, isNumeral_numeral z.2 hrow, rfl⟩ hrest

/-! ### Paths -/

/-- Steps are read off from the front. -/
theorem readTail_spellsSteps_append (h : SpellsSteps more t) (rest : List Char) :
    readTail key steps (t ++ rest) = readTail key (steps ++ more) rest := by
  induction h generalizing steps with
  | nil => rw [List.nil_append, List.append_nil]
  | @cons step more s t hstep _ ih =>
    obtain ⟨hchildren, hle, hread⟩ := exists_readStep_of_spellsStep hstep (t ++ rest) key
    have happend : steps ++ [step] ++ more = steps ++ step :: more := List.append_assoc _ _ _
    rw [List.append_assoc, readTail, dif_pos hchildren, hread, ← happend]
    exact ih

/-- **Reading a path** gives the steps and the field as they are spelled. -/
theorem readTail_eq_some_iff {p : CellPath} : readTail key steps s = .ok (some p) ↔
    ∃ more t, p.steps = steps ++ more ∧ SpellsSteps more t ∧ s = t ++ p.field.toList ∧
      IsField p.field.toList := by
  constructor
  · intro h
    induction steps, s using readTail.induct key with
    | case1 steps s hchildren e hstep =>
      rw [readTail, dif_pos hchildren, hstep] at h
      exact absurd h nofun
    | case2 steps s hchildren hstep =>
      rw [readTail, dif_pos hchildren, hstep] at h
      exact absurd h nofun
    | case3 steps s hchildren step rest hle hstep ih =>
      rw [readTail, dif_pos hchildren, hstep] at h
      obtain ⟨more, t, hsteps, hspells, rfl, hfield⟩ := ih h
      -- A step is cut off at a dot because the path goes on, at least with the field.
      have hne : t ++ p.field.toList ≠ [] := List.append_ne_nil_of_right_ne_nil _ hfield.ne_nil
      obtain ⟨t', hspelled, hs⟩ := spellsStep_of_readStep hchildren hstep hne
      refine ⟨step :: more, t' ++ t, ?_, .cons hspelled hspells, ?_, hfield⟩
      · rw [hsteps, List.append_assoc]
        rfl
      · rw [hs, List.append_assoc]
    | case4 steps s hchildren hempty =>
      rw [readTail, dif_neg hchildren, if_pos hempty] at h
      exact absurd h nofun
    | case5 steps s hchildren hempty =>
      rw [readTail, dif_neg hchildren, if_neg hempty] at h
      obtain rfl := Option.some.inj (Except.ok.inj h)
      refine ⟨[], [], (List.append_nil _).symm, .nil, by simp, ?_⟩
      rw [String.toList_ofList]
      exact isField_iff.mpr ⟨by simpa using hempty, hchildren⟩
  · rintro ⟨more, t, hsteps, hspells, rfl, hfield⟩
    obtain ⟨hne, hhead⟩ := isField_iff.mp hfield
    rw [readTail_spellsSteps_append hspells, readTail, dif_neg hhead, if_neg (by simpa using hne),
      String.ofList_toList, ← hsteps]

end CellPath

/-! ### Keys -/

namespace KeyRole

open Text CellPath

variable {key : String} {root : Nat} {path : CellPath}

/-- **How the key of a cell is spelled.** -/
def Spells (root : Nat) (path : CellPath) (key : String) : Prop :=
  ∃ r s, IsNumeral rootLimit root r ∧ SpellsSteps path.steps s ∧ IsField path.field.toList ∧
    key.toList = cellLead ++ (r ++ '.' :: (s ++ path.field.toList))

theorem isReservedName_eq_false {s : List Char} (h : key.toList = cellLead ++ s) :
    isReservedName key = false := by
  -- The reserved names part from the lead at the first letter, or behind the first dot.
  have hlead : cellLead = ['d', 'a', 't', 'a', '.', 'd', 'a', 't', 'a', '.'] := rfl
  have hschemas : "schemas".toList = ['s', 'c', 'h', 'e', 'm', 'a', 's'] := rfl
  have hschemasDot : "schemas.".toList = ['s', 'c', 'h', 'e', 'm', 'a', 's', '.'] := rfl
  have hschema : "data.schema".toList =
      ['d', 'a', 't', 'a', '.', 's', 'c', 'h', 'e', 'm', 'a'] := rfl
  have hne : key ≠ "schemas" := by
    rintro rfl
    rw [hschemas, hlead] at h
    exact absurd h (by simp)
  have hne' : key ≠ "data.schema" := by
    rintro rfl
    rw [hschema, hlead] at h
    exact absurd h (by simp)
  rw [isReservedName, beq_eq_false_iff_ne.mpr hne, beq_eq_false_iff_ne.mpr hne', h, hschemasDot, hlead]
  rfl

/-- What a key stands for, by what stands behind the index of its root row: a path or a marker. -/
def ofTail (root : Nat) : Option CellPath → KeyRole
  | some path => .cell root path
  | none => .reserved

/-- Behind the index of the root row there has to be something. -/
theorem readTail_nil_ne_ok {steps : List Nesting} {tail : Option CellPath} :
    readTail key steps [] ≠ .ok tail := by
  have hhead : (cutAtDot []).1 ≠ childrenSegment := by decide
  rw [readTail, dif_neg hhead, if_pos List.isEmpty_nil]
  exact nofun

/-- **Reading a key:** it is reserved by its name, or there is a root row with something behind it. -/
theorem ofKey_eq_ok_iff {role : KeyRole} : ofKey key = .ok role ↔
    isReservedName key = true ∧ role = .reserved ∨
    ∃ root r s tail, IsNumeral rootLimit root r ∧ key.toList = cellLead ++ (r ++ '.' :: s) ∧
      readTail key [] s = .ok tail ∧ role = ofTail root tail := by
  constructor
  · intro h
    unfold ofKey at h
    split at h
    · next hname => exact .inl ⟨hname, (Except.ok.inj h).symm⟩
    split at h
    · exact absurd h nofun
    next hlead =>
    have hprefix : cellLead <+: key.toList := by simpa using hlead
    obtain ⟨rest, hrest⟩ := hprefix
    rw [← hrest, List.drop_left] at h
    dsimp only at h
    obtain ⟨root, hroot, h⟩ := bind_eq_ok_iff.mp h
    obtain ⟨tail, htail, h⟩ := bind_eq_ok_iff.mp h
    -- What stands behind the root row was read, so a dot stands in front of it.
    have hne : (cutAtDot rest).2 ≠ [] := by
      intro hnil
      rw [hnil] at htail
      exact readTail_nil_ne_ok htail
    have hkey : key.toList = cellLead ++ ((cutAtDot rest).1 ++ '.' :: (cutAtDot rest).2) := by
      rw [← eq_append_of_cutAtDot hne, hrest]
    refine .inr ⟨root, _, _, tail, readIndex_eq_ok_iff.mp hroot, hkey, htail, ?_⟩
    cases tail with
    | none => exact (Except.ok.inj h).symm
    | some p => exact (Except.ok.inj h).symm
  · rintro (⟨hname, rfl⟩ | ⟨root, r, s, tail, hroot, hkey, htail, rfl⟩)
    · unfold ofKey
      rw [if_pos hname]
    · have hlead : cellLead.isPrefixOf key.toList = true :=
        List.isPrefixOf_iff_prefix.mpr (hkey ▸ List.prefix_append _ _)
      unfold ofKey
      rw [isReservedName_eq_false hkey, hlead, hkey, List.drop_left,
        cutAtDot_append_dot hroot.dot_not_mem]
      refine (bind_of_eq_ok (readIndex_eq_ok_iff.mpr hroot)).trans ?_
      refine (bind_of_eq_ok htail).trans ?_
      cases tail with
      | none => rfl
      | some p => rfl

/-- **Reading a key** gives a cell iff the key spells the cell. -/
theorem ofKey_eq_cell_iff : ofKey key = .ok (.cell root path) ↔ Spells root path key := by
  rw [ofKey_eq_ok_iff]
  constructor
  · rintro (⟨-, h⟩ | ⟨n, r, s, tail, hroot, hkey, htail, h⟩)
    · exact absurd h nofun
    cases tail with
    | none => exact absurd h nofun
    | some p =>
      obtain ⟨rfl, rfl⟩ := KeyRole.cell.inj h
      obtain ⟨more, t, hsteps, hspells, rfl, hfield⟩ := readTail_eq_some_iff.mp htail
      rw [List.nil_append] at hsteps
      exact ⟨r, t, hroot, hsteps ▸ hspells, hfield, hkey⟩
  · rintro ⟨r, t, hroot, hspells, hfield, hkey⟩
    have htail : readTail key [] (t ++ path.field.toList) = .ok (some path) :=
      readTail_eq_some_iff.mpr ⟨_, t, rfl, hspells, rfl, hfield⟩
    exact .inr ⟨root, r, _, some path, hroot, hkey, htail, rfl⟩

/-- The key of a cell, spelled with zeros in front of the indices. -/
def paddedKey (zeros : Nat) (stepZeros : List (Nat × Nat)) (root : Nat) (path : CellPath) : List Char :=
  cellLead ++ (numeral zeros root ++
    '.' :: ((List.zipWith paddedStep stepZeros path.steps).flatten ++ path.field.toList))

/-- **A cell that can have a key:** all indices are in range, and the field is one. -/
structure InRange (root : Nat) (path : CellPath) : Prop where
  root_lt : root < rootLimit
  steps : ∀ step ∈ path.steps, StepInRange step
  field : IsField path.field.toList

/-- **The keys of one cell differ only in zeros** in front of the indices. -/
theorem spells_iff : Spells root path key ↔ InRange root path ∧ ∃ zeros stepZeros,
    stepZeros.length = path.depth ∧ key.toList = paddedKey zeros stepZeros root path := by
  constructor
  · rintro ⟨r, s, hroot, hspells, hfield, hkey⟩
    obtain ⟨zeros, rfl⟩ := hroot.exists_zeros
    obtain ⟨hrange, stepZeros, hlength, rfl⟩ := spellsSteps_iff.mp hspells
    exact ⟨⟨hroot.lt, hrange, hfield⟩, zeros, stepZeros, hlength, hkey⟩
  · rintro ⟨hrange, zeros, stepZeros, hlength, hkey⟩
    exact ⟨_, _, isNumeral_numeral zeros hrange.root_lt,
      spellsSteps_iff.mpr ⟨hrange.steps, stepZeros, hlength, rfl⟩, hrange.field, hkey⟩

end KeyRole

end PatternQuery
