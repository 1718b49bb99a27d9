import PatternQuery.Payload.FlatRecord
import PatternQuery.Proofs.Payload.Grammar

/-!
# Reserved keys

A key is reserved by its name, or because it spells a schema marker: the key of a block, with `schema`
behind its index (`KeyRole.SpellsMarker`). Reading a key finds the end of a marker by an empty rest
behind the segment `schema`, and a rest is empty behind a final dot as well. So a marker may be followed
by one dot (`KeyRole.ofKey_eq_reserved_iff`), and this is the only way in which a key is passed over that
is neither the key of a cell nor reserved.
-/

namespace PatternQuery

namespace CellPath

open Text

variable {key : String} {s t : List Char} {step : Nesting} {steps : List Nesting}

/-- **A schema marker** behind the index of a root row: steps, and the block whose schema is given. -/
def SpellsMarker (s : List Char) : Prop :=
  ∃ steps t n block, SpellsSteps steps t ∧ IsNumeral indexLimit n block ∧
    s = t ++ (childrenSegment ++ '.' :: (block ++ '.' :: schemaSegment))

theorem SpellsMarker.ne_nil (h : SpellsMarker s) : s ≠ [] := by
  obtain ⟨steps, t, n, block, -, -, rfl⟩ := h
  exact List.append_ne_nil_of_right_ne_nil _ (by simp)

theorem SpellsMarker.getLast? (h : SpellsMarker s) : s.getLast? = some 'a' := by
  obtain ⟨steps, t, n, block, -, -, rfl⟩ := h
  have hschema : schemaSegment = ['s', 'c', 'h', 'e', 'm'] ++ ['a'] := rfl
  rw [hschema]
  simp only [← List.cons_append, ← List.append_assoc, List.getLast?_concat]

theorem SpellsMarker.cons (hstep : SpellsStep step s) (h : SpellsMarker t) : SpellsMarker (s ++ t) := by
  obtain ⟨steps, t', n, block, hspells, hblock, rfl⟩ := h
  exact ⟨step :: steps, s ++ t', n, block, .cons hstep hspells, hblock,
    (List.append_assoc s t' _).symm⟩

/-- The segment `schema` with nothing behind it makes a marker. -/
theorem readStep_eq_schemaMarker_iff : readStep key s = .ok .schemaMarker ↔
    (∃ n, IsNumeral indexLimit n (cutAtDot s).1) ∧
      cutAtDot (cutAtDot s).2 = (schemaSegment, []) := by
  unfold readStep
  dsimp only
  split_ifs with hblock hmarker hincomplete
  · -- Without a block there is no marker.
    constructor
    · intro h
      cases h
    · rintro ⟨⟨n, hn⟩, -⟩
      exact absurd (List.isEmpty_iff.mp hblock) hn.ne_nil
  · have hcut : cutAtDot (cutAtDot s).2 = (schemaSegment, []) :=
      Prod.ext hmarker.1 (List.isEmpty_iff.mp hmarker.2)
    constructor
    · intro h
      obtain ⟨n, hn, -⟩ := bind_eq_ok_iff.mp h
      exact ⟨⟨n, readIndex_eq_ok_iff.mp hn⟩, hcut⟩
    · rintro ⟨⟨n, hn⟩, -⟩
      exact bind_of_eq_ok (readIndex_eq_ok_iff.mpr hn)
  · constructor
    · intro h
      obtain ⟨n, -, herror⟩ := bind_eq_ok_iff.mp h
      cases herror
    · rintro ⟨-, hcut⟩
      rw [hcut] at hmarker
      exact absurd ⟨rfl, rfl⟩ hmarker
  · constructor
    · intro h
      obtain ⟨n, -, hrow⟩ := bind_eq_ok_iff.mp h
      obtain ⟨m, -, hstep⟩ := bind_eq_ok_iff.mp hrow
      cases hstep
    · rintro ⟨-, hcut⟩
      rw [hcut] at hmarker
      exact absurd ⟨rfl, rfl⟩ hmarker

/-- The step at which a marker is found spells it, up to a dot behind it. -/
theorem exists_spellsMarker_of_readStep (hchildren : (cutAtDot s).1 = childrenSegment)
    (hstep : readStep key (cutAtDot s).2 = .ok .schemaMarker) :
    ∃ t, SpellsMarker t ∧ (s = t ∨ s = t ++ ['.']) := by
  have hschema : '.' ∉ schemaSegment := by decide
  obtain ⟨⟨n, hblock⟩, hend⟩ := readStep_eq_schemaMarker_iff.mp hstep
  have hlast := (cutAtDot_eq_nil_iff hschema).mp hend
  have hne : (cutAtDot (cutAtDot s).2).2 ≠ [] := by
    rcases hlast with heq | heq
    · rw [heq]
      decide
    · rw [heq]
      decide
  have hafterChildren := eq_append_of_cutAtDot hne
  have hs := eq_append_of_cutAtDot (ne_nil_of_cutAtDot hne)
  rw [hafterChildren, hchildren] at hs
  refine ⟨_, ⟨[], [], n, _, .nil, hblock, rfl⟩, ?_⟩
  rcases hlast with heq | heq
  · rw [heq] at hs
    exact .inl hs
  · rw [heq] at hs
    refine .inr (hs.trans ?_)
    simp only [List.nil_append, List.append_assoc, List.cons_append]

/-- A block with nothing but the segment `schema` behind it is read as a marker. -/
theorem readTail_schemaMarker {n : Nat} {block last : List Char} (hblock : IsNumeral indexLimit n block)
    (hlast : cutAtDot last = (schemaSegment, [])) :
    readTail key steps (childrenSegment ++ '.' :: (block ++ '.' :: last)) = .ok none := by
  have hchildren : '.' ∉ childrenSegment := by decide
  have hcut : cutAtDot (childrenSegment ++ '.' :: (block ++ '.' :: last)) =
      (childrenSegment, block ++ '.' :: last) := cutAtDot_append_dot hchildren _
  have hread : readStep key (cutAtDot (childrenSegment ++ '.' :: (block ++ '.' :: last))).2 =
      .ok .schemaMarker := by
    rw [readStep_eq_schemaMarker_iff, hcut, cutAtDot_append_dot hblock.dot_not_mem]
    exact ⟨⟨n, hblock⟩, hlast⟩
  rw [readTail, dif_pos (congrArg Prod.fst hcut), hread]

/-- **Reading a path ends in a schema marker** iff the text is one, or one with a dot behind it. -/
theorem readTail_eq_none_iff : readTail key steps s = .ok none ↔
    ∃ t, SpellsMarker t ∧ (s = t ∨ s = t ++ ['.']) := by
  constructor
  · intro h
    induction steps, s using readTail.induct key with
    | case1 steps s hchildren e hstep =>
      rw [readTail, dif_pos hchildren, hstep] at h
      cases h
    | case2 steps s hchildren hstep => exact exists_spellsMarker_of_readStep hchildren hstep
    | case3 steps s hchildren step rest hle hstep ih =>
      rw [readTail, dif_pos hchildren, hstep] at h
      obtain ⟨t, hmarker, hrest⟩ := ih h
      have hne : rest ≠ [] := by
        rcases hrest with rfl | rfl
        · exact hmarker.ne_nil
        · exact List.append_ne_nil_of_right_ne_nil _ (by simp)
      obtain ⟨t', hspelled, hs⟩ := spellsStep_of_readStep hchildren hstep hne
      refine ⟨t' ++ t, hmarker.cons hspelled, ?_⟩
      rw [hs]
      rcases hrest with rfl | rfl
      · exact .inl rfl
      · exact .inr (List.append_assoc _ _ _).symm
    | case4 steps s hchildren hempty =>
      rw [readTail, dif_neg hchildren, if_pos hempty] at h
      cases h
    | case5 steps s hchildren hempty =>
      rw [readTail, dif_neg hchildren, if_neg hempty] at h
      cases h
  · rintro ⟨_, ⟨more, t, n, block, hspells, hblock, rfl⟩, hs⟩
    have hschema : '.' ∉ schemaSegment := by decide
    rcases hs with rfl | rfl
    · rw [readTail_spellsSteps_append hspells]
      exact readTail_schemaMarker hblock ((cutAtDot_eq_nil_iff hschema).mpr (.inl rfl))
    · rw [List.append_assoc, readTail_spellsSteps_append hspells]
      simp only [List.append_assoc, List.cons_append]
      exact readTail_schemaMarker hblock ((cutAtDot_eq_nil_iff hschema).mpr (.inr rfl))

end CellPath

namespace KeyRole

open Text CellPath

variable {key : String} {root : Nat}

/-- **How a schema marker is spelled.** -/
def SpellsMarker (key : String) : Prop :=
  ∃ root r s, IsNumeral rootLimit root r ∧ CellPath.SpellsMarker s ∧
    key.toList = cellLead ++ (r ++ '.' :: s)

/-- **The reserved keys:** the list of schemas with all that is in it, the schema of the root rows, and
the markers for the schemas of blocks. -/
def IsReserved (key : String) : Prop :=
  (key = "schemas" ∨ "schemas.".toList <+: key.toList ∨ key = "data.schema") ∨ SpellsMarker key

theorem isReservedName_iff : isReservedName key = true ↔
    key = "schemas" ∨ "schemas.".toList <+: key.toList ∨ key = "data.schema" := by
  rw [isReservedName, Bool.or_eq_true, Bool.or_eq_true, beq_iff_eq, beq_iff_eq,
    List.isPrefixOf_iff_prefix, or_assoc]

/-- A schema marker is read as reserved, and a dot behind it makes no difference. -/
theorem ofKey_of_spellsMarker {r s t : List Char} (hroot : IsNumeral rootLimit root r)
    (hmarker : CellPath.SpellsMarker t) (hs : s = t ∨ s = t ++ ['.'])
    (hkey : key.toList = cellLead ++ (r ++ '.' :: s)) : ofKey key = .ok .reserved :=
  ofKey_eq_ok_iff.mpr
    (.inr ⟨root, r, s, none, hroot, hkey, readTail_eq_none_iff.mpr ⟨t, hmarker, hs⟩, rfl⟩)

/-- **Reading a key** takes it as reserved iff it is, or is a schema marker with a dot behind it. -/
theorem ofKey_eq_reserved_iff : ofKey key = .ok .reserved ↔
    IsReserved key ∨ ∃ marker, SpellsMarker marker ∧ key = marker ++ "." := by
  have hdot : ".".toList = ['.'] := rfl
  constructor
  · intro h
    rcases ofKey_eq_ok_iff.mp h with ⟨hname, -⟩ | ⟨root, r, s, tail, hroot, hkey, htail, hrole⟩
    · exact .inl (.inl (isReservedName_iff.mp hname))
    cases tail with
    | some p => exact absurd hrole nofun
    | none =>
      obtain ⟨t, hmarker, hs⟩ := readTail_eq_none_iff.mp htail
      rcases hs with rfl | rfl
      · exact .inl (.inr ⟨root, r, s, hroot, hmarker, hkey⟩)
      · refine .inr ⟨String.ofList (cellLead ++ (r ++ '.' :: t)), ?_, ?_⟩
        · exact ⟨root, r, t, hroot, hmarker, String.toList_ofList⟩
        · apply String.toList_inj.mp
          rw [hkey, String.toList_append, String.toList_ofList, hdot]
          simp only [List.append_assoc, List.cons_append]
  · rintro ((hname | ⟨root, r, s, hroot, hmarker, hkey⟩) |
      ⟨marker, ⟨root, r, s, hroot, hmarker, hkey⟩, rfl⟩)
    · exact ofKey_eq_ok_iff.mpr (.inl ⟨isReservedName_iff.mpr hname, rfl⟩)
    · exact ofKey_of_spellsMarker hroot hmarker (.inl rfl) hkey
    · refine ofKey_of_spellsMarker hroot hmarker (.inr rfl) ?_
      rw [String.toList_append, hkey, hdot]
      simp only [List.append_assoc, List.cons_append]

end KeyRole

/-- A key is reported iff it is neither the key of a cell nor taken as reserved. -/
theorem FlatRecord.isSkipped_iff {key : String} : FlatRecord.isSkipped key = true ↔
    (¬ ∃ root path, KeyRole.Spells root path key) ∧ KeyRole.ofKey key ≠ .ok .reserved := by
  simp only [← KeyRole.ofKey_eq_cell_iff]
  rw [FlatRecord.isSkipped]
  cases KeyRole.ofKey key with
  | error e => simp
  | ok role =>
    cases role with
    | cell root path => simp
    | reserved => simp

namespace KeyRole

open Text CellPath

/-- **Which keys are taken as reserved, and which are reported.** The reserved keys are passed over, and
so is a schema marker with a dot behind it. A key of a flattened result is reported iff it is neither
passed over nor the key of a cell. -/
theorem ofKey_decides_reserved (key : String) :
    (ofKey key = .ok .reserved ↔
      IsReserved key ∨ ∃ marker, SpellsMarker marker ∧ key = marker ++ ".") ∧
    ∀ members : List (String × Json),
      (FlatRecord.ofMembers members).skipped.Sublist (members.map (·.1)) ∧
      (key ∈ (FlatRecord.ofMembers members).skipped ↔ key ∈ members.map (·.1) ∧
        (¬ ∃ root path, Spells root path key) ∧
        ¬ (IsReserved key ∨ ∃ marker, SpellsMarker marker ∧ key = marker ++ ".")) := by
  refine ⟨ofKey_eq_reserved_iff, fun members => ⟨List.filter_sublist, ?_⟩⟩
  rw [← ofKey_eq_reserved_iff]
  show key ∈ (members.map (·.1)).filter FlatRecord.isSkipped ↔ _
  rw [List.mem_filter, FlatRecord.isSkipped_iff]

/-- A schema marker with a dot behind it. -/
def dottedMarker : String := "data.data.0.children.0.schema."

/-- **A key that is not reserved can be taken as reserved,** and is then reported nowhere. -/
theorem not_isReserved_of_ofKey :
    (¬ ∀ key, ofKey key = .ok .reserved ↔ IsReserved key) ∧
    ¬ ∀ (members : List (String × Json)) (key : String), key ∈ members.map (·.1) →
      (¬ ∃ root path, Spells root path key) → ¬ IsReserved key →
        key ∈ (FlatRecord.ofMembers members).skipped := by
  have hread : ofKey dottedMarker = .ok .reserved := by
    have hzero : IsNumeral rootLimit 0 ['0'] := isNumeral_numeral 0 (by decide)
    have hblock : IsNumeral indexLimit 0 ['0'] := isNumeral_numeral 0 (by decide)
    have hmarker : SpellsMarker "data.data.0.children.0.schema" :=
      ⟨0, ['0'], _, hzero, ⟨[], [], 0, ['0'], .nil, hblock, rfl⟩, by decide⟩
    exact ofKey_eq_reserved_iff.mpr (.inr ⟨_, hmarker, by decide⟩)
  have hreserved : ¬ IsReserved dottedMarker := by
    rintro ((hlist | hentry | hschema) | ⟨root, r, s, -, hmarker, hkey⟩)
    · exact absurd hlist (by decide)
    · exact absurd hentry (by decide)
    · exact absurd hschema (by decide)
    · -- A marker ends with a letter.
      have hlast : dottedMarker.toList.getLast? = some 'a' := by
        rw [hkey, ← List.append_assoc, ← List.singleton_append, ← List.append_assoc,
          List.getLast?_append, hmarker.getLast?]
        rfl
      exact absurd hlast (by decide)
  refine ⟨fun hall => hreserved ((hall _).mp hread), fun hall => ?_⟩
  have hcell : ¬ ∃ root path, Spells root path dottedMarker := by
    rintro ⟨root, path, hspells⟩
    exact absurd ((ofKey_eq_cell_iff.mpr hspells).symm.trans hread) nofun
  have hskipped := hall [(dottedMarker, .null)] dottedMarker List.mem_cons_self hcell hreserved
  have hfilter : FlatRecord.isSkipped dottedMarker = true := (List.mem_filter.mp hskipped).2
  exact (FlatRecord.isSkipped_iff.mp hfilter).2 hread

end KeyRole

end PatternQuery
