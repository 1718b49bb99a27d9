import PatternQuery.Proofs.Json.Record
import PatternQuery.Proofs.Selection.Columns

/-!
# Stored sets of columns

Which JSON values spell a column. A set of columns is stored as the list of its columns, and reading
a list that spells columns takes them in (`ColumnSet.ofJson_eq`). A list that is not taken in breaks one
of three rules, and `ColumnError.Holds` says which rule an error speaks of: the error of
`ColumnSet.ofColumns` holds (`ColumnSet.holds_of_ofColumns`), and a list of which none holds is taken
in (`ColumnSet.exists_ofColumns_iff`).
-/

namespace PatternQuery

open Json (Given Nullable ListOf OrderFree)

/-! ### Columns -/

namespace Column

/-- The members of a column, in the order in which an array gives them. -/
abbrev memberNames : List String := ["fieldId", "schemaId", "selectOrder", "groupOrder"]

/-- A value is a place in an order. -/
def IsOrder (o : UInt32) : Json → Prop := Json.IsNatBelow UInt32.size o.toNat

/-- **A value that spells a column.** -/
structure SpelledBy (c : Column) (v : Json) : Prop where
  record : v.IsRecord memberNames
  field : Given Json.IsStr c.id.field (v.field memberNames "fieldId")
  schema : Given Json.IsStr c.id.schema (v.field memberNames "schemaId")
  selectOrder : Given IsOrder c.selectOrder (v.field memberNames "selectOrder")
  groupOrder : Nullable IsOrder c.groupOrder (v.field memberNames "groupOrder")

variable {c : Column} {o : UInt32} {v : Json}

theorem IsOrder.orderOfJson_eq (h : IsOrder o v) : orderOfJson v = .ok o := by
  refine (bind_of_eq_ok (Json.IsNatBelow.toNatBelow_eq h)).trans ?_
  rw [Nat.toUInt32_eq, UInt32.ofNat_toNat]
  rfl

theorem not_isOrder_null (o : UInt32) : ¬ IsOrder o .null := nofun

/-- What a column record holds when the members in `has` have been read. -/
def draft (c : Column) (has : String → Bool) : Draft :=
  ⟨bif has "fieldId" then some c.id.field else none, bif has "schemaId" then some c.id.schema else none,
    bif has "selectOrder" then some c.selectOrder else none,
    bif has "groupOrder" then c.groupOrder else none⟩

theorem SpelledBy.ofJson_eq (h : c.SpelledBy v) : ofJson v = .ok c := by
  refine (bind_of_eq_ok (Json.toRecord_eq_ok c.draft h.record (by decide) rfl
    fun has name w hw => ?_)).trans ?_
  · split
    · have hfield : Json.IsStr c.id.field w := (hw ▸ h.field).of_some
      rw [hfield.toStr_eq]
      rfl
    · have hschema : Json.IsStr c.id.schema w := (hw ▸ h.schema).of_some
      rw [hschema.toStr_eq]
      rfl
    · have hselect : IsOrder c.selectOrder w := (hw ▸ h.selectOrder).of_some
      rw [hselect.orderOfJson_eq]
      rfl
    · have hgroup : Nullable IsOrder c.groupOrder (some w) := hw ▸ h.groupOrder
      rw [hgroup.toOptionOf_eq (fun _ _ => IsOrder.orderOfJson_eq) not_isOrder_null]
      rfl
    · next hfield hschema hselect hgroup =>
      simp only [draft, eq_false hfield, eq_false hschema, eq_false hselect, eq_false hgroup,
        decide_false, Bool.false_or]
      rfl
  · dsimp only [draft]
    rw [Json.required_of_given h.field, Json.required_of_given h.schema,
      Json.required_of_given h.selectOrder, h.groupOrder.cond_eq]
    rfl

theorem orderFree_spelledBy : OrderFree SpelledBy := fun c v h => by
  have horder : OrderFree IsOrder := fun o => Json.orderFree_isNatBelow _ o.toNat
  refine ⟨h.record.sorted, ?_, ?_, ?_, ?_⟩
  · rw [h.record.field_sorted]
    exact h.field.sorted Json.orderFree_isStr
  · rw [h.record.field_sorted]
    exact h.schema.sorted Json.orderFree_isStr
  · rw [h.record.field_sorted]
    exact h.selectOrder.sorted horder
  · rw [h.record.field_sorted]
    exact h.groupOrder.sorted horder

theorem spelledBy_toJson (c : Column) : c.SpelledBy c.toJson := by
  have horder (o : UInt32) : IsOrder o (.nat o.toNat) := ⟨rfl, o.toNat_lt_size⟩
  obtain ⟨id, selectOrder, groupOrder⟩ := c
  cases groupOrder with
  | none =>
    have hrecord : Json.IsRecord memberNames (toJson ⟨id, selectOrder, none⟩) := by
      simp [toJson, Json.IsRecord]
    exact ⟨hrecord, ⟨rfl⟩, ⟨rfl⟩, ⟨horder _⟩, .missing⟩
  | some groupOrder =>
    have hrecord : Json.IsRecord memberNames (toJson ⟨id, selectOrder, some groupOrder⟩) := by
      simp [toJson, Json.IsRecord]
    exact ⟨hrecord, ⟨rfl⟩, ⟨rfl⟩, ⟨horder _⟩, .given (horder _)⟩

end Column

/-! ### Lists of columns that are refused -/

/-- **What an error says of a list of columns** that is to be taken in. The other errors are about
edits. -/
def ColumnError.Holds (cs : List Column) : ColumnError → Prop
  | duplicateColumn id => 2 ≤ (cs.map (·.id)).count id
  | selectOrderNotDense expected => expected = cs.length ∧
      ¬ (cs.map (·.selectOrder.toNat)).Perm (List.range' 1 expected)
  | groupOrderNotDense expected => expected = (cs.filterMap (·.groupOrder)).length ∧
      ¬ ((cs.filterMap (·.groupOrder)).map UInt32.toNat).Perm (List.range expected)
  | _ => False

variable {s : ColumnSet} {cs cs' : List Column} {e : ColumnError}

theorem ColumnError.holds_iff_of_perm (h : cs.Perm cs') : e.Holds cs ↔ e.Holds cs' := by
  have hselect : (cs.map (·.selectOrder.toNat)).Perm (cs'.map (·.selectOrder.toNat)) := h.map _
  have hgroup : (cs.filterMap (·.groupOrder)).Perm (cs'.filterMap (·.groupOrder)) := h.filterMap _
  cases e with
  | duplicateColumn id => rw [Holds, Holds, (h.map (·.id)).count_eq]
  | selectOrderNotDense expected => rw [Holds, Holds, h.length_eq, hselect.congr_left]
  | groupOrderNotDense expected =>
    rw [Holds, Holds, hgroup.length_eq, (hgroup.map UInt32.toNat).congr_left]
  | _ => rfl

namespace ColumnSet

theorem two_le_count_of_firstRepeated? {seen : List ColumnId} {id : ColumnId}
    (h : firstRepeated? seen cs = some id) : 2 ≤ (seen ++ cs.map (·.id)).count id := by
  induction cs generalizing seen with
  | nil => exact absurd h (by simp [firstRepeated?])
  | cons c cs ih =>
    rw [firstRepeated?] at h
    split at h
    · next hseen =>
      -- The column is counted once among those before, and once where it stands.
      obtain rfl := Option.some.inj h
      have hbefore : 0 < seen.count c.id := List.count_pos_iff.mpr (by simpa using hseen)
      rw [List.count_append, List.map_cons, List.count_cons_self]
      omega
    · rw [List.map_cons, List.perm_middle.count_eq]
      exact ih h

theorem holds_of_checkInvariants (h : s.checkInvariants = .error e) : e.Holds s.columns := by
  unfold checkInvariants at h
  split at h
  · next id hid =>
    obtain rfl := Except.error.inj h
    exact two_le_count_of_firstRepeated? hid
  · next hnone =>
    dsimp only at h
    split_ifs at h with hselect hgroup
    · obtain rfl := Except.error.inj h
      refine ⟨rfl, fun hperm => ?_⟩
      rw [s.isDenseFrom_selectOrders_iff.mpr hperm] at hselect
      exact absurd hselect (by decide)
    · obtain rfl := Except.error.inj h
      refine ⟨List.length_mergeSort _, fun hperm => ?_⟩
      rw [List.length_mergeSort] at hperm
      rw [s.isDenseFrom_groupOrders_iff.mpr hperm] at hgroup
      exact absurd hgroup (by decide)

theorem not_holds_of_checkInvariants (h : s.checkInvariants = .ok ()) : ¬ e.Holds s.columns := by
  obtain ⟨hnodup, hselect, hgroup⟩ := checkInvariants_eq_ok_iff.mp h
  cases e with
  | duplicateColumn id =>
    have hcount := List.nodup_iff_count_le_one.mp hnodup id
    rw [ColumnError.Holds]
    omega
  | selectOrderNotDense expected =>
    rintro ⟨rfl, hnot⟩
    exact hnot hselect
  | groupOrderNotDense expected =>
    rintro ⟨rfl, hnot⟩
    exact hnot hgroup
  | _ => exact id

/-- Taking columns in sorts them first, which breaks no rule and mends none. -/
theorem holds_inSelectOrder_iff : e.Holds (inSelectOrder cs) ↔ e.Holds cs :=
  ColumnError.holds_iff_of_perm (List.mergeSort_perm _ _)

theorem holds_of_ofColumns (h : ofColumns cs = .error e) : e.Holds cs := by
  obtain h | ⟨-, h⟩ := check_bind_eq_error_iff.mp h
  · exact holds_inSelectOrder_iff.mp (holds_of_checkInvariants h)
  · exact absurd h (by simp [pure, Except.pure])

theorem exists_ofColumns_iff : (∃ s, ofColumns cs = .ok s) ↔ ∀ e : ColumnError, ¬ e.Holds cs := by
  constructor
  · rintro ⟨s, hs⟩ e
    obtain ⟨hcolumns, hordered⟩ := ofColumns_eq_ok_iff.mp hs
    have hnot : ¬ e.Holds s.columns := not_holds_of_checkInvariants hordered.checkInvariants_eq
    rwa [hcolumns, holds_inSelectOrder_iff] at hnot
  · intro hnone
    cases h : ofColumns cs with
    | error e => exact absurd (holds_of_ofColumns h) (hnone e)
    | ok s => exact ⟨s, rfl⟩

/-! ### Reading and writing -/

/-- **Reading a value that spells columns** takes them in, or fails with the text of the error. -/
theorem ofJson_eq {v : Json} (h : ListOf Column.SpelledBy cs v) :
    ofJson v = (ofColumns cs).mapError fun e => .refused e.message := by
  have hcolumns : v.toListOf Column.ofJson = .ok cs := by
    rw [h.toListOf_eq fun _ _ => Column.SpelledBy.ofJson_eq]
    exact List.mapM_pure.trans (congrArg Except.ok (List.map_id _))
  refine (bind_of_eq_ok hcolumns).trans ?_
  cases ofColumns cs <;> rfl

theorem spelledBy_toJson (s : ColumnSet) : ListOf Column.SpelledBy s.columns s.toJson :=
  ⟨List.forall₂_map_right_iff.mpr (List.forall₂_same.mpr fun c _ => c.spelledBy_toJson)⟩

end ColumnSet

end PatternQuery
