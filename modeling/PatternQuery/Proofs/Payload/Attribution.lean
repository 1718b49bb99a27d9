import Mathlib.Data.List.Perm.Basic
import Mathlib.Data.List.Range
import PatternQuery.Payload.Attribution
import PatternQuery.Proofs.Keyed

/-!
# Attribution is a partition

Every path has one place in the list of schemas, or none when there are no schemas
(`Attribution.indexForDepth_mem_places`), and the groups are made place by place
(`Attribution.groups_eq`). So the paths that are shown are distributed over the columns of the groups:
none is lost and none comes twice (`Attribution.paths_groups_perm`). A path is left out iff the field that
it names is hidden in the schema of its depth (`Attribution.isShown_iff`).
-/

namespace PatternQuery

variable {schemas : List Schema} {includeHidden : Bool} {paths : List CellPath} {path : CellPath}

/-- **The first field of a schema that answers to a text,** by its id or its name. -/
def Schema.FirstAnswering (s : Schema) (text : String) (f : Field) : Prop :=
  (f.id = text ∨ f.name = text) ∧
    ∃ earlier later, s.fields = earlier ++ f :: later ∧ ∀ g ∈ earlier, g.id ≠ text ∧ g.name ≠ text

theorem Field.answersTo_iff {f : Field} {text : String} :
    f.answersTo text = true ↔ f.id = text ∨ f.name = text := by
  rw [Field.answersTo, Bool.or_eq_true, beq_iff_eq, beq_iff_eq]

theorem Schema.field?_eq_some_iff {s : Schema} {text : String} {f : Field} :
    s.field? text = some f ↔ s.FirstAnswering text f := by
  rw [Schema.field?, List.find?_eq_some_iff_append, Field.answersTo_iff, Schema.FirstAnswering]
  simp only [Bool.not_eq_true', ← Bool.not_eq_true, Field.answersTo_iff, not_or, ne_eq]

namespace Attribution

/-! ### Places -/

/-- The places that groups are made for: one for each schema, or a single one without a schema. -/
def places (schemas : List Schema) : List (Option Nat) :=
  if schemas.isEmpty then [none] else (List.range schemas.length).map some

/-- The schema at a place. -/
def schemaAt (schemas : List Schema) (place : Option Nat) : Option Schema :=
  place.bind (schemas[·]?)

theorem nodup_places (schemas : List Schema) : (places schemas).Nodup := by
  unfold places
  split_ifs
  · exact List.nodup_singleton none
  · exact List.nodup_range.map (Option.some_injective Nat)

theorem indexForDepth_mem_places (schemas : List Schema) (depth : Nat) :
    indexForDepth schemas depth ∈ places schemas := by
  unfold indexForDepth places
  split_ifs with hempty
  · exact List.mem_singleton_self none
  · have hlength : 0 < schemas.length :=
      List.length_pos_iff.mpr fun hnil => hempty (List.isEmpty_iff.mpr hnil)
    refine List.mem_map_of_mem (List.mem_range.mpr ?_)
    omega

/-- **Groups are made place by place,** each of the paths at this place. -/
theorem groups_eq : groups schemas includeHidden paths = (places schemas).filterMap fun place =>
    group? includeHidden (schemaAt schemas place)
      (paths.filter fun p => indexForDepth schemas p.depth == place) := by
  unfold groups places
  split_ifs with hempty
  · have hall : paths.filter (fun p => indexForDepth schemas p.depth == none) = paths := by
      refine List.filter_eq_self.mpr fun p _ => ?_
      rw [indexForDepth, if_pos hempty]
      rfl
    have hnone : schemaAt schemas none = none := rfl
    rw [List.filterMap_cons, List.filterMap_nil, hall, hnone]
    cases group? includeHidden none paths <;> rfl
  · have hrange : List.range schemas.length = schemas.zipIdx.map Prod.snd := by
      rw [List.zipIdx_map_snd, List.range_eq_range']
    rw [hrange, List.map_map, List.filterMap_map]
    refine List.filterMap_congr fun entry hentry => ?_
    obtain ⟨s, i⟩ := entry
    have hs : schemas[i]? = some s := List.mk_mem_zipIdx_iff_getElem?.mp hentry
    show group? includeHidden (some s) _ = group? includeHidden (schemas[i]?) _
    rw [hs]
    rfl

/-! ### Paths that are shown -/

/-- **Whether a path is shown:** hidden fields are asked for, or the first field that answers to its field
in the schema of its depth, or else the last schema, is not hidden. -/
def Shown (schemas : List Schema) (includeHidden : Bool) (path : CellPath) : Prop :=
  includeHidden = true ∨ ∀ s f, schemas[min path.depth (schemas.length - 1)]? = some s →
    s.FirstAnswering path.field f → f.hidden = false

/-- Whether a path is shown, as it is decided. -/
def isShown (schemas : List Schema) (includeHidden : Bool) (path : CellPath) : Bool :=
  includeHidden || !isHidden (schemaForDepth schemas path.depth) path

theorem schemaForDepth_eq (schemas : List Schema) (depth : Nat) :
    schemaForDepth schemas depth = schemas[min depth (schemas.length - 1)]? := by
  rw [schemaForDepth, indexForDepth]
  split_ifs with hempty
  · rw [List.isEmpty_iff.mp hempty]
    rfl
  · rfl

theorem isHidden_eq_false_iff {schema : Option Schema} : isHidden schema path = false ↔
    ∀ s f, schema = some s → s.FirstAnswering path.field f → f.hidden = false := by
  rw [isHidden, fieldOf]
  constructor
  · rintro h s f rfl hfirst
    rw [Option.bind_some, Schema.field?_eq_some_iff.mpr hfirst] at h
    exact h
  · intro h
    cases schema with
    | none => rfl
    | some s =>
      rw [Option.bind_some]
      cases hfield : s.field? path.field with
      | none => rfl
      | some f => exact h s f rfl (Schema.field?_eq_some_iff.mp hfield)

theorem isShown_iff : isShown schemas includeHidden path = true ↔ Shown schemas includeHidden path := by
  rw [isShown, Bool.or_eq_true, Bool.not_eq_true', isHidden_eq_false_iff, schemaForDepth_eq, Shown]

instance : Decidable (Shown schemas includeHidden path) := decidable_of_iff _ isShown_iff

/-! ### The columns of groups -/

/-- The columns of a group are those of the paths that are not hidden in its schema. -/
theorem paths_group?_perm (schema : Option Schema) (paths : List CellPath) :
    (((group? includeHidden schema paths).toList.flatMap (·.columns)).map (·.path)).Perm
      (paths.filter fun p => includeHidden || !isHidden schema p) := by
  unfold group?
  dsimp only
  split_ifs with hempty
  · rw [List.isEmpty_iff.mp hempty]
    exact .nil
  · have hsorted := List.mergeSort_perm
      ((paths.filter fun p => includeHidden || !isHidden schema p).map (column schema))
      fun a b => (a.compare b).isLE
    have hpaths := hsorted.map (·.path)
    rw [List.map_map] at hpaths
    rw [Option.toList_some, List.flatMap_singleton]
    exact hpaths.trans (.of_eq (List.map_id _))

/-- **The columns of all groups** are those of the paths that are shown, each as often as it is there. -/
theorem paths_groups_perm (schemas : List Schema) (includeHidden : Bool) (paths : List CellPath) :
    (((groups schemas includeHidden paths).flatMap (·.columns)).map (·.path)).Perm
      (paths.filter (isShown schemas includeHidden)) := by
  rw [groups_eq, List.filterMap_eq_flatMap_toList, List.flatMap_assoc, List.map_flatMap]
  -- Within a group, the schema of the depth of a path is the schema of the group.
  have hgroup (place : Option Nat) :
      (paths.filter fun p => indexForDepth schemas p.depth == place).filter
        (fun p => includeHidden || !isHidden (schemaAt schemas place) p) =
      (paths.filter (isShown schemas includeHidden)).filter fun p =>
        indexForDepth schemas p.depth == place := by
    rw [List.filter_filter, List.filter_filter]
    refine List.filter_congr fun p _ => ?_
    by_cases hplace : indexForDepth schemas p.depth = place
    · rw [isShown, schemaForDepth, ← hplace, schemaAt, Bool.and_comm]
    · rw [beq_eq_false_iff_ne.mpr hplace, Bool.and_false, Bool.false_and]
  have hdistributed := flatMap_filter_perm_self (nodup_places schemas)
    (fun p (_ : p ∈ paths.filter (isShown schemas includeHidden)) =>
      indexForDepth_mem_places schemas p.depth)
  refine List.Perm.trans (List.Perm.flatMap_left _ fun place _ => ?_) hdistributed
  exact (paths_group?_perm _ _).trans (.of_eq (hgroup place))

end Attribution

end PatternQuery
