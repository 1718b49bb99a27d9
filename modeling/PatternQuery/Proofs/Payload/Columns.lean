import Mathlib.Data.List.Nodup
import PatternQuery.Payload.NestedTable

/-!
# The columns of nested tables

A block that finds its schema has a column for every field that is shown, and a cell of such a column is
given by the field alone (`NestedColumn.cell_ofField`). A block that finds none has a column for every member
that its rows bring along, each once (`TableHead.mem_observed_iff`, `TableHead.nodup_observed`), so that
every value has one cell (`NestedColumn.existsUnique_cell`). Which of the two it is depends on the match
only, for a match is always a position in the list of schemas (`TableHead.ofBlock_of_resolve`,
`TableHead.ofBlock_of_not_resolve`).
-/

namespace PatternQuery

/-! ### The members that are observed -/

namespace TableHead

/-- Adds a name that has not been seen. -/
def observeName (seen : List String) (name : String) : List String :=
  if name = Block.childrenMember || seen.contains name then seen else seen ++ [name]

theorem mem_observeName {seen : List String} {name k : String} :
    k ∈ observeName seen name ↔ k ∈ seen ∨ k ≠ "children" ∧ k = name := by
  unfold observeName
  split_ifs with hskip
  · rw [Bool.or_eq_true, decide_eq_true_eq, List.contains_iff_mem] at hskip
    constructor
    · exact .inl
    · rintro (hk | ⟨hne, rfl⟩)
      · exact hk
      · exact hskip.resolve_left hne
  · rw [Bool.or_eq_true, decide_eq_true_eq, not_or] at hskip
    rw [List.mem_append, List.mem_singleton]
    refine or_congr_right ⟨?_, And.right⟩
    rintro rfl
    exact ⟨hskip.1, rfl⟩

theorem nodup_observeName {seen : List String} (name : String) (h : seen.Nodup) :
    (observeName seen name).Nodup := by
  unfold observeName
  split_ifs with hskip
  · exact h
  · rw [Bool.or_eq_true, not_or, List.contains_iff_mem] at hskip
    rw [List.nodup_append]
    refine ⟨h, List.nodup_singleton name, fun k hk k' hk' => ?_⟩
    rw [List.mem_singleton.mp hk']
    rintro rfl
    exact hskip.2 hk

theorem observed_eq (rows : List BlockRow) :
    observed rows = (rows.flatMap fun r => r.members.map (·.1)).foldl observeName [] := by
  rw [observed, List.foldl_flatMap]
  rfl

/-- **The members of all rows are observed,** but for those that hold the child blocks. -/
theorem mem_observed_iff {rows : List BlockRow} {k : String} :
    k ∈ observed rows ↔ k ≠ "children" ∧ ∃ r ∈ rows, k ∈ r.members.map (·.1) := by
  have hrun (names seen : List String) :
      k ∈ names.foldl observeName seen ↔ k ∈ seen ∨ k ≠ "children" ∧ k ∈ names := by
    induction names generalizing seen with
    | nil => simp
    | cons name names ih =>
      rw [List.foldl_cons, ih, mem_observeName, List.mem_cons, or_assoc, ← and_or_left]
  rw [observed_eq, hrun, List.mem_flatMap]
  simp only [List.not_mem_nil, false_or]

theorem nodup_observed (rows : List BlockRow) : (observed rows).Nodup := by
  have hrun (names seen : List String) (hseen : seen.Nodup) :
      (names.foldl observeName seen).Nodup := by
    induction names generalizing seen with
    | nil => exact hseen
    | cons name names ih => exact ih _ (nodup_observeName name hseen)
  rw [observed_eq]
  exact hrun _ [] List.nodup_nil

end TableHead

/-! ### Cells -/

/-- **The cell of a field:** the member with its name, or else the one with its id. -/
def Field.cell (f : Field) (members : List (String × Json)) : Option Json :=
  if f.name = "" then members.lookup f.id else (members.lookup f.name).or (members.lookup f.id)

/-- What stands over the cells of a field: its name, or else its id. -/
def Field.heading (f : Field) : String := if f.name = "" then f.id else f.name

/-- The fields of a schema that are shown. -/
def Schema.shownFields (s : Schema) (includeHidden : Bool) : List Field :=
  s.fields.filter fun f => includeHidden || !f.hidden

namespace NestedColumn

theorem cell_ofField (f : Field) (members : List (String × Json)) :
    (ofField f).cell members = f.cell members := by
  unfold ofField Field.cell
  by_cases hname : f.name = ""
  · rw [if_pos hname, if_pos (String.isEmpty_iff.mpr hname), cell]
    cases members.lookup f.id <;> rfl
  · rw [if_neg hname, if_neg (mt String.isEmpty_iff.mp hname), cell]
    dsimp only
    by_cases hid : f.name = f.id
    · -- A fallback to the same member is none.
      rw [if_pos hid, ← hid]
      cases members.lookup f.name <;> rfl
    · rw [if_neg hid]
      cases members.lookup f.name <;> rfl

theorem field_ofField (f : Field) : (ofField f).field = f.heading := by
  unfold ofField Field.heading
  by_cases hname : f.name = ""
  · rw [if_pos hname, if_pos (String.isEmpty_iff.mpr hname)]
  · rw [if_neg hname, if_neg (mt String.isEmpty_iff.mp hname)]

theorem label_ofField (f : Field) : (ofField f).label = f.displayLabel := by
  unfold ofField
  split <;> rfl

theorem cell_ofMember (name : String) (members : List (String × Json)) :
    (ofMember name).cell members = members.lookup name := by
  rw [cell, ofMember]
  cases members.lookup name <;> rfl

/-- Where every row is laid out along columns with different fields, a value has one cell. -/
theorem existsUnique_cell {columns : List NestedColumn} (hnodup : (columns.map (·.field)).Nodup)
    {members : List (String × Json)} {k : String} {value : Json} (hk : k ∈ columns.map (·.field))
    (hvalue : members.lookup k = some value) :
    ∃! j : Nat, ∃ c : NestedColumn, columns[j]? = some c ∧ c.field = k ∧
      (columns.map fun c : NestedColumn => members.lookup c.field)[j]? = some (some value) := by
  obtain ⟨c, hc, rfl⟩ := List.mem_map.mp hk
  obtain ⟨j, hj, rfl⟩ := List.mem_iff_getElem.mp hc
  refine ⟨j, ⟨columns[j], List.getElem?_eq_getElem hj, rfl, ?_⟩, ?_⟩
  · rw [List.getElem?_map, List.getElem?_eq_getElem hj, Option.map_some, hvalue]
  · rintro j' ⟨c', hc', hfield, -⟩
    have hj' : j' < (columns.map (·.field)).length := by
      rw [List.length_map]
      exact (List.getElem?_eq_some_iff.mp hc').1
    refine (List.getElem?_inj hj' hnodup).mp ?_
    rw [List.getElem?_map, List.getElem?_map, hc', List.getElem?_eq_getElem hj, Option.map_some,
      Option.map_some, hfield]

end NestedColumn

/-! ### Finding a schema -/

namespace Matcher

variable {rules : Matcher} {requested : String} {schemas : List Schema} {found : SchemaMatch}

theorem resolve_index_lt (h : rules.resolve requested schemas = some found) :
    found.index < schemas.length := by
  obtain ⟨rule, -, hrule⟩ := List.exists_of_findSome?_eq_some h
  obtain ⟨index, hindex, rfl⟩ := Option.map_eq_some_iff.mp hrule
  obtain ⟨hlt, -⟩ := List.findIdx?_eq_some_iff_getElem.mp hindex
  exact hlt

end Matcher

namespace TableHead

variable {options : ShapeOptions} {schemas : List Schema} {b : Block} {found : SchemaMatch}

theorem requested_ofBlock (options : ShapeOptions) (schemas : List Schema) (b : Block) :
    (ofBlock options schemas b).requested = b.requested := by
  unfold ofBlock
  split <;> rfl

theorem entries_ofBlock (options : ShapeOptions) (schemas : List Schema) (b : Block) :
    (ofBlock options schemas b).entries = b.entries := by
  unfold ofBlock
  split <;> rfl

theorem ofBlock_of_resolve (h : options.matcher.resolve b.requested schemas = some found) :
    ∃ s, schemas[found.index]? = some s ∧ ofBlock options schemas b =
      ⟨b.requested, b.entries, .resolved found.index s.id found.rule, s.displayLabel,
        (s.shownFields options.includeHidden).map NestedColumn.ofField⟩ := by
  have hlt := Matcher.resolve_index_lt h
  have hs : schemas[found.index]? = some schemas[found.index] := List.getElem?_eq_getElem hlt
  have hfind : find? options schemas b.requested = some (found, schemas[found.index]) := by
    rw [find?, h]
    simp only [Option.bind_eq_bind, Option.bind_some, hs]
    rfl
  refine ⟨_, hs, ?_⟩
  rw [ofBlock, hfind]
  rfl

theorem ofBlock_of_not_resolve (h : options.matcher.resolve b.requested schemas = none) :
    ofBlock options schemas b = ⟨b.requested, b.entries, .notFound b.requested, schemaNotFound,
      (observed b.rows).map NestedColumn.ofMember⟩ := by
  have hfind : find? options schemas b.requested = none := by
    rw [find?, h]
    rfl
  rw [ofBlock, hfind]

end TableHead

end PatternQuery
