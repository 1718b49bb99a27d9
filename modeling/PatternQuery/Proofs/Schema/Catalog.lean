import Mathlib.Data.List.Induction
import PatternQuery.Graph.Drawing
import PatternQuery.Proofs.Keyed
import PatternQuery.Schema.Catalog

/-!
# A catalog agrees with its index

An insertion writes at one position, the one that the index stores under the id of the schema or else the
end, and stores this position under the id (`Catalog.getElem?_schemas_insert`,
`Catalog.getElem?_index_insert`). So the index always holds the position of every schema and no other
(`Catalog.Indexed`), and what a run of insertions leaves behind can be said without it: under every id the
last schema that came in with it, in the order in which the ids first came in (`Catalog.holds_ofList`).

A pattern is drawn alike with a catalog and with the list it was made of, where the list has every id once.
-/

namespace PatternQuery

variable {inserted : List Schema} {s t : Schema} {id : String}

/-! ### The last schema with an id -/

/-- **The last schema of a list that has an id.** -/
def Schema.LastWith (inserted : List Schema) (id : String) (s : Schema) : Prop :=
  s.id = id ∧ ∃ earlier later, inserted = earlier ++ s :: later ∧ ∀ t ∈ later, t.id ≠ id

namespace Schema

theorem LastWith.mem (h : LastWith inserted id s) : s ∈ inserted := by
  obtain ⟨-, earlier, later, rfl, -⟩ := h
  exact List.mem_append_right _ List.mem_cons_self

theorem not_lastWith_nil : ¬ LastWith [] id s := fun h => List.not_mem_nil h.mem

/-- One schema more is the last one with its id, and takes the place of no other. -/
theorem lastWith_concat {new : Schema} :
    LastWith (inserted ++ [new]) id s ↔ if new.id = id then s = new else LastWith inserted id s := by
  constructor
  · rintro ⟨hid, earlier, later, heq, hlater⟩
    obtain rfl | ⟨later, last, rfl⟩ := List.eq_nil_or_concat' later
    · obtain ⟨-, hnew⟩ := List.append_inj' heq rfl
      rw [List.singleton_inj.mp hnew, if_pos hid]
    · rw [← List.cons_append, ← List.append_assoc] at heq
      obtain ⟨rfl, hnew⟩ := List.append_inj' heq rfl
      obtain rfl := List.singleton_inj.mp hnew
      rw [if_neg (hlater new (List.mem_append_right _ (List.mem_singleton_self new)))]
      exact ⟨hid, earlier, later, rfl, fun t ht => hlater t (List.mem_append_left _ ht)⟩
  · split_ifs with hnew
    · rintro rfl
      exact ⟨hnew, inserted, [], rfl, by simp⟩
    · rintro ⟨hid, earlier, later, rfl, hlater⟩
      refine ⟨hid, earlier, later ++ [new], by simp, fun t ht => ?_⟩
      obtain ht | ht := List.mem_append.mp ht
      · exact hlater t ht
      · rwa [List.mem_singleton.mp ht]

/-- Every id that came in has a last schema. -/
theorem exists_lastWith (hs : s ∈ inserted) : ∃ t, LastWith inserted s.id t := by
  induction inserted using List.reverseRecOn with
  | nil => exact absurd hs List.not_mem_nil
  | append_singleton inserted new ih =>
    simp only [lastWith_concat]
    split_ifs with hnew
    · exact ⟨new, rfl⟩
    · refine ih ((List.mem_append.mp hs).resolve_right fun hlast => hnew ?_)
      rw [List.mem_singleton.mp hlast]

/-- Where ids are different, every schema is the last one with its id. -/
theorem lastWith_iff_of_nodup (h : (inserted.map (·.id)).Nodup) :
    LastWith inserted id s ↔ s ∈ inserted ∧ s.id = id := by
  constructor
  · intro hlast
    exact ⟨hlast.mem, hlast.1⟩
  · rintro ⟨hs, rfl⟩
    obtain ⟨t, ht⟩ := exists_lastWith hs
    obtain rfl := List.inj_on_of_nodup_map h hs ht.mem ht.1.symm
    exact ht

/-- Where ids are different, a schema is looked up by being there. -/
theorem find?_eq_some_iff {schemas : List Schema} (h : (schemas.map (·.id)).Nodup) :
    find? schemas id = some s ↔ s ∈ schemas ∧ s.id = id := by
  constructor
  · intro hs
    exact ⟨List.mem_of_find?_eq_some hs, by simpa using List.find?_some hs⟩
  · rintro ⟨hs, rfl⟩
    exact find?_key_of_nodup h hs

end Schema

namespace Catalog

variable {c : Catalog}

/-! ### The index -/

/-- **The index stores the position of every schema under its id,** and no other position. -/
def Indexed (c : Catalog) : Prop :=
  ∀ (id : String) (i : Nat), c.index[id]? = some i ↔ ∃ s : Schema, c.schemas[i]? = some s ∧ s.id = id

theorem indexed_empty : empty.Indexed := by
  intro id i
  simp [empty]

/-- The position at which a schema is put. -/
def place (c : Catalog) (s : Schema) : Nat := (c.index[s.id]?).getD c.schemas.size

namespace Indexed

theorem index_lt {i : Nat} (h : c.Indexed) (hi : c.index[id]? = some i) : i < c.schemas.size := by
  obtain ⟨s, hs, -⟩ := (h id i).mp hi
  exact (Array.getElem?_eq_some_iff.mp hs).1

theorem find?_eq_some_iff (h : c.Indexed) : c.find? id = some s ↔ s ∈ c.toList ∧ s.id = id := by
  rw [find?, Option.bind_eq_bind, Option.bind_eq_some_iff, toList, Array.mem_toList_iff,
    Array.mem_iff_getElem?]
  constructor
  · rintro ⟨i, hi, hs⟩
    obtain ⟨t, ht, rfl⟩ := (h id i).mp hi
    obtain rfl : t = s := Option.some.inj (ht.symm.trans hs)
    exact ⟨⟨i, hs⟩, rfl⟩
  · rintro ⟨⟨i, hs⟩, rfl⟩
    exact ⟨i, (h s.id i).mpr ⟨s, hs, rfl⟩, hs⟩

/-- **The ids of a catalog are different:** each has one position. -/
theorem nodup_ids (h : c.Indexed) : (c.toList.map (·.id)).Nodup := by
  refine List.pairwise_map.mpr (List.pairwise_iff_getElem.mpr fun i j hi hj hlt heq => ?_)
  have hat (k : Nat) (hk : k < c.toList.length) : c.index[(c.toList[k]).id]? = some k :=
    (h _ k).mpr ⟨c.toList[k], by rw [← Array.getElem?_toList]; exact List.getElem?_eq_getElem hk, rfl⟩
  have hi' := hat i hi
  rw [heq, hat j hj] at hi'
  exact absurd (Option.some.inj hi') (Nat.ne_of_gt hlt)

/-- Only the id of a schema can be stored at the position where it is put. -/
theorem id_eq_of_place (h : c.Indexed) (hid : c.index[id]? = some (c.place s)) : id = s.id := by
  cases hs : c.index[s.id]? with
  | none =>
    rw [place, hs, Option.getD_none] at hid
    exact absurd (h.index_lt hid) (Nat.lt_irrefl _)
  | some i =>
    rw [place, hs, Option.getD_some] at hid
    obtain ⟨t, ht, rfl⟩ := (h id i).mp hid
    obtain ⟨t', ht', hid'⟩ := (h s.id i).mp hs
    rwa [← Option.some.inj (ht.symm.trans ht')] at hid'

end Indexed

/-! ### One insertion -/

theorem getElem?_index_insert (c : Catalog) (s : Schema) (id : String) :
    (c.insert s).index[id]? = if s.id = id then some (c.place s) else c.index[id]? := by
  unfold insert place
  cases hs : c.index[s.id]? with
  | none =>
    rw [Std.HashMap.getElem?_insert]
    simp only [beq_iff_eq, Option.getD_none]
  | some i =>
    dsimp only [Option.getD_some]
    split_ifs with hid
    · rw [← hid, hs]
    · rfl

theorem getElem?_schemas_insert (h : c.Indexed) (s : Schema) (i : Nat) :
    (c.insert s).schemas[i]? = if i = c.place s then some s else c.schemas[i]? := by
  unfold insert place
  cases hs : c.index[s.id]? with
  | none =>
    rw [Option.getD_none]
    exact Array.getElem?_push
  | some j =>
    rw [Option.getD_some]
    refine Array.getElem?_setIfInBounds.trans ?_
    simp only [h.index_lt hs, if_true, eq_comm]

theorem Indexed.insert (h : c.Indexed) (s : Schema) : (c.insert s).Indexed := by
  intro id i
  rw [getElem?_index_insert, getElem?_schemas_insert h]
  by_cases hid : s.id = id <;> by_cases hi : i = c.place s
  · rw [if_pos hid, if_pos hi, hi]
    exact ⟨fun _ => ⟨s, rfl, hid⟩, fun _ => rfl⟩
  · -- The id of `s` is stored at no other position.
    rw [if_pos hid, if_neg hi, ← hid, ← h s.id i]
    constructor
    · intro heq
      exact absurd (Option.some.inj heq).symm hi
    · intro hs
      rw [place, hs] at hi
      exact absurd rfl hi
  · rw [if_neg hid, if_pos hi, hi]
    constructor
    · intro hplace
      exact absurd (h.id_eq_of_place hplace).symm hid
    · rintro ⟨t, ht, rfl⟩
      rw [Option.some.inj ht] at hid
      exact absurd rfl hid
  · rw [if_neg hid, if_neg hi]
    exact h id i

theorem find?_insert (h : c.Indexed) (s : Schema) (id : String) :
    (c.insert s).find? id = if s.id = id then some s else c.find? id := by
  rw [find?, find?, Option.bind_eq_bind, getElem?_index_insert]
  split_ifs with hid
  · rw [Option.bind_some, getElem?_schemas_insert h, if_pos rfl]
  · refine Option.bind_congr fun i hi => ?_
    rw [getElem?_schemas_insert h, if_neg]
    rintro rfl
    exact hid (h.id_eq_of_place hi).symm

/-- An id that is known keeps its place, and a new one comes last. -/
theorem ids_insert (h : c.Indexed) (s : Schema) : (c.insert s).toList.map (·.id) =
    if (c.find? s.id).isSome then c.toList.map (·.id) else c.toList.map (·.id) ++ [s.id] := by
  cases hs : c.index[s.id]? with
  | none =>
    have hfind : c.find? s.id = none := by rw [find?, hs]; rfl
    rw [hfind, insert, hs, toList, Array.toList_push, List.map_append]
    rfl
  | some i =>
    obtain ⟨t, ht, hid⟩ := (h s.id i).mp hs
    have hfind : c.find? s.id = some t := by rw [find?, hs]; exact ht
    rw [hfind, Option.isSome_some, if_pos rfl]
    refine List.ext_getElem? fun j => ?_
    rw [List.getElem?_map, List.getElem?_map, toList, toList, Array.getElem?_toList,
      Array.getElem?_toList, getElem?_schemas_insert h]
    split_ifs with hj
    · rw [hj, place, hs, Option.getD_some, ht, Option.map_some, Option.map_some, hid]
    · rfl

/-! ### A run of insertions -/

theorem ofList_concat (inserted : List Schema) (s : Schema) :
    ofList (inserted ++ [s]) = (ofList inserted).insert s :=
  List.foldl_concat ..

theorem indexed_ofList (inserted : List Schema) : (ofList inserted).Indexed := by
  induction inserted using List.reverseRecOn with
  | nil => exact indexed_empty
  | append_singleton inserted s ih =>
    rw [ofList_concat]
    exact ih.insert s

/-- **What is found under an id** is the last schema that came in with it. -/
theorem find?_ofList_eq_some_iff : (ofList inserted).find? id = some s ↔ Schema.LastWith inserted id s := by
  induction inserted using List.reverseRecOn with
  | nil =>
    rw [(indexed_ofList []).find?_eq_some_iff]
    exact iff_of_false (fun h => List.not_mem_nil h.1) Schema.not_lastWith_nil
  | append_singleton inserted new ih =>
    rw [ofList_concat, find?_insert (indexed_ofList inserted), Schema.lastWith_concat, ← ih]
    split_ifs
    · rw [Option.some_inj, eq_comm]
    · rfl

theorem mem_toList_ofList_iff : s ∈ (ofList inserted).toList ↔ Schema.LastWith inserted s.id s := by
  rw [← find?_ofList_eq_some_iff, (indexed_ofList inserted).find?_eq_some_iff, and_iff_left rfl]

/-- **The ids stand in the order in which they first came in.** -/
theorem pairwise_ids_ofList (inserted : List Schema) : ((ofList inserted).toList.map (·.id)).Pairwise
    fun a b => (inserted.map (·.id)).idxOf a < (inserted.map (·.id)).idxOf b := by
  induction inserted using List.reverseRecOn with
  | nil => exact .nil
  | append_singleton inserted new ih =>
    have hmem (a : String) (ha : a ∈ (ofList inserted).toList.map (·.id)) : a ∈ inserted.map (·.id) := by
      obtain ⟨t, ht, rfl⟩ := List.mem_map.mp ha
      exact List.mem_map_of_mem (mem_toList_ofList_iff.mp ht).mem
    -- Where the ids first came in does not change by one schema more.
    have hold := ih.imp_of_mem (S := fun a b => ((inserted ++ [new]).map (·.id)).idxOf a <
      ((inserted ++ [new]).map (·.id)).idxOf b) fun {a b} ha hb hlt => by
        rwa [List.map_append, List.idxOf_append_of_mem (hmem a ha), List.idxOf_append_of_mem (hmem b hb)]
    rw [ofList_concat, ids_insert (indexed_ofList inserted)]
    split_ifs with hknown
    · exact hold
    · refine List.pairwise_append.mpr ⟨hold, List.pairwise_singleton _ _, fun a ha b hb => ?_⟩
      obtain rfl := List.mem_singleton.mp hb
      have hnew : new.id ∉ inserted.map (·.id) := by
        intro hmem
        obtain ⟨t, ht, hid⟩ := List.mem_map.mp hmem
        obtain ⟨u, hu⟩ := Schema.exists_lastWith ht
        rw [hid, ← find?_ofList_eq_some_iff] at hu
        exact hknown (Option.isSome_iff_exists.mpr ⟨u, hu⟩)
      rw [List.map_append, List.idxOf_append_of_mem (hmem a ha), List.idxOf_append_of_notMem hnew]
      exact (List.idxOf_lt_length_of_mem (hmem a ha)).trans_le (Nat.le_add_right _ _)

/-- **What a catalog says into which schemas were inserted one after another.** -/
structure Holds (c : Catalog) (inserted : List Schema) : Prop where
  nodup_ids : (c.toList.map (·.id)).Nodup
  /-- The ids stand in the order in which they first came in. -/
  first_come : (c.toList.map (·.id)).Pairwise fun a b =>
    (inserted.map (·.id)).idxOf a < (inserted.map (·.id)).idxOf b
  mem_iff : ∀ s, s ∈ c.toList ↔ Schema.LastWith inserted s.id s
  find?_eq_some_iff : ∀ id s, c.find? id = some s ↔ Schema.LastWith inserted id s
  find?_eq_none_iff : ∀ id, c.find? id = none ↔ ∀ s ∈ inserted, s.id ≠ id
  /-- Looking an id up in the list of the catalog finds the same. -/
  find?_eq : ∀ id, c.find? id = Schema.find? c.toList id
  /-- The positions that are stored are positions of the list. -/
  index_lt : ∀ (id : String) (i : Nat), c.index[id]? = some i → i < c.schemas.size
  /-- Where every id came in once, a pattern is drawn as with the list itself. -/
  draw_eq : (inserted.map (·.id)).Nodup → ∀ (p : Pattern) (layout : Layout),
    p.draw c.find? layout = p.draw (Schema.find? inserted) layout

/-- **A catalog agrees with the schemas that were inserted into it,** and its index with its list. -/
theorem holds_ofList (inserted : List Schema) : (ofList inserted).Holds inserted where
  nodup_ids := (indexed_ofList inserted).nodup_ids
  first_come := pairwise_ids_ofList inserted
  mem_iff _ := mem_toList_ofList_iff
  find?_eq_some_iff _ _ := find?_ofList_eq_some_iff
  find?_eq_none_iff id := by
    rw [Option.eq_none_iff_forall_ne_some]
    simp only [ne_eq, find?_ofList_eq_some_iff]
    constructor
    · rintro hnone s hs rfl
      obtain ⟨t, ht⟩ := Schema.exists_lastWith hs
      exact hnone t ht
    · intro hne s hs
      exact hne s hs.mem hs.1
  find?_eq id := Option.ext fun s => by
    rw [(indexed_ofList inserted).find?_eq_some_iff,
      Schema.find?_eq_some_iff (indexed_ofList inserted).nodup_ids]
  index_lt _ _ := (indexed_ofList inserted).index_lt
  draw_eq hnodup p layout := by
    have hfind : (ofList inserted).find? = Schema.find? inserted := by
      funext id
      refine Option.ext fun s => ?_
      rw [find?_ofList_eq_some_iff, Schema.find?_eq_some_iff hnodup,
        Schema.lastWith_iff_of_nodup hnodup]
    rw [hfind]

end Catalog

end PatternQuery
