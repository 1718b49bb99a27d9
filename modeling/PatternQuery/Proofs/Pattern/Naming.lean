import Mathlib.Data.List.Nodup
import Mathlib.Data.List.Perm.Subperm
import PatternQuery.Pattern.Naming

/-!
# Keys that tell occurrences apart

The occurrences that `Naming.ofSchemas` gives to the nodes of a walk keep their schemas
(`map_schema_ofSchemas`) and have different keys (`nodup_keys_ofSchemas`), whatever the schema ids
look like.

A tag is free when it is given because `freeNumber` tries one number more than there are taken keys
(`tag_freeNumber_not_mem`). The invariant of the walk is that the ids of the schemas that occur once
are taken from the start: a tag never is one of them, and such an id is a key only once.

The id of a repeated schema is taken when the walk first meets the schema, because the bare id is
the first tag that is tried. So a numbered tag is no id that has been met before
(`key_fresh_ofSchemas`); it may well be one that is met later.
-/

namespace PatternQuery

theorem toString_injective : Function.Injective (toString : Nat → String) := by
  intro m n h
  have hdigits : Nat.toDigits 10 m = Nat.toDigits 10 n := by
    simpa only [Nat.toString_eq_repr, Nat.toList_repr] using congrArg String.toList h
  rw [← Nat.ofDigitChars_ten_toDigits (n := m), hdigits, Nat.ofDigitChars_ten_toDigits]

namespace Naming

/-! ### Tags -/

theorem tag_injective (schema : String) : Function.Injective (tag schema) := by
  -- A numbered tag is longer than the bare id.
  have hlong (k : Nat) : schema ≠ schema ++ "#" ++ toString k := fun h => by
    have := congrArg String.length h
    simp only [String.length_append] at this
    have : "#".length = 1 := rfl
    omega
  intro m n h
  unfold tag at h
  split_ifs at h with hm hn hn
  · rw [hm, hn]
  · exact absurd h (hlong n)
  · exact absurd h.symm (hlong m)
  · exact toString_injective ((String.append_right_inj _).mp h)

/-- If the number that comes out is taken, then so are all that were tried. -/
theorem tag_mem_of_tag_freeNumber_mem {taken : List String} {schema : String} {fuel number : Nat}
    (h : tag schema (freeNumber taken schema fuel number) ∈ taken) :
    ∀ k, number ≤ k → k < number + fuel → tag schema k ∈ taken := by
  induction fuel generalizing number with
  | zero => intro k hk hlt; omega
  | succ fuel ih =>
    unfold freeNumber at h
    split_ifs at h with hmem
    · intro k hk hlt
      rcases Nat.eq_or_lt_of_le hk with rfl | hk
      · exact List.contains_iff_mem.mp hmem
      · exact ih h k hk (by omega)
    · exact absurd (List.contains_iff_mem.mpr h) hmem

/-- **A free number is found** when there are more tries than taken keys. -/
theorem tag_freeNumber_not_mem {taken : List String} {schema : String} {fuel number : Nat}
    (hfuel : taken.length < fuel) :
    tag schema (freeNumber taken schema fuel number) ∉ taken := by
  intro h
  have hall := tag_mem_of_tag_freeNumber_mem h
  -- As many different tags as there were tries would all be among the taken keys.
  have hnodup : ((List.range' number fuel).map (tag schema)).Nodup :=
    List.Nodup.map (tag_injective schema) List.nodup_range'
  have hsub : (List.range' number fuel).map (tag schema) ⊆ taken := by
    intro t ht
    obtain ⟨k, hk, rfl⟩ := List.mem_map.mp ht
    rw [List.mem_range'_1] at hk
    exact hall k hk.1 hk.2
  have := hnodup.length_le_of_subset hsub
  rw [List.length_map, List.length_range'] at this
  omega

/-! ### The walk -/

theorem map_schema_nameFrom (repeated : String → Bool) (taken : List String)
    (next : List (String × Nat)) (schemas : List String) :
    (nameFrom repeated taken next schemas).map (·.schema) = schemas := by
  induction schemas generalizing taken next with
  | nil => rfl
  | cons schema rest ih =>
    unfold nameFrom
    split_ifs
    · rw [List.map_cons, ih]
    · rw [List.map_cons, ih]

/-- **Different keys, step by step.** Of the keys that are given from here on, only ids of schemas
that are not repeated have been taken before. -/
theorem nodup_keys_nameFrom {repeated : String → Bool} (taken : List String)
    (next : List (String × Nat)) {schemas : List String}
    (htaken : ∀ schema ∈ schemas, repeated schema = false → schema ∈ taken)
    (honce : (schemas.filter fun schema => !repeated schema).Nodup) :
    ((nameFrom repeated taken next schemas).map (·.key)).Nodup ∧
      ∀ key ∈ (nameFrom repeated taken next schemas).map (·.key), key ∈ taken →
        key ∈ schemas ∧ repeated key = false := by
  induction schemas generalizing taken next with
  | nil => simp [nameFrom]
  | cons schema rest ih =>
    unfold nameFrom
    split_ifs with hr
    · set t := tag schema (freeNumber taken schema (taken.length + 1)
        ((next.lookup schema).getD 1)) with ht
      have hfresh : t ∉ taken := tag_freeNumber_not_mem (Nat.lt_succ_self _)
      obtain ⟨hnodup, hkeys⟩ := ih (t :: taken) _
        (fun s hs hs' => List.mem_cons_of_mem _ (htaken s (List.mem_cons_of_mem _ hs) hs'))
        (honce.sublist ((List.sublist_cons_self _ _).filter _))
      rw [List.map_cons]
      constructor
      · refine List.nodup_cons.mpr ⟨fun hmem => ?_, hnodup⟩
        obtain ⟨hrest, honce'⟩ := hkeys t hmem List.mem_cons_self
        exact hfresh (htaken t (List.mem_cons_of_mem _ hrest) honce')
      · intro key hkey hmem
        rcases List.mem_cons.mp hkey with rfl | hkey
        · exact absurd hmem hfresh
        · obtain ⟨hrest, honce'⟩ := hkeys key hkey (List.mem_cons_of_mem _ hmem)
          exact ⟨List.mem_cons_of_mem _ hrest, honce'⟩
    · have hr : repeated schema = false := by simpa using hr
      rw [List.filter_cons_of_pos (by simp [hr]), List.nodup_cons] at honce
      obtain ⟨hnodup, hkeys⟩ := ih taken next
        (fun s hs => htaken s (List.mem_cons_of_mem _ hs)) honce.2
      rw [List.map_cons]
      constructor
      · refine List.nodup_cons.mpr ⟨fun hmem => honce.1 ?_, hnodup⟩
        obtain ⟨hrest, -⟩ := hkeys schema hmem (htaken schema List.mem_cons_self hr)
        exact List.mem_filter.mpr ⟨hrest, by simp [hr]⟩
      · intro key hkey hmem
        rcases List.mem_cons.mp hkey with rfl | hkey
        · exact ⟨List.mem_cons_self, hr⟩
        · exact ⟨List.mem_cons_of_mem _ (hkeys key hkey hmem).1, (hkeys key hkey hmem).2⟩

/-- The occurrences stand for the schemas that were met. -/
theorem map_schema_ofSchemas (schemas : List String) :
    (ofSchemas schemas).map (·.schema) = schemas :=
  map_schema_nameFrom _ _ _ _

theorem length_ofSchemas (schemas : List String) :
    (ofSchemas schemas).length = schemas.length := by
  simpa only [List.length_map] using congrArg List.length (map_schema_ofSchemas schemas)

/-- **No two occurrences of a walk have the same key.** -/
theorem nodup_keys_ofSchemas (schemas : List String) :
    ((ofSchemas schemas).map (·.key)).Nodup := by
  refine (nodup_keys_nameFrom _ [] (fun schema hs hr => ?_) ?_).1
  · exact List.mem_filter.mpr ⟨hs, by simpa using hr⟩
  · rw [List.nodup_iff_count_le_one]
    intro schema
    by_cases hmem : schema ∈ schemas.filter fun s => !(schemas.count s != 1)
    · have hone : schemas.count schema = 1 := by simpa using (List.mem_filter.mp hmem).2
      exact hone ▸ List.filter_sublist.count_le _
    · rw [List.count_eq_zero.mpr hmem]
      exact Nat.zero_le _

/-! ### Numbered tags and ids -/

/-- After the first occurrence of a schema its id is taken. -/
theorem mem_tag_freeNumber_one_cons (taken : List String) (schema : String) (fuel : Nat) :
    schema ∈ tag schema (freeNumber taken schema (fuel + 1) 1) :: taken := by
  have hone : tag schema 1 = schema := if_pos rfl
  unfold freeNumber
  rw [hone]
  split_ifs with hmem
  · exact List.mem_cons_of_mem _ (List.contains_iff_mem.mp hmem)
  · rw [hone]
    exact List.mem_cons_self

/-- **Numbered tags are new, step by step.** A key that is not the id of its schema has not been taken
before, and it is no id that was met since: `hnext` says that the ids of the schemas with a number
are taken, and every step adds the id that it meets. -/
theorem key_fresh_nameFrom {repeated : String → Bool} (taken : List String)
    (next : List (String × Nat)) {schemas : List String}
    (htaken : ∀ schema ∈ schemas, repeated schema = false → schema ∈ taken)
    (hnext : ∀ schema number, next.lookup schema = some number → schema ∈ taken) {i : Nat}
    {o : Occurrence} (ho : (nameFrom repeated taken next schemas)[i]? = some o)
    (hne : o.key ≠ o.schema) :
    repeated o.schema = true ∧ o.key ∉ taken ∧ o.key ∉ schemas.take i := by
  induction schemas generalizing taken next i with
  | nil => simp [nameFrom] at ho
  | cons schema rest ih =>
    have hrest (s : String) (hs : s ∈ rest) : repeated s = false → s ∈ taken :=
      htaken s (List.mem_cons_of_mem _ hs)
    unfold nameFrom at ho
    split_ifs at ho with hr
    · set number := freeNumber taken schema (taken.length + 1) ((next.lookup schema).getD 1)
        with hnumber
      have hmet : schema ∈ tag schema number :: taken := by
        cases hlookup : next.lookup schema with
        | none =>
          rw [hnumber, hlookup]
          exact mem_tag_freeNumber_one_cons taken schema taken.length
        | some k => exact List.mem_cons_of_mem _ (hnext schema k hlookup)
      cases i with
      | zero =>
        obtain rfl := Option.some.inj ho
        exact ⟨hr, tag_freeNumber_not_mem (Nat.lt_succ_self _), by simp⟩
      | succ i =>
        have hnext' : ∀ s k, ((schema, number + 1) :: next).lookup s = some k →
            s ∈ tag schema number :: taken := by
          intro s k hlookup
          by_cases hs : s = schema
          · exact hs ▸ hmet
          · rw [List.lookup_cons, beq_eq_false_iff_ne.mpr hs] at hlookup
            exact List.mem_cons_of_mem _ (hnext s k hlookup)
        obtain ⟨hrep, hfree, hmiss⟩ := ih (tag schema number :: taken) _
          (fun s hs hs' => List.mem_cons_of_mem _ (hrest s hs hs')) hnext' ho
        refine ⟨hrep, fun hmem => hfree (List.mem_cons_of_mem _ hmem), ?_⟩
        rw [List.take_succ_cons, List.mem_cons, not_or]
        exact ⟨fun heq => hfree (heq ▸ hmet), hmiss⟩
    · have hr : repeated schema = false := by simpa using hr
      cases i with
      | zero =>
        obtain rfl := Option.some.inj ho
        exact absurd rfl hne
      | succ i =>
        obtain ⟨hrep, hfree, hmiss⟩ := ih taken next hrest hnext ho
        refine ⟨hrep, hfree, ?_⟩
        rw [List.take_succ_cons, List.mem_cons, not_or]
        exact ⟨fun heq => hfree (heq ▸ htaken schema List.mem_cons_self hr), hmiss⟩

/-- **A numbered tag is the id of no schema that occurs once, and of none met before.** -/
theorem key_fresh_ofSchemas {schemas : List String} {i : Nat} {o : Occurrence}
    (ho : (ofSchemas schemas)[i]? = some o) (hne : o.key ≠ o.schema) :
    schemas.count o.schema ≠ 1 ∧ schemas.count o.key ≠ 1 ∧ o.key ∉ schemas.take i := by
  obtain ⟨hrep, hfree, hmiss⟩ := key_fresh_nameFrom _ []
    (fun s hs hr => List.mem_filter.mpr ⟨hs, by simpa using hr⟩) (by simp) ho hne
  refine ⟨by simpa using hrep, fun hone => hfree ?_, hmiss⟩
  have hmem : o.key ∈ schemas := List.count_pos_iff.mp (by omega)
  exact List.mem_filter.mpr ⟨hmem, by simp [hone]⟩

end Naming

end PatternQuery
