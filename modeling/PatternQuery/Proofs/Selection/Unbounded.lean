import PatternQuery.Proofs.Selection.Reachable

/-!
# Sets of columns of any size

Places are 32-bit numbers, so a set that grows to `2 ^ 32` columns runs out of them: the next place is
zero, and the set is no longer ordered. Nothing keeps edits from going there. What they do keep, at any
size, is that no column is there twice, and that a set which is small enough for its places is ordered
(`Sound.after`). The only way back from a set that is too large leads over dropping columns, and then
all places are given anew (`sound_densify`).

A set that passes its check is small enough (`Sound.ordered_of_check`), so in a set that was edited and
checked the columns stand in the order of display, which the check itself does not test.
-/

namespace PatternQuery.ColumnSet

variable {s : ColumnSet} {cs : List Column}

/-! ### Closing gaps in any set -/

theorem map_id_densifySelect_perm (cs : List Column) :
    ((densifySelect cs).map (·.id)).Perm (cs.map (·.id)) := by
  have hids : (densifySelect cs).map (·.id) = (inSelectOrder cs).map (·.id) :=
    List.ext_getElem (by simp [densifySelect]) fun i _ _ => by simp [densifySelect]
  rw [hids]
  exact (List.mergeSort_perm _ _).map _

theorem map_snd_groupPlaces (cs : List Column) : (groupPlaces cs).map (·.2) =
    (cs.zipIdx.filter fun entry => entry.1.groupOrder.isSome).map (·.2) := by
  rw [groupPlaces]
  generalize cs.zipIdx = entries
  induction entries with
  | nil => rfl
  | cons entry entries ih =>
    obtain ⟨c, i⟩ := entry
    cases h : c.groupOrder <;> simp [h, ih]

theorem groupIndices_perm (cs : List Column) : (groupIndices cs).Perm
    ((cs.zipIdx.filter fun entry => entry.1.groupOrder.isSome).map (·.2)) := by
  rw [← map_snd_groupPlaces]
  exact (List.mergeSort_perm _ _).map _

theorem nodup_groupIndices (cs : List Column) : (groupIndices cs).Nodup := by
  rw [(groupIndices_perm cs).nodup_iff]
  have hpositions : (cs.zipIdx.map (·.2)).Nodup := by
    rw [List.zipIdx_map_snd]
    exact List.nodup_range'
  exact hpositions.sublist (List.filter_sublist.map _)

theorem mem_groupIndices_iff {i : Nat} :
    i ∈ groupIndices cs ↔ ∃ c, cs[i]? = some c ∧ c.groupOrder.isSome = true := by
  rw [(groupIndices_perm cs).mem_iff, List.mem_map]
  constructor
  · rintro ⟨⟨c, i⟩, hmem, rfl⟩
    obtain ⟨hentry, hsome⟩ := List.mem_filter.mp hmem
    exact ⟨c, List.mem_zipIdx_iff_getElem?.mp hentry, hsome⟩
  · rintro ⟨c, hc, hsome⟩
    exact ⟨(c, i), List.mem_filter.mpr ⟨List.mem_zipIdx_iff_getElem?.mpr hc, hsome⟩, rfl⟩

/-- Positions in a list without repetition are the positions of its members. -/
theorem exists_map_idxOf_eq {α : Type} [DecidableEq α] {l : List α} (hl : l.Nodup) {indices : List Nat}
    (h : ∀ i ∈ indices, i < l.length) : ∃ as ⊆ l, as.map l.idxOf = indices := by
  induction indices with
  | nil => exact ⟨[], List.nil_subset _, rfl⟩
  | cons i indices ih =>
    obtain ⟨as, hsub, has⟩ := ih fun j hj => h j (List.mem_cons_of_mem _ hj)
    have hi := h i List.mem_cons_self
    refine ⟨l[i] :: as, List.cons_subset.mpr ⟨List.getElem_mem hi, hsub⟩, ?_⟩
    rw [List.map_cons, has, hl.idxOf_getElem i hi]

/-- **Closing the gaps in any set** without repetition gives the set of an arrangement of the same
columns. -/
theorem exists_arrangement_densify (hids : (s.columns.map (·.id)).Nodup) :
    ∃ a : Arrangement, s.densify = a.toColumnSet ∧ a.Proper ∧
      a.selected.Perm (s.columns.map (·.id)) := by
  obtain ⟨cs, hcs⟩ : ∃ cs, cs = densifySelect s.columns := ⟨_, rfl⟩
  have hperm : (cs.map (·.id)).Perm (s.columns.map (·.id)) := hcs ▸ map_id_densifySelect_perm s.columns
  have hnodup : (cs.map (·.id)).Nodup := hperm.nodup_iff.mpr hids
  have hbound (i : Nat) (hi : i ∈ groupIndices cs) : i < (cs.map (·.id)).length := by
    obtain ⟨c, hc, -⟩ := mem_groupIndices_iff.mp hi
    obtain ⟨hlt, -⟩ := List.getElem?_eq_some_iff.mp hc
    rwa [List.length_map]
  obtain ⟨ids, hsub, hindices⟩ := exists_map_idxOf_eq hnodup hbound
  have hidsNodup : ids.Nodup := .of_map _ (hindices ▸ nodup_groupIndices cs)
  refine ⟨⟨cs.map (·.id), ids⟩, ?_, ⟨hnodup, hidsNodup, hsub⟩, hperm⟩
  have hrenumber : renumber (fun order c => { c with groupOrder := some order }) 0 (groupIndices cs)
      cs = cs.map fun c => (ids.idxOf? c.id).elim c fun k => { c with groupOrder := orderFrom 0 k } :=
    hindices ▸ renumber_map_idxOf rfl hnodup hsub hidsNodup
  rw [hcs] at hrenumber
  rw [densify, hrenumber, ← hcs, toColumnSet_eq_map (a := ⟨cs.map (·.id), ids⟩) rfl]
  refine congrArg ColumnSet.mk (List.map_congr_left fun c hc => ?_)
  obtain ⟨i, hi, rfl⟩ := List.getElem_of_mem hc
  have hidx : (cs.map (·.id)).idxOf cs[i].id = i := by
    have := hnodup.idxOf_getElem i (by simpa using hi)
    rwa [List.getElem_map] at this
  have hselect : cs[i].selectOrder = orderFrom 1 i := by
    simp only [hcs, densifySelect, List.getElem_mapIdx]
  rw [Arrangement.column, hidx, ← hselect]
  cases hk : ids.idxOf? cs[i].id with
  | some k => rfl
  | none =>
    -- A column with a place of grouping would be among those that get a new one.
    have hnone : cs[i].groupOrder = none := by
      by_contra hsome
      have hmem := mem_groupIndices_iff.mpr ⟨_, List.getElem?_eq_getElem hi,
        Option.isSome_iff_ne_none.mpr hsome⟩
      rw [← hindices] at hmem
      obtain ⟨id, hid, hpos⟩ := List.mem_map.mp hmem
      rw [← hidx] at hpos
      have heq := (List.idxOf_inj (hsub hid)).mp hpos
      exact List.idxOf?_eq_none_iff.mp hk (heq ▸ hid)
    rw [Option.map_none, Option.elim_none, ← hnone]

/-- **A sound set of columns:** no column is there twice, and the set is ordered if it is small enough
for its places. -/
structure Sound (s : ColumnSet) : Prop where
  nodup : (s.columns.map (·.id)).Nodup
  ordered : s.size < UInt32.size → s.Ordered

theorem Ordered.sound (h : s.Ordered) : s.Sound := ⟨h.nodup, fun _ => h⟩

theorem sound_toColumnSet {a : Arrangement} (h : a.Proper) : a.toColumnSet.Sound where
  nodup := by
    rw [Arrangement.toColumnSet, Arrangement.map_id_map_column]
    exact h.nodup_selected
  ordered hsize := h.ordered_toColumnSet (by simpa [size, Arrangement.toColumnSet] using hsize)

/-- **Closing the gaps makes any set sound** that has no column twice. -/
theorem sound_densify (hids : (s.columns.map (·.id)).Nodup) : s.densify.Sound := by
  obtain ⟨a, heq, hproper, -⟩ := exists_arrangement_densify hids
  rw [heq]
  exact sound_toColumnSet hproper

/-! ### Edits of any set -/

theorem map_id_renumber (write : UInt32 → Column → Column)
    (hwrite : ∀ order c, (write order c).id = c.id) (start : UInt32) (indices : List Nat)
    (cs : List Column) : (renumber write start indices cs).map (·.id) = cs.map (·.id) := by
  rw [renumber]
  generalize indices.zipIdx = places
  induction places generalizing cs with
  | nil => rfl
  | cons place places ih =>
    rw [List.foldl_cons, ih]
    refine List.ext_getElem (by simp) fun i _ _ => ?_
    rw [List.getElem_map, List.getElem_map, List.getElem_modify]
    split
    · exact hwrite _ _
    · rfl

/-- **What an edit does to a set of any size:** it keeps the columns that are there, apart from their
places, adds a new one, or drops one and closes the gaps. -/
theorem after_ids_cases (s : ColumnSet) (e : Edit) :
    ((e.after s).columns.map (·.id)).Perm (s.columns.map (·.id)) ∨
    (∃ id ∉ s.columns.map (·.id), (e.after s).columns.map (·.id) = s.columns.map (·.id) ++ [id]) ∨
    ∃ i : Fin s.columns.length, e.after s = (ColumnSet.mk (s.columns.eraseIdx i)).densify := by
  cases e with
  | add id =>
    rw [Edit.after, leftBy, run_add]
    by_cases hid : s.contains id
    · rw [if_pos hid]
      exact .inl (.refl _)
    · rw [if_neg hid]
      refine .inr (.inl ⟨id, ?_, by simp⟩)
      simpa [contains] using hid
  | remove selector =>
    rw [Edit.after, leftBy, run_remove]
    cases s.resolve selector with
    | error e => exact .inl (.refl _)
    | ok i => exact .inr (.inr ⟨i, rfl⟩)
  | reorder selectors =>
    rw [Edit.after, leftBy, run_reorder]
    refine .inl ?_
    cases s.resolveAll [] selectors with
    | error e => exact .refl _
    | ok order =>
      dsimp only
      split_ifs
      · exact .refl _
      · have hids := map_id_renumber (fun order c => { c with selectOrder := order })
          (fun _ _ => rfl) 1 (order.map (·.val)) s.columns
        rw [← hids]
        exact (List.mergeSort_perm _ _).map _
  | group selectors =>
    rw [Edit.after, leftBy, run_group]
    refine .inl ?_
    cases s.resolveAll [] selectors with
    | error e => exact .refl _
    | ok order =>
      have hids := map_id_renumber (fun order c => { c with groupOrder := some order })
        (fun _ _ => rfl) 0 (order.map (·.val)) (s.columns.map fun c => { c with groupOrder := none })
      exact .of_eq (hids.trans List.map_map)
  | clearGroup => exact .inl (.of_eq List.map_map)

/-- **One edit** keeps a set sound. -/
theorem Sound.after (h : s.Sound) (e : Edit) : (e.after s).Sound := by
  by_cases hsize : s.size < UInt32.size
  · obtain heq | ⟨a, heq, hproper, -⟩ := (h.ordered hsize).after_cases e
    · rwa [heq]
    · rw [heq]
      exact sound_toColumnSet hproper
  · -- Only where a column is dropped the set can become small enough.
    have hlength (t : ColumnSet) (hle : s.size ≤ (t.columns.map (·.id)).length)
        (hlt : t.size < UInt32.size) : t.Ordered := by
      rw [List.length_map] at hle
      exact absurd (hle.trans_lt hlt) hsize
    obtain hperm | ⟨id, hid, hids⟩ | ⟨i, heq⟩ := after_ids_cases s e
    · exact ⟨hperm.nodup_iff.mpr h.nodup, hlength _ (by rw [hperm.length_eq, List.length_map, size])⟩
    · refine ⟨hids ▸ List.concat_eq_append ▸ h.nodup.concat hid, hlength _ ?_⟩
      rw [hids, List.length_append, List.length_map]
      exact Nat.le_add_right _ _
    · have hrest : ((s.columns.eraseIdx i).map (·.id)).Nodup :=
        h.nodup.sublist ((List.eraseIdx_sublist ..).map _)
      rw [heq]
      exact sound_densify hrest

theorem size_lt_of_checkInvariants (h : s.checkInvariants = .ok ()) : s.size < UInt32.size := by
  obtain ⟨-, hselect, -⟩ := checkInvariants_eq_ok_iff.mp h
  cases hsize : s.size with
  | zero => decide
  | succ n =>
    -- The greatest place is the number of columns.
    have hmem : n + 1 ∈ s.columns.map (·.selectOrder.toNat) := by
      rw [hselect.mem_iff, hsize, List.mem_range'_1]
      omega
    obtain ⟨c, -, hc⟩ := List.mem_map.mp hmem
    rw [← hc]
    exact c.selectOrder.toNat_lt_size

theorem Sound.ordered_of_check (h : s.Sound) (hcheck : s.checkInvariants = .ok ()) : s.Ordered :=
  h.ordered (size_lt_of_checkInvariants hcheck)

end PatternQuery.ColumnSet
