import Mathlib.Data.Set.List
import PatternQuery.Proofs.Selection.Columns

/-!
# What selectors name

A selector is looked up among the columns of a set. It is found iff it names exactly one of their ids
(`resolve_eq_ok_iff`): for a field id this is what the search counts, and for the id of a column it
holds because no id is there twice. Several selectors are looked up one by one, and no column may come
up twice (`resolveAll_eq_ok_iff`). Columns are compared by position there, not selectors by text, so a
column that is named in two ways is noticed.
-/

namespace PatternQuery

/-- Whether a selector fits an id. -/
def Selector.Names : Selector → ColumnId → Prop
  | .field f, id => id.field = f
  | .qualified id', id => id = id'

/-- **A selector names one id of a list** if it fits that id and no other. -/
def Selector.NamesOnly (selector : Selector) (ids : List ColumnId) (id : ColumnId) : Prop :=
  id ∈ ids ∧ ∀ id' ∈ ids, selector.Names id' ↔ id' = id

namespace ColumnSet

variable {s : ColumnSet} {selector : Selector} {selectors : List Selector}

theorem filter_finRange_eq_singleton_iff {n : Nat} {p : Fin n → Bool} {i : Fin n} :
    (List.finRange n).filter p = [i] ↔ ∀ j, p j = true ↔ j = i := by
  constructor
  · intro h j
    have hmem : j ∈ (List.finRange n).filter p ↔ p j = true := by simp
    rw [← hmem, h, List.mem_singleton]
  · intro h
    have hperm : ((List.finRange n).filter p).Perm [i] := by
      refine (List.perm_ext_iff_of_nodup ((List.nodup_finRange n).filter p)
        (List.nodup_singleton i)).mpr fun j => ?_
      rw [List.mem_filter, List.mem_singleton, h j]
      simp
    exact List.perm_singleton.mp hperm

theorem id_inj_iff (hids : (s.columns.map (·.id)).Nodup) {i j : Fin s.columns.length} :
    (s.columns.get i).id = (s.columns.get j).id ↔ i = j := by
  constructor
  · intro heq
    have hi := hids.idxOf_getElem i (by simp)
    have hj := hids.idxOf_getElem j (by simp)
    rw [List.getElem_map] at hi hj
    rw [List.get_eq_getElem, List.get_eq_getElem] at heq
    exact Fin.ext (by rw [← hi, ← hj, heq])
  · rintro rfl
    rfl

theorem namesOnly_iff (hids : (s.columns.map (·.id)).Nodup) {i : Fin s.columns.length} :
    selector.NamesOnly s.arrangement.selected (s.columns.get i).id ↔
      ∀ j : Fin s.columns.length, selector.Names (s.columns.get j).id ↔ j = i := by
  constructor
  · rintro ⟨-, hnames⟩ j
    exact (hnames _ (List.mem_map_of_mem (List.getElem_mem j.isLt))).trans (id_inj_iff hids)
  · intro hnames
    refine ⟨List.mem_map_of_mem (List.getElem_mem i.isLt), fun id hid => ?_⟩
    obtain ⟨c, hc, rfl⟩ := List.mem_map.mp hid
    obtain ⟨j, hj, rfl⟩ := List.getElem_of_mem hc
    exact (hnames ⟨j, hj⟩).trans (id_inj_iff hids).symm

/-- **A selector is found** where it names one id of the set. -/
theorem resolve_eq_ok_iff (hids : (s.columns.map (·.id)).Nodup) {i : Fin s.columns.length} :
    s.resolve selector = .ok i ↔ selector.NamesOnly s.arrangement.selected (s.columns.get i).id := by
  rw [namesOnly_iff hids]
  cases selector with
  | qualified id =>
    have hfind : s.resolve (.qualified id) = .ok i ↔
        s.columns.findFinIdx? (·.id == id) = some i := by
      simp only [resolve]
      cases s.columns.findFinIdx? (·.id == id) <;> simp
    rw [hfind, List.findFinIdx?_eq_some_iff]
    constructor
    · rintro ⟨hi, -⟩ j
      rw [beq_iff_eq] at hi
      rw [Selector.Names, ← hi]
      exact id_inj_iff hids
    · intro hnames
      refine ⟨beq_iff_eq.mpr ((hnames i).mpr rfl), fun j hj hmatch => ?_⟩
      exact Fin.ne_of_lt hj ((hnames j).mp (beq_iff_eq.mp hmatch))
  | field f =>
    have hfilter : s.resolve (.field f) = .ok i ↔
        ((List.finRange s.columns.length).filter fun j => (s.columns.get j).id.field == f) = [i] := by
      simp only [resolve]
      generalize (List.finRange s.columns.length).filter _ = indices
      rcases indices with _ | ⟨j, _ | ⟨k, rest⟩⟩ <;> simp
    rw [hfilter, filter_finRange_eq_singleton_iff]
    exact forall_congr' fun j => iff_congr beq_iff_eq Iff.rfl

theorem exists_resolve_iff (hids : (s.columns.map (·.id)).Nodup) :
    (∃ i, s.resolve selector = .ok i) ↔ ∃ id, selector.NamesOnly s.arrangement.selected id := by
  constructor
  · rintro ⟨i, hi⟩
    exact ⟨_, (resolve_eq_ok_iff hids).mp hi⟩
  · rintro ⟨id, hid⟩
    obtain ⟨c, hc, rfl⟩ := List.mem_map.mp hid.1
    obtain ⟨i, hi, rfl⟩ := List.getElem_of_mem hc
    exact ⟨⟨i, hi⟩, (resolve_eq_ok_iff hids).mpr hid⟩

theorem exists_resolve_field_iff {f : String} :
    (∃ i, s.resolve (.field f) = .ok i) ↔ s.columns.countP (·.id.field == f) = 1 := by
  have hcount : s.columns.countP (·.id.field == f) =
      ((List.finRange s.columns.length).filter fun i => (s.columns.get i).id.field == f).length := by
    conv_lhs => rw [← List.map_getElem_finRange s.columns, List.countP_map, List.countP_eq_length_filter]
    rfl
  rw [hcount, List.length_eq_one_iff]
  simp only [resolve]
  generalize (List.finRange s.columns.length).filter _ = indices
  rcases indices with _ | ⟨j, _ | ⟨k, rest⟩⟩ <;> simp

/-- **Several selectors are found** one by one, and at different positions. -/
theorem resolveAll_eq_ok_iff {seen order : List (Fin s.columns.length)} :
    s.resolveAll seen selectors = .ok order ↔
      List.Forall₂ (fun selector i => s.resolve selector = .ok i) selectors order ∧
        order.Nodup ∧ ∀ i ∈ order, i ∉ seen := by
  induction selectors generalizing seen order with
  | nil =>
    unfold resolveAll
    constructor
    · intro h
      obtain rfl := Except.ok.inj h
      exact ⟨.nil, List.nodup_nil, by simp⟩
    · rintro ⟨hforall, -⟩
      cases hforall
      rfl
  | cons selector rest ih =>
    unfold resolveAll
    rw [bind_eq_ok_iff]
    constructor
    · rintro ⟨i, hi, h⟩
      split at h
      · exact absurd h (by simp)
      · next hseen =>
        obtain ⟨order', horder', h⟩ := bind_eq_ok_iff.mp h
        obtain rfl := Except.ok.inj h
        obtain ⟨hforall, hnodup, hfresh⟩ := ih.mp horder'
        refine ⟨.cons hi hforall, List.nodup_cons.mpr ⟨fun hmem => ?_, hnodup⟩, fun j hj => ?_⟩
        · exact hfresh i hmem List.mem_cons_self
        · rcases List.mem_cons.mp hj with rfl | hj
          · simpa using hseen
          · exact fun hmem => hfresh j hj (List.mem_cons_of_mem _ hmem)
    · rintro ⟨hforall, hnodup, hfresh⟩
      cases hforall with
      | cons hi hrest =>
        obtain ⟨hnot, hnodup⟩ := List.nodup_cons.mp hnodup
        refine ⟨_, hi, ?_⟩
        rw [if_neg (by simpa using hfresh _ List.mem_cons_self), bind_eq_ok_iff]
        refine ⟨_, ih.mpr ⟨hrest, hnodup, fun j hj hmem => ?_⟩, rfl⟩
        rcases List.mem_cons.mp hmem with rfl | hmem
        · exact hnot hj
        · exact hfresh j (List.mem_cons_of_mem _ hj) hmem

theorem subset_of_forall₂_namesOnly {known ids : List ColumnId}
    (h : List.Forall₂ (·.NamesOnly known ·) selectors ids) : ids ⊆ known := by
  induction h with
  | nil => exact List.nil_subset _
  | cons hnames _ ih => exact List.cons_subset.mpr ⟨hnames.1, ih⟩

/-- **Several selectors are found** iff they name different ids of the set, one by one. -/
theorem exists_resolveAll_iff (hids : (s.columns.map (·.id)).Nodup) {ids : List ColumnId} :
    (∃ order, s.resolveAll [] selectors = .ok order ∧
      (order.map fun i => (s.columns.get i).id) = ids) ↔
    List.Forall₂ (·.NamesOnly s.arrangement.selected ·) selectors ids ∧ ids.Nodup := by
  have hnames (order : List (Fin s.columns.length)) :
      List.Forall₂ (fun selector i => s.resolve selector = .ok i) selectors order ↔
        List.Forall₂ (·.NamesOnly s.arrangement.selected ·) selectors
          (order.map fun i => (s.columns.get i).id) := by
    rw [List.forall₂_map_right_iff]
    exact ⟨.imp fun _ _ => (resolve_eq_ok_iff hids).mp, .imp fun _ _ => (resolve_eq_ok_iff hids).mpr⟩
  have hnodup (order : List (Fin s.columns.length)) :
      (order.map fun i => (s.columns.get i).id).Nodup ↔ order.Nodup :=
    List.nodup_map_iff fun _ _ heq => (id_inj_iff hids).mp heq
  constructor
  · rintro ⟨order, horder, rfl⟩
    obtain ⟨hforall, hdistinct, -⟩ := resolveAll_eq_ok_iff.mp horder
    exact ⟨(hnames order).mp hforall, (hnodup order).mpr hdistinct⟩
  · rintro ⟨hforall, hdistinct⟩
    -- Ids of the set are the ids at some positions, and the selectors are found there.
    obtain ⟨order, rfl⟩ : ids ∈ Set.range (List.map fun i : Fin s.columns.length =>
        (s.columns.get i).id) := by
      rw [Set.range_list_map]
      intro id hid
      obtain ⟨c, hc, rfl⟩ := List.mem_map.mp (subset_of_forall₂_namesOnly hforall hid)
      obtain ⟨i, hi, rfl⟩ := List.getElem_of_mem hc
      exact ⟨⟨i, hi⟩, rfl⟩
    exact ⟨order, resolveAll_eq_ok_iff.mpr ⟨(hnames order).mpr hforall,
      (hnodup order).mp hdistinct, by simp⟩, rfl⟩

theorem map_val_eq (hids : (s.columns.map (·.id)).Nodup) (order : List (Fin s.columns.length)) :
    order.map (·.val) =
      (order.map fun i => (s.columns.get i).id).map s.arrangement.selected.idxOf := by
  rw [List.map_map]
  refine List.map_congr_left fun i _ => ?_
  have := hids.idxOf_getElem i (by simp)
  rw [List.getElem_map] at this
  exact this.symm

end ColumnSet

end PatternQuery
