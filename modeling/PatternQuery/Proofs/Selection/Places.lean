import PatternQuery.Selection.ColumnSet
import Mathlib.Data.List.Nodup
import Mathlib.Order.Lattice
import Mathlib.Order.Nat

/-!
# Places without gaps

Places are 32-bit numbers, and a place is computed from a position by an addition that wraps around
(`orderFrom`). Below the limit it does not (`toNat_orderFrom`). A list of places that is ascending
and passes the test for gaps cannot have wrapped around, however long it is: the place behind the
greatest is zero, which is not above it (`map_toNat_of_isDenseFrom`).

Two operations put columns in order. Sorting by a key is opened by `mergeSort_eq_of_perm`: the result
is any permutation in which the keys ascend strictly. Giving places to columns that are named by their
positions is opened by `getElem?_renumber`.
-/

namespace PatternQuery

section Sorting

variable {α β : Type} [LinearOrder β] {le : α → α → Bool} {key : α → β}

theorem pairwise_mergeSort_key (hle : ∀ a b, le a b = true ↔ key a ≤ key b) (l : List α) :
    (l.mergeSort le).Pairwise fun a b => key a ≤ key b := by
  refine (List.pairwise_mergeSort (fun a b c hab hbc => ?_) (fun a b => ?_) l).imp fun hab =>
    (hle _ _).mp hab
  · rw [hle] at *
    exact le_trans hab hbc
  · rw [Bool.or_eq_true, hle, hle]
    exact le_total _ _

/-- **Sorting by a key** gives the permutation in which the key ascends strictly, if there is one. -/
theorem mergeSort_eq_of_perm (key : α → β) (hle : ∀ a b, le a b = true ↔ key a ≤ key b) {l l' : List α}
    (hperm : l.Perm l') (hsorted : l'.Pairwise fun a b => key a < key b) : l.mergeSort le = l' := by
  have hmerge : (l.mergeSort le).Perm l' := (List.mergeSort_perm l le).trans hperm
  have hnodup : (l'.map key).Nodup := List.Pairwise.map key (fun _ _ => ne_of_lt) hsorted
  -- The key tells one member from another, so two lists in which it ascends are the same.
  refine List.Perm.eq_of_pairwise (fun a b ha hb hab hba => ?_) (pairwise_mergeSort_key hle l)
    (hsorted.imp le_of_lt) hmerge
  exact List.inj_on_of_nodup_map hnodup (hmerge.mem_iff.mp ha) hb (le_antisymm hab hba)

end Sorting

namespace ColumnSet

/-! ### The place at a position -/

theorem toNat_orderFrom (start : UInt32) {i : Nat} (h : start.toNat + i < UInt32.size) :
    (orderFrom start i).toNat = start.toNat + i := by
  have hi : i.toUInt32.toNat = i := UInt32.toNat_ofNat_of_lt' (by omega)
  rw [orderFrom, UInt32.toNat_add, hi]
  exact Nat.mod_eq_of_lt h

theorem toNat_orderFrom_size {start : UInt32} {i : Nat} (h : start.toNat + i = UInt32.size) :
    (orderFrom start i).toNat = 0 := by
  have hi : i.toUInt32.toNat = i % 2 ^ 32 := UInt32.toNat_ofNat'
  rw [orderFrom, UInt32.toNat_add, hi, Nat.add_mod_mod, h]
  rfl

theorem isDenseFrom_iff {start : UInt32} {orders : List UInt32} :
    isDenseFrom start orders = true ↔ ∀ i (hi : i < orders.length), orders[i] = orderFrom start i := by
  rw [isDenseFrom, List.all_eq_true]
  constructor
  · intro h i hi
    simpa using h (orders[i], i) (List.mk_mem_zipIdx_iff_getElem?.mpr (by simp [hi]))
  · rintro h ⟨order, i⟩ hmem
    obtain ⟨hi, rfl⟩ := List.getElem?_eq_some_iff.mp (List.mk_mem_zipIdx_iff_getElem?.mp hmem)
    simpa using h i hi

/-- **Ascending places without gaps have not wrapped around.** -/
theorem map_toNat_of_isDenseFrom {start : UInt32} {orders : List UInt32}
    (hsorted : orders.Pairwise fun a b => a.toNat ≤ b.toNat) (hdense : isDenseFrom start orders = true) :
    orders.map UInt32.toNat = List.range' start.toNat orders.length := by
  have hplace := isDenseFrom_iff.mp hdense
  have hexact (i : Nat) (hi : i < orders.length) : start.toNat + i < UInt32.size := by
    induction i with
    | zero => exact start.toNat_lt_size
    | succ i ih =>
      have hprev := ih (by omega)
      by_contra hwrap
      -- The place would be the first to wrap around, and it is not below the one before it.
      have hle := (List.pairwise_iff_getElem.mp hsorted) i (i + 1) (by omega) hi (by omega)
      rw [hplace i, hplace (i + 1), toNat_orderFrom _ hprev,
        toNat_orderFrom_size (by omega)] at hle
      have hsize : UInt32.size = 4294967296 := rfl
      omega
  refine List.ext_getElem (by simp) fun i hi _ => ?_
  have hlt : i < orders.length := by simpa using hi
  rw [List.getElem_map, hplace i hlt, toNat_orderFrom _ (hexact i hlt), List.getElem_range']
  omega

theorem isDenseFrom_of_map_toNat {start : UInt32} {orders : List UInt32}
    (h : orders.map UInt32.toNat = List.range' start.toNat orders.length) :
    isDenseFrom start orders = true := by
  refine isDenseFrom_iff.mpr fun i hi => UInt32.toNat_inj.mp ?_
  have hplace : orders[i].toNat = start.toNat + i := by
    have := List.getElem_of_eq h (i := i) (by simpa using hi)
    simpa using this
  rw [toNat_orderFrom _ (hplace ▸ orders[i].toNat_lt_size), hplace]

/-- **The test for gaps,** after sorting: up to order the places are the numbers from `start` on. -/
theorem isDenseFrom_mergeSort_iff {start : UInt32} {orders : List UInt32} :
    isDenseFrom start (orders.mergeSort (· ≤ ·)) = true ↔
      (orders.map UInt32.toNat).Perm (List.range' start.toNat orders.length) := by
  have hperm := List.mergeSort_perm orders (· ≤ ·)
  have hsorted : (orders.mergeSort (· ≤ ·)).Pairwise fun a b => a.toNat ≤ b.toNat :=
    pairwise_mergeSort_key (fun a b => by rw [decide_eq_true_iff, UInt32.le_iff_toNat_le]) orders
  constructor
  · intro h
    rw [← hperm.length_eq, ← map_toNat_of_isDenseFrom hsorted h]
    exact (hperm.map _).symm
  · intro h
    refine isDenseFrom_of_map_toNat ?_
    rw [hperm.length_eq]
    exact List.Perm.eq_of_pairwise (fun _ _ _ _ => le_antisymm) (List.pairwise_map.mpr hsorted)
      ((List.pairwise_lt_range' 1).imp le_of_lt) ((hperm.map _).trans h)

/-! ### The greatest place -/

theorem toNat_foldl_max (orders : List UInt32) (order : UInt32) :
    (orders.foldl max order).toNat = (orders.map UInt32.toNat).foldl max order.toNat := by
  induction orders generalizing order with
  | nil => rfl
  | cons o orders ih =>
    have hstep : (max order o).toNat = max order.toNat o.toNat := by
      simp only [UInt32.max_def, Nat.max_def, UInt32.le_iff_toNat_le]
      split_ifs <;> rfl
    rw [List.foldl_cons, List.map_cons, List.foldl_cons, ih, hstep]

theorem foldl_max_range' (n : Nat) : (List.range' 1 n).foldl max 0 = n := by
  induction n with
  | zero => rfl
  | succ n ih =>
    rw [List.range'_concat, List.foldl_append, ih]
    simp [Nat.add_comm]

/-! ### Giving places -/

section Renumber

variable {write : UInt32 → Column → Column} {start : UInt32} {indices : List Nat} {cs : List Column}

/-- **Giving places:** the column that is named at position `k` gets the place `start + k`, and the
columns that are not named keep what they have. -/
theorem getElem?_renumber (h : indices.Nodup) (i : Nat) :
    (renumber write start indices cs)[i]? = cs[i]?.map fun c =>
      (indices.idxOf? i).elim c fun k => write (orderFrom start k) c := by
  have hfold (k : Nat) (cs : List Column) :
      ((indices.zipIdx k).foldl (fun cs (place : Nat × Nat) =>
          cs.modify place.1 (write (orderFrom start place.2))) cs)[i]? =
        cs[i]?.map fun c =>
          (indices.idxOf? i).elim c fun j => write (orderFrom start (k + j)) c := by
    induction indices generalizing k cs with
    | nil => simp
    | cons index indices ih =>
      obtain ⟨hindex, hrest⟩ := List.nodup_cons.mp h
      rw [List.zipIdx_cons, List.foldl_cons, ih hrest, List.getElem?_modify, List.idxOf?_cons,
        Option.map_eq_map, Option.map_map]
      congr 1
      funext c
      by_cases hi : index = i
      · subst hi
        simp [List.idxOf?_eq_none_iff.mpr hindex]
      · cases hk : indices.idxOf? i with
        | none => simp [hi]
        | some j => simp [hi, Nat.add_assoc, Nat.add_comm 1 j]
  have := hfold 0 cs
  simp only [Nat.zero_add] at this
  exact this

end Renumber

end ColumnSet

end PatternQuery
