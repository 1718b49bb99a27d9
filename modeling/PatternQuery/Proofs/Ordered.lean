import Mathlib.Order.Defs.LinearOrder
import PatternQuery.Ordered
import PatternQuery.Proofs.Keyed

/-!
# Association lists in order

Changing the value at a key keeps an association list in order (`Sorted.alter`), and changes what is
found at this key and at no other (`Sorted.lookup_alter`). The order is any comparison that is transitive
and tells different keys apart.
-/

namespace PatternQuery.Ordered

open Std

variable {κ α : Type} {cmp : κ → κ → Ordering} {key : κ} {change : Option α → α}
  {entries : List (κ × α)}

/-- **The keys ascend.** -/
def Sorted (cmp : κ → κ → Ordering) (entries : List (κ × α)) : Prop :=
  entries.Pairwise fun a b => cmp a.1 b.1 = .lt

theorem sorted_nil : Sorted cmp ([] : List (κ × α)) := List.Pairwise.nil

/-- An entry of the list after an insertion is what was put in, or was there before. -/
theorem eq_or_mem_of_mem_insert {value : α} {entry : κ × α}
    (h : entry ∈ insert cmp key value entries) : entry = (key, value) ∨ entry ∈ entries := by
  rw [insert] at h
  induction entries with
  | nil => exact .inl (List.mem_singleton.mp h)
  | cons first rest ih =>
    rw [alter] at h
    split at h
    · exact List.mem_cons.mp h
    · exact (List.mem_cons.mp h).imp_right (List.mem_cons_of_mem _)
    · obtain rfl | h := List.mem_cons.mp h
      · exact .inr List.mem_cons_self
      · exact (ih h).imp_right (List.mem_cons_of_mem _)

/-- What comes behind all others is put at the end. -/
theorem alter_of_forall_lt [OrientedCmp cmp] (h : ∀ e ∈ entries, cmp e.1 key = .lt) :
    Ordered.alter cmp key change entries = entries ++ [(key, change none)] := by
  induction entries with
  | nil => rfl
  | cons e rest ih =>
    obtain ⟨k, a⟩ := e
    have hgt : cmp key k = .gt := OrientedCmp.gt_iff_lt.mpr (h (k, a) List.mem_cons_self)
    rw [Ordered.alter, hgt]
    dsimp only
    rw [ih fun e' he' => h e' (List.mem_cons_of_mem _ he')]
    rfl

variable [LawfulEqCmp cmp]

/-- The key that is changed is there, and no other can be new. -/
theorem mem_keys_alter {k : κ} :
    k ∈ (alter cmp key change entries).map (·.1) ↔ k = key ∨ k ∈ entries.map (·.1) := by
  induction entries with
  | nil => exact List.mem_singleton.trans (by simp)
  | cons e rest ih =>
    obtain ⟨k', a⟩ := e
    rw [alter]
    cases hcmp : cmp key k' with
    | lt => exact List.mem_cons
    | eq =>
      obtain rfl := LawfulEqCmp.eq_of_compare hcmp
      rw [List.map_cons, List.map_cons, List.mem_cons, ← or_assoc, or_self]
    | gt =>
      rw [List.map_cons, List.map_cons, List.mem_cons, List.mem_cons, ih]
      exact or_left_comm

/-- After a run of changes, the keys are those there were and those that were changed. -/
theorem mem_keys_foldl_alter {β : Type} {keyOf : β → κ} {changeOf : β → Option α → α} {k : κ}
    (l : List β) :
    k ∈ (l.foldl (fun es b => alter cmp (keyOf b) (changeOf b) es) entries).map (·.1) ↔
      k ∈ entries.map (·.1) ∨ ∃ b ∈ l, keyOf b = k := by
  induction l generalizing entries with
  | nil => simp
  | cons b l ih =>
    rw [List.foldl_cons, ih, mem_keys_alter, List.exists_mem_cons_iff, or_assoc, or_left_comm,
      eq_comm]

/-- Of two changes at one key, the second finds what the first has put there. -/
theorem alter_alter {change' : Option α → α} : alter cmp key change' (alter cmp key change entries) =
    alter cmp key (fun old => change' (some (change old))) entries := by
  have hself : cmp key key = .eq := ReflCmp.compare_self
  induction entries with
  | nil =>
    rw [alter, alter, alter, hself]
  | cons e rest ih =>
    obtain ⟨k, a⟩ := e
    rw [alter, alter]
    cases hcmp : cmp key k with
    | lt =>
      dsimp only
      rw [alter, hself]
    | eq =>
      dsimp only
      rw [alter, hself]
    | gt =>
      dsimp only
      rw [alter, hcmp]
      dsimp only
      rw [ih]

theorem ne_of_lt {k k' : κ} (h : cmp k k' = .lt) : k ≠ k' := by
  rintro rfl
  have hself : cmp k k = .eq := ReflCmp.compare_self
  rw [hself] at h
  exact absurd h (by decide)

theorem Sorted.nodup (h : Sorted cmp entries) : (entries.map (·.1)).Nodup :=
  List.pairwise_map.mpr (h.imp fun hlt => ne_of_lt hlt)

variable [TransCmp cmp]

theorem Sorted.alter (h : Sorted cmp entries) : Sorted cmp (alter cmp key change entries) := by
  induction entries with
  | nil => exact List.pairwise_singleton _ _
  | cons e rest ih =>
    obtain ⟨k, a⟩ := e
    obtain ⟨hk, hrest⟩ := List.pairwise_cons.mp h
    rw [Ordered.alter]
    cases hcmp : cmp key k with
    | lt =>
      refine List.pairwise_cons.mpr ⟨fun e' he' => ?_, h⟩
      rcases List.mem_cons.mp he' with rfl | he'
      · exact hcmp
      · exact TransCmp.lt_trans hcmp (hk e' he')
    | eq =>
      obtain rfl := LawfulEqCmp.eq_of_compare hcmp
      exact List.pairwise_cons.mpr ⟨hk, hrest⟩
    | gt =>
      -- Behind `k` come the keys that came there before, and the one that is changed.
      refine List.pairwise_cons.mpr ⟨fun e' he' => ?_, ih hrest⟩
      rcases mem_keys_alter.mp (List.mem_map_of_mem he') with heq | hmem
      · rw [heq]
        exact OrientedCmp.gt_iff_lt.mp hcmp
      · obtain ⟨e'', he'', heq⟩ := List.mem_map.mp hmem
        rw [← heq]
        exact hk e'' he''

/-- A key before all others is not there. -/
theorem Sorted.lookup_eq_none [BEq κ] [LawfulBEq κ] {k : κ} {a : α} (h : Sorted cmp ((k, a) :: entries))
    (hlt : cmp key k = .lt) : ((k, a) :: entries).lookup key = none := by
  rw [List.lookup_eq_none_iff]
  intro e he
  have hbefore : cmp key e.1 = .lt := by
    rcases List.mem_cons.mp he with rfl | he
    · exact hlt
    · exact TransCmp.lt_trans hlt ((List.pairwise_cons.mp h).1 e he)
  exact bne_iff_ne.mpr (ne_of_lt hbefore)

/-- **Changing the value at a key** changes what is found there, and nothing else. -/
theorem Sorted.lookup_alter [BEq κ] [LawfulBEq κ] (h : Sorted cmp entries) (k : κ) :
    (Ordered.alter cmp key change entries).lookup k =
      if k == key then some (change (entries.lookup key)) else entries.lookup k := by
  induction entries with
  | nil =>
    rw [Ordered.alter, List.lookup_cons]
    cases k == key <;> rfl
  | cons e rest ih =>
    obtain ⟨k', a⟩ := e
    obtain ⟨hk', hrest⟩ := List.pairwise_cons.mp h
    rw [Ordered.alter]
    cases hcmp : cmp key k' with
    | lt =>
      dsimp only
      rw [h.lookup_eq_none hcmp, List.lookup_cons]
      cases k == key <;> rfl
    | eq =>
      obtain rfl := LawfulEqCmp.eq_of_compare hcmp
      dsimp only
      rw [List.lookup_cons_self, List.lookup_cons, List.lookup_cons]
      cases k == key <;> rfl
    | gt =>
      have hlt : cmp k' key = .lt := OrientedCmp.gt_iff_lt.mp hcmp
      have hne : (key == k') = false := beq_eq_false_iff_ne.mpr (ne_of_lt hlt).symm
      dsimp only
      rw [List.lookup_cons, List.lookup_cons, List.lookup_cons, hne, ih hrest]
      by_cases hk : k = key
      · rw [hk, hne]
      · rw [beq_eq_false_iff_ne.mpr hk]
        rfl

/-- **A run of changes** keeps an association list in order. -/
theorem Sorted.foldl_alter {β : Type} {keyOf : β → κ} {changeOf : β → Option α → α}
    (h : Sorted cmp entries) (l : List β) :
    Sorted cmp (l.foldl (fun es b => Ordered.alter cmp (keyOf b) (changeOf b) es) entries) := by
  induction l generalizing entries with
  | nil => exact h
  | cons b l ih => exact ih h.alter

end PatternQuery.Ordered
