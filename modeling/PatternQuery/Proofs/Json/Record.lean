import Mathlib.Data.List.Forall2
import Mathlib.Data.List.Nodup
import PatternQuery.Json.Record
import PatternQuery.Proofs.Fallible
import PatternQuery.Proofs.Keyed

/-!
# What a JSON value spells

A value spells a record when it is an object, or an array in the order of the declaration, whose
members spell the parts of the record. How a member may spell its part is said by a relation
between parts and values: `Given` where the member must be there, `Nullable` where it may be missing
or null, `Defaulted` where it may only be missing. Such relations do not speak of reading.

Reading a record is a fold over its members. If every member that is there adds its part to what was
read before, then in the end the parts of all members have been read (`toRecord_eq_ok`); and if the
reading fails, it fails at one of the members (`exists_step_error`).

Sorting the members of all objects changes neither the form of a record nor its members
(`IsRecord.sorted`, `IsRecord.field_sorted`), so a relation that is built in this way does not depend
on the order in which an object lists its members (`OrderFree`).
-/

namespace PatternQuery.Json

variable {α β σ : Type} {declared : List String} {v : Json}

/-! ### Members -/

/-- The members of a record, with the names that are declared for them where the value is an array. -/
def fields (declared : List String) : Json → List (String × Json)
  | obj members => members
  | arr items => declared.zip items
  | _ => []

/-- The member of a record with a name. -/
def field (declared : List String) (v : Json) (name : String) : Option Json :=
  (v.fields declared).lookup name

/-- **A value with the form of a record:** an object with no name twice, or an array that is not
longer than the declaration. -/
def IsRecord (declared : List String) : Json → Prop
  | obj members => (members.map (·.1)).Nodup
  | arr items => items.length ≤ declared.length
  | _ => False

theorem IsRecord.nodup_fields (h : v.IsRecord declared) (hdeclared : declared.Nodup) :
    ((v.fields declared).map (·.1)).Nodup := by
  cases v with
  | obj members => exact h
  | arr items =>
    -- The names of an array are the declared ones, as far as the array goes.
    rw [fields, List.zip_eq_zip_take_min, List.map_fst_zip (by simp)]
    exact hdeclared.sublist (List.take_sublist _ _)
  | _ => exact h.elim

theorem IsRecord.mem_fields_iff (h : v.IsRecord declared) (hdeclared : declared.Nodup) {name : String}
    {w : Json} : (name, w) ∈ v.fields declared ↔ v.field declared name = some w :=
  (lookup_eq_some_iff_mem (h.nodup_fields hdeclared)).symm

/-! ### Reading a record -/

section Reading

variable {step : σ → String → Json → Except DecodeError σ} {start r : σ} {e : DecodeError}

theorem toRecord_eq_foldlM (h : v.IsRecord declared) : v.toRecord declared start step =
    (v.fields declared).foldlM (fun r member => step r member.1 member.2) start := by
  cases v with
  | obj members => rfl
  | arr items =>
    have hlength : ¬ declared.length < items.length := Nat.not_lt.mpr h
    simp only [toRecord, fields, if_neg hlength]
    exact bind_pure _
  | _ => exact h.elim

/-- **Reading a record member by member.** `part has` is what has been read when the members that are
in `has` have been. -/
theorem toRecord_eq_ok (part : (String → Bool) → σ) (h : v.IsRecord declared)
    (hdeclared : declared.Nodup) (hstart : part (fun _ => false) = start)
    (hstep : ∀ has name w, v.field declared name = some w →
      step (part has) name w = .ok (part fun n => decide (name = n) || has n)) :
    v.toRecord declared start step = .ok (part fun n => (v.field declared n).isSome) := by
  -- The induction is over the members that are left; `has` are the names of those before.
  have hfold (members : List (String × Json)) (has : String → Bool)
      (hmembers : ∀ member ∈ members, v.field declared member.1 = some member.2) :
      members.foldlM (fun r member => step r member.1 member.2) (part has) =
        .ok (part fun n => (members.lookup n).isSome || has n) := by
    induction members generalizing has with
    | nil => rfl
    | cons member members ih =>
      rw [List.foldlM_cons, hstep has _ _ (hmembers member List.mem_cons_self)]
      refine (ih _ fun m hm => hmembers m (List.mem_cons_of_mem _ hm)).trans ?_
      refine congrArg (fun has => Except.ok (part has)) (funext fun n => ?_)
      rw [List.lookup_cons]
      by_cases hn : n = member.1
      · simp [hn]
      · simp [beq_eq_false_iff_ne.mpr hn, Ne.symm hn]
  rw [toRecord_eq_foldlM h, ← hstart, hfold _ _ fun m hm => (h.mem_fields_iff hdeclared).mp hm]
  simp only [Bool.or_false]
  rfl

/-- A record whose reading fails has a member that cannot be read. -/
theorem exists_step_error (h : v.IsRecord declared) (hdeclared : declared.Nodup)
    (herror : v.toRecord declared start step = .error e) :
    ∃ r name w, v.field declared name = some w ∧ step r name w = .error e := by
  rw [toRecord_eq_foldlM h] at herror
  have hfold (members : List (String × Json)) (s : σ)
      (hs : members.foldlM (fun r member => step r member.1 member.2) s = .error e) :
      ∃ r, ∃ member ∈ members, step r member.1 member.2 = .error e := by
    induction members generalizing s with
    | nil => exact absurd hs (by simp [pure, Except.pure])
    | cons member members ih =>
      obtain hs | ⟨s', -, hs⟩ := bind_eq_error_iff.mp hs
      · exact ⟨s, member, List.mem_cons_self, hs⟩
      · obtain ⟨r, m, hm, hr⟩ := ih s' hs
        exact ⟨r, m, List.mem_cons_of_mem _ hm, hr⟩
  obtain ⟨r, member, hmember, hr⟩ := hfold _ _ herror
  exact ⟨r, member.1, member.2, (h.mem_fields_iff hdeclared).mp hmember, hr⟩

/-- In a record that has been read every member could be. -/
theorem exists_step_ok (h : v.IsRecord declared) (hdeclared : declared.Nodup)
    (hok : v.toRecord declared start step = .ok r) {name : String} {w : Json}
    (hw : v.field declared name = some w) : ∃ s s', step s name w = .ok s' := by
  rw [toRecord_eq_foldlM h] at hok
  have hfold (members : List (String × Json)) (s : σ)
      (hs : members.foldlM (fun r member => step r member.1 member.2) s = .ok r)
      (hmember : (name, w) ∈ members) : ∃ s s', step s name w = .ok s' := by
    induction members generalizing s with
    | nil => exact absurd hmember List.not_mem_nil
    | cons member members ih =>
      obtain ⟨s', hs', hs⟩ := bind_eq_ok_iff.mp hs
      obtain rfl | hmember := List.mem_cons.mp hmember
      · exact ⟨s, s', hs'⟩
      · exact ih s' hs hmember
  exact hfold _ _ hok ((h.mem_fields_iff hdeclared).mpr hw)

end Reading

/-! ### How a member spells its part -/

section Spelling

variable {P : α → Json → Prop} {a d : α} {a? : Option α} {v? : Option Json}

/-- A value is the text `s`. -/
def IsStr (s : String) (v : Json) : Prop := v = str s

/-- A value is the truth value `b`. -/
def IsBool (b : Bool) (v : Json) : Prop := v = bool b

/-- A value is the number `n`, which is below a limit. -/
def IsNatBelow (limit n : Nat) (v : Json) : Prop := v = nat n ∧ n < limit

/-- The part of a member that must be there. -/
inductive Given (P : α → Json → Prop) (a : α) : Option Json → Prop
  | intro {v : Json} (h : P a v) : Given P a (some v)

/-- The part of a member that may be missing or null. -/
inductive Nullable (P : α → Json → Prop) : Option α → Option Json → Prop
  | missing : Nullable P none none
  | null : Nullable P none (some null)
  | given {a : α} {v : Json} (h : P a v) : Nullable P (some a) (some v)

/-- The part of a member that may be missing, and stands for `d` then. -/
inductive Defaulted (P : α → Json → Prop) (d : α) : α → Option Json → Prop
  | missing : Defaulted P d d none
  | given {a : α} {v : Json} (h : P a v) : Defaulted P d a (some v)

/-- The parts of an array. -/
inductive ListOf (P : α → Json → Prop) (as : List α) : Json → Prop
  | intro {items : List Json} (h : List.Forall₂ P as items) : ListOf P as (arr items)

theorem Given.isSome (h : Given P a v?) : v?.isSome = true := by
  cases h
  rfl

theorem Nullable.cond_eq (h : Nullable P a? v?) : (bif v?.isSome then a? else none) = a? := by
  cases h <;> rfl

theorem Defaulted.cond_eq (h : Defaulted P d a v?) : (bif v?.isSome then a else d) = a := by
  cases h <;> rfl

theorem required_of_given (h : Given P a v?) :
    required (bif v?.isSome then some a else none) = .ok a := by
  rw [h.isSome]
  rfl

theorem Given.of_some (h : Given P a (some v)) : P a v := by
  cases h with
  | intro h => exact h

theorem Defaulted.of_some (h : Defaulted P d a (some v)) : P a v := by
  cases h with
  | given h => exact h

theorem Defaulted.eq_of_none (h : Defaulted P d a none) : a = d := by
  cases h
  rfl

theorem Nullable.toOptionOf_eq {read : Json → Except DecodeError α} (h : Nullable P a? (some v))
    (hread : ∀ a v, P a v → read v = .ok a) (hnull : ∀ a, ¬ P a Json.null) :
    v.toOptionOf read = .ok a? := by
  cases h with
  | null => rfl
  | given h =>
    -- Null is read as a missing part, so it must not spell one.
    cases v with
    | null => exact absurd h (hnull _)
    | _ => exact congrArg (·.map some) (hread _ _ h)

theorem IsStr.toStr_eq {s : String} (h : IsStr s v) : v.toStr = .ok s := by
  rw [h]
  rfl

theorem IsBool.toBool_eq {b : Bool} (h : IsBool b v) : v.toBool = .ok b := by
  rw [h]
  rfl

theorem not_isStr_null (s : String) : ¬ IsStr s null := nofun

theorem not_isBool_null (b : Bool) : ¬ IsBool b null := nofun

theorem IsNatBelow.toNatBelow_eq {limit n : Nat} (h : IsNatBelow limit n v) :
    v.toNatBelow limit = .ok n := by
  obtain ⟨rfl, hn⟩ := h
  have hrange : (0 : Int) ≤ n ∧ (n : Int) < limit := by omega
  rw [nat, toNatBelow, if_pos hrange, Int.toNat_natCast]

theorem ListOf.toListOf_eq {as : List α} {item : Json → Except DecodeError β}
    {read : α → Except DecodeError β} (h : ListOf P as v) (hitem : ∀ a v, P a v → item v = read a) :
    v.toListOf item = as.mapM read := by
  obtain ⟨h⟩ := h
  rw [toListOf]
  induction h with
  | nil => rfl
  | cons ha _ ih => rw [List.mapM_cons, List.mapM_cons, hitem _ _ ha, ih]

end Spelling

/-! ### The order of the members -/

theorem keepLast_eq_self {members : List (String × α)} (h : (members.map (·.1)).Nodup) :
    keepLast members = members := by
  induction members with
  | nil => rfl
  | cons m members ih =>
    obtain ⟨hm, hmembers⟩ := List.nodup_cons.mp h
    cases members with
    | nil => rfl
    | cons n rest =>
      have hne : m.1 ≠ n.1 := fun heq => hm (List.mem_cons.mpr (.inl heq))
      rw [keepLast, if_neg hne, ih hmembers]

theorem sortMembers_perm {members : List (String × α)} (h : (members.map (·.1)).Nodup) :
    (sortMembers members).Perm members := by
  have hperm := List.mergeSort_perm members fun m n => !decide (n.1 < m.1)
  rw [sortMembers, keepLast_eq_self ((hperm.map (·.1)).nodup_iff.mpr h)]
  exact hperm

theorem sortedItems_eq_map (items : List Json) : sortedItems items = items.map sorted := by
  induction items with
  | nil => rfl
  | cons v items ih => rw [sortedItems, ih, List.map_cons]

theorem sortedMembers_eq_map (members : List (String × Json)) :
    sortedMembers members = members.map fun m => (m.1, m.2.sorted) := by
  induction members with
  | nil => rfl
  | cons m members ih => rw [sortedMembers, ih, List.map_cons]

theorem nodup_sortedMembers {members : List (String × Json)} (h : (members.map (·.1)).Nodup) :
    ((sortedMembers members).map (·.1)).Nodup := by
  rw [sortedMembers_eq_map, List.map_map]
  exact h

theorem IsRecord.sorted (h : v.IsRecord declared) : v.sorted.IsRecord declared := by
  cases v with
  | obj members =>
    have hnodup := nodup_sortedMembers h
    exact ((sortMembers_perm hnodup).map (·.1)).nodup_iff.mpr hnodup
  | arr items =>
    rw [Json.sorted, IsRecord, sortedItems_eq_map, List.length_map]
    exact h
  | _ => exact h.elim

/-- **Sorting keeps the members** and sorts what is in them. -/
theorem IsRecord.field_sorted (h : v.IsRecord declared) (name : String) :
    v.sorted.field declared name = (v.field declared name).map Json.sorted := by
  cases v with
  | obj members =>
    -- Names are different, so moving a member does not change what is found under its name.
    have hnodup := nodup_sortedMembers h
    have hperm := sortMembers_perm hnodup
    have hlookup := lookup_eq_of_perm ((hperm.map (·.1)).nodup_iff.mpr hnodup) hperm name
    refine hlookup.trans ?_
    rw [sortedMembers_eq_map, lookup_map_snd]
    rfl
  | arr items =>
    rw [Json.sorted, field, field, fields, fields, sortedItems_eq_map, List.zip_map_right,
      ← lookup_map_snd]
    rfl
  | _ => exact h.elim

/-- **A relation that does not depend on the order of members.** -/
def OrderFree (P : α → Json → Prop) : Prop := ∀ a v, P a v → P a v.sorted

section OrderFree

variable {P : α → Json → Prop} {a d : α} {a? : Option α} {v? : Option Json}

theorem orderFree_isStr : OrderFree IsStr := by
  rintro s _ rfl
  rfl

theorem orderFree_isBool : OrderFree IsBool := by
  rintro b _ rfl
  rfl

theorem orderFree_isNatBelow (limit : Nat) : OrderFree (IsNatBelow limit) := by
  rintro n _ ⟨rfl, hn⟩
  exact ⟨rfl, hn⟩

theorem Given.sorted (hP : OrderFree P) (h : Given P a v?) : Given P a (v?.map Json.sorted) := by
  obtain ⟨h⟩ := h
  exact ⟨hP _ _ h⟩

theorem Nullable.sorted (hP : OrderFree P) (h : Nullable P a? v?) :
    Nullable P a? (v?.map Json.sorted) := by
  cases h with
  | missing => exact .missing
  | null => exact .null
  | given h => exact .given (hP _ _ h)

theorem Defaulted.sorted (hP : OrderFree P) (h : Defaulted P d a v?) :
    Defaulted P d a (v?.map Json.sorted) := by
  cases h with
  | missing => exact .missing
  | given h => exact .given (hP _ _ h)

theorem OrderFree.listOf (hP : OrderFree P) : OrderFree (ListOf P) := by
  rintro as _ ⟨h⟩
  rw [Json.sorted, sortedItems_eq_map]
  exact ⟨List.forall₂_map_right_iff.mpr (h.imp hP)⟩

end OrderFree

end PatternQuery.Json
