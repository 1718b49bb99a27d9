import Mathlib.Data.List.Nodup
import Mathlib.Data.Set.Function

/-!
# Lists whose entries have different keys

Nodes are told apart by their ids, hops by the keys they introduce, columns by field and occurrence.
Where keys are different, an entry is found by its key, stands where its key stands, and a function
that permutes keys is a bijection.
-/

namespace PatternQuery

variable {α β κ : Type} [BEq κ] [LawfulBEq κ] {key : α → κ}

/-- Where keys are different, searching for the key of an entry finds the entry. -/
theorem find?_key_of_nodup {l : List α} (h : (l.map key).Nodup) {a : α}
    (ha : a ∈ l) : l.find? (key · == key a) = some a := by
  have hsome : (l.find? (key · == key a)).isSome := by
    rw [List.find?_isSome]
    exact ⟨a, ha, beq_self_eq_true _⟩
  obtain ⟨b, hb⟩ := Option.isSome_iff_exists.mp hsome
  have hkey : key b = key a := by simpa using List.find?_some hb
  rw [hb, List.inj_on_of_nodup_map h (List.mem_of_find?_eq_some hb) ha hkey]

/-- Looking up the members of a list without repetition in its pairing with another. -/
theorem map_lookup_zip {l : List κ} {l' : List β} (h : l.Nodup)
    (hlen : l.length = l'.length) : (l.map fun u => (l.zip l').lookup u) = l'.map some := by
  induction l generalizing l' with
  | nil => simp [List.length_eq_zero_iff.mp hlen.symm]
  | cons u l ih =>
    cases l' with
    | nil => simp at hlen
    | cons o l' =>
      obtain ⟨hu, hl⟩ := List.nodup_cons.mp h
      rw [List.zip_cons_cons, List.map_cons, List.lookup_cons_self, List.map_cons,
        ← ih hl (by simpa using hlen)]
      congr 1
      refine List.map_congr_left fun v hv => ?_
      have hne : (v == u) = false := by
        rw [beq_eq_false_iff_ne]
        rintro rfl
        exact hu hv
      rw [List.lookup_cons, hne]

/-- Where keys are different, looking a key up finds its entry. -/
theorem lookup_eq_some_iff_mem {l : List (κ × β)} (h : (l.map (·.1)).Nodup) {k : κ} {b : β} :
    l.lookup k = some b ↔ (k, b) ∈ l := by
  induction l with
  | nil => simp
  | cons entry l ih =>
    obtain ⟨k', b'⟩ := entry
    obtain ⟨hk', hl⟩ := List.nodup_cons.mp h
    by_cases hk : k = k'
    · subst hk
      have hnot : (k, b) ∉ l := fun hmem => hk' (List.mem_map_of_mem (f := (·.1)) hmem)
      simp [hnot, eq_comm]
    · rw [List.lookup_cons, beq_eq_false_iff_ne.mpr hk]
      simp [ih hl, hk]

/-- Where keys are different, the entry that is looked up is the only one with its key. -/
theorem filter_key_eq_singleton {l : List (κ × β)} (h : (l.map (·.1)).Nodup) {k : κ} {b : β}
    (hb : l.lookup k = some b) : l.filter (·.1 == k) = [(k, b)] := by
  induction l with
  | nil => exact absurd hb (by simp)
  | cons entry l ih =>
    obtain ⟨k', b'⟩ := entry
    obtain ⟨hk', hl⟩ := List.nodup_cons.mp h
    rw [List.lookup_cons] at hb
    by_cases hk : k = k'
    · subst hk
      have hnone : l.filter (·.1 == k) = [] := by
        rw [List.filter_eq_nil_iff]
        intro e he heq
        exact hk' (List.mem_map.mpr ⟨e, he, by simpa using heq⟩)
      obtain rfl : b' = b := by simpa using hb
      rw [List.filter_cons_of_pos (by simp), hnone]
    · rw [beq_eq_false_iff_ne.mpr hk] at hb
      rw [List.filter_cons_of_neg (by simpa using Ne.symm hk), ih hl hb]

/-- Where keys are different, the order of the entries does not matter for looking up. -/
theorem lookup_eq_of_perm {l l' : List (κ × β)} (h : (l.map (·.1)).Nodup) (hperm : l.Perm l')
    (k : κ) : l.lookup k = l'.lookup k := by
  have h' : (l'.map (·.1)).Nodup := (hperm.map _).nodup_iff.mp h
  refine Option.ext fun b => ?_
  rw [lookup_eq_some_iff_mem h, lookup_eq_some_iff_mem h', hperm.mem_iff]

/-- Where the entries of a key are taken away, the others are found as before. -/
theorem lookup_filter_ne (l : List (κ × β)) (k k' : κ) :
    (l.filter (·.1 != k)).lookup k' = if k' == k then none else l.lookup k' := by
  induction l with
  | nil => simp
  | cons entry l ih =>
    by_cases hk : entry.1 = k
    · rw [List.filter_cons_of_neg (by simp [hk]), ih, List.lookup_cons, hk]
      cases k' == k <;> rfl
    · rw [List.filter_cons_of_pos (by simpa using hk), List.lookup_cons, List.lookup_cons, ih]
      by_cases hk' : k' = entry.1
      · rw [hk', beq_self_eq_true, beq_false_of_ne hk]
        rfl
      · rw [beq_false_of_ne hk']

/-- Lists that differ at most under some keys are looked up alike under all others. -/
theorem lookup_eq_of_forall₂ (P : κ → Prop) {l l' : List (κ × β)}
    (h : List.Forall₂ (fun e e' => e.1 = e'.1 ∧ (P e.1 → e.2 = e'.2)) l l') {k : κ} (hk : P k) :
    l.lookup k = l'.lookup k := by
  induction h with
  | nil => rfl
  | @cons e e' rest rest' he _ ih =>
    obtain ⟨k', b⟩ := e
    obtain ⟨k'', b'⟩ := e'
    obtain ⟨rfl, hb⟩ := he
    rw [List.lookup_cons, List.lookup_cons, ih]
    cases heq : k == k' with
    | false => rfl
    | true => exact congrArg some (hb (eq_of_beq heq ▸ hk))

/-- Changing all values changes what is looked up. -/
theorem lookup_map_snd {κ' γ : Type} [BEq κ'] (f : β → γ) (l : List (κ' × β)) (k : κ') :
    (l.map fun entry => (entry.1, f entry.2)).lookup k = (l.lookup k).map f := by
  induction l with
  | nil => rfl
  | cons entry l ih =>
    rw [List.map_cons, List.lookup_cons, List.lookup_cons, ih]
    cases k == entry.1 <;> rfl

/-- Where keys are different, an entry stands where its key is found. -/
theorem zipIdx_eq_map_idxOf_key {l : List α} (h : (l.map key).Nodup) :
    l.zipIdx = l.map fun a => (a, (l.map key).idxOf (key a)) := by
  refine List.ext_getElem (by simp) fun i hi _ => ?_
  have hlt : i < l.length := by simpa using hi
  have hidx := h.idxOf_getElem i (by simpa using hlt)
  rw [List.getElem_map] at hidx
  simp [List.getElem_zipIdx, hidx]

/-- In a list without repetition every member stands at the first position where it is found. -/
theorem zipIdx_eq_map_idxOf {l : List κ} (h : l.Nodup) :
    l.zipIdx = l.map fun a => (a, l.idxOf a) := by
  have hkey : (l.map fun a : κ => a).Nodup := by rwa [List.map_id']
  have := zipIdx_eq_map_idxOf_key hkey
  rwa [List.map_id'] at this

theorem idxOf?_eq_some_idxOf {l : List κ} {a : κ} (ha : a ∈ l) : l.idxOf? a = some (l.idxOf a) := by
  obtain ⟨i, hi⟩ := Option.isSome_iff_exists.mp (List.isSome_idxOf?.mpr ha)
  rw [List.idxOf_eq_getD_idxOf?, hi, Option.getD_some]

/-- A function that takes no other member to the same value keeps the position of a member. -/
theorem idxOf?_map {κ' : Type} [BEq κ'] [LawfulBEq κ'] {φ : κ → κ'} {l : List κ} {a : κ}
    (hφ : ∀ b ∈ l, φ b = φ a → b = a) : (l.map φ).idxOf? (φ a) = l.idxOf? a := by
  induction l with
  | nil => rfl
  | cons b l ih =>
    have hhead : (φ b == φ a) = (b == a) := by
      rw [Bool.eq_iff_iff, beq_iff_eq, beq_iff_eq]
      exact ⟨hφ b List.mem_cons_self, congrArg φ⟩
    rw [List.map_cons, List.idxOf?_cons, List.idxOf?_cons, hhead,
      ih fun b' hb' => hφ b' (List.mem_cons_of_mem _ hb')]

theorem idxOf_map {κ' : Type} [BEq κ'] [LawfulBEq κ'] {φ : κ → κ'} {l : List κ} {a : κ}
    (hφ : ∀ b ∈ l, φ b = φ a → b = a) : (l.map φ).idxOf (φ a) = l.idxOf a := by
  rw [List.idxOf_eq_getD_idxOf?, List.idxOf_eq_getD_idxOf?, idxOf?_map hφ, List.length_map]

/-- A function whose values on a list are the members of another list, each once, is a bijection
between the members. -/
theorem bijOn_of_map_perm {φ : String → String} {l l' : List String} (h : (l.map φ).Perm l')
    (hnd : l'.Nodup) : Set.BijOn φ {a | a ∈ l} {b | b ∈ l'} := by
  refine ⟨fun a ha => h.mem_iff.mp (List.mem_map_of_mem ha), ?_, fun b hb => ?_⟩
  · have hinj := List.inj_on_of_nodup_map (h.nodup_iff.mpr hnd)
    exact fun a ha a' ha' heq => hinj ha ha' heq
  · exact List.mem_map.mp (h.mem_iff.mpr hb)

/-- Distributing a list over keys without repetition keeps the entries that have one of the keys. -/
theorem flatMap_filter_perm (l : List α) (key : α → κ) {keys : List κ} (h : keys.Nodup) :
    (keys.flatMap fun k => l.filter (key · == k)).Perm (l.filter (key · ∈ keys)) := by
  induction keys with
  | nil => simp
  | cons k keys ih =>
    obtain ⟨hk, hkeys⟩ := List.nodup_cons.mp h
    rw [List.flatMap_cons]
    refine ((ih hkeys).append_left _).trans ?_
    -- Entries with key `k` are taken out of those with a key in `k :: keys`.
    have hfst : l.filter (key · == k) = (l.filter (key · ∈ k :: keys)).filter (key · == k) := by
      rw [List.filter_filter]
      refine List.filter_congr fun x _ => ?_
      by_cases hx : key x = k <;> simp [hx]
    have hsnd : l.filter (key · ∈ keys) = (l.filter (key · ∈ k :: keys)).filter
        (fun x => !(key x == k)) := by
      rw [List.filter_filter]
      refine List.filter_congr fun x _ => ?_
      by_cases hx : key x = k
      · simp [hx, hk]
      · simp [hx]
    rw [hfst, hsnd]
    exact List.filter_append_perm _ _

/-- Distributing a list over all its keys keeps every entry. -/
theorem flatMap_filter_perm_self {l : List α} {keys : List κ} (h : keys.Nodup)
    (hkeys : ∀ a ∈ l, key a ∈ keys) :
    (keys.flatMap fun k => l.filter (key · == k)).Perm l := by
  have hall : l.filter (key · ∈ keys) = l :=
    List.filter_eq_self.mpr fun a ha => decide_eq_true (hkeys a ha)
  have hperm := flatMap_filter_perm l key h
  rwa [hall] at hperm

end PatternQuery
