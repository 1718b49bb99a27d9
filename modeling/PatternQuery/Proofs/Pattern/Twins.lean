import PatternQuery.Proofs.Pattern.Isomorphism

/-!
# Twins

Two hops of a pattern are twins if they start from the same occurrence, agree in everything that is said
of them, and lead to isomorphic subtrees. Twins can be exchanged without changing the query, so a
pattern with twins has more than one renaming to its canonical form.

Without twins there is only one. A renaming of the pattern to itself keeps the root; and if it keeps
the source of a hop but not its target, then it takes the hop to a twin, because it carries the subtree
below the one target onto the subtree below the other (`Iso.subtreeIso`). So it keeps every key, by
induction on the order of introduction (`Iso.apply_eq_self`).
-/

namespace PatternQuery.Pattern

variable {p q : Pattern} {φ ψ : String → String} {key k : String}

/-- One occurrence is introduced by a hop that starts from the other. -/
def Child (p : Pattern) (key key' : String) : Prop :=
  ∃ l ∈ p.links, l.source = key ∧ l.target = key'

/-- One occurrence is in the subtree of the other. -/
def Below (p : Pattern) : String → String → Prop := Relation.ReflTransGen p.Child

/-- **A renaming that carries one subtree onto another.** -/
structure SubtreeIso (p : Pattern) (key key' : String) (ψ : String → String) : Prop where
  bijOn : Set.BijOn ψ {k | p.Below key k} {k | p.Below key' k}
  root_eq : ψ key = key'
  schema_eq : ∀ k, p.Below key k → p.schemaOf? (ψ k) = p.schemaOf? k
  mem_links_iff : ∀ l, (l ∈ p.links ∧ p.Below key' l.source) ↔
    ∃ l₀ ∈ p.links, p.Below key l₀.source ∧ l₀.rename ψ = l

/-- **A pattern with twins:** two hops from one occurrence, with the same relation, optionality and
target schema, and isomorphic subtrees below their targets. -/
def HasTwins (p : Pattern) : Prop :=
  ∃ l ∈ p.links, ∃ l' ∈ p.links, l ≠ l' ∧ l.source = l'.source ∧ l.relation = l'.relation ∧
    l.optional = l'.optional ∧ p.schemaOf? l.target = p.schemaOf? l'.target ∧
      ∃ ψ, p.SubtreeIso l.target l'.target ψ

/-! ### Subtrees -/

theorem Below.mem_keys (h : p.Below key k) (hkey : key ∈ p.keys) : k ∈ p.keys := by
  cases h with
  | refl => exact hkey
  | tail _ hchild =>
    obtain ⟨l, hl, -, rfl⟩ := hchild
    exact target_mem hl

namespace Iso

theorem below (h : p.Iso q φ) (hbelow : p.Below key k) : q.Below (φ key) (φ k) := by
  refine hbelow.lift φ fun a b hchild => ?_
  obtain ⟨l, hl, rfl, rfl⟩ := hchild
  exact ⟨l.rename φ, (h.mem_links_iff _).mpr (List.mem_map_of_mem hl), rfl, rfl⟩

theorem exists_below (hp : p.Linked) (h : p.Iso q φ) (hkey : key ∈ p.keys)
    (hbelow : q.Below (φ key) k) : ∃ k₀, p.Below key k₀ ∧ φ k₀ = k := by
  induction hbelow with
  | refl => exact ⟨key, .refl, rfl⟩
  | tail _ hchild ih =>
    obtain ⟨k₀, hk₀, rfl⟩ := ih
    obtain ⟨l, hl, hsource, rfl⟩ := hchild
    obtain ⟨l₀, hl₀, rfl⟩ := List.mem_map.mp ((h.mem_links_iff l).mp hl)
    have heq : l₀.source = k₀ := h.bijOn.injOn (hp.source_mem hl₀) (hk₀.mem_keys hkey) hsource
    exact ⟨l₀.target, hk₀.tail ⟨l₀, hl₀, heq, rfl⟩, rfl⟩

/-- **A renaming of a pattern to itself carries subtrees onto subtrees.** -/
theorem subtreeIso (hp : p.Linked) (h : p.Iso p φ) (hkey : key ∈ p.keys) :
    p.SubtreeIso key (φ key) φ where
  bijOn := by
    refine ⟨fun k hk => h.below hk, fun k hk k' hk' heq => ?_, fun k hk => h.exists_below hp hkey hk⟩
    exact h.bijOn.injOn (Below.mem_keys hk hkey) (Below.mem_keys hk' hkey) heq
  root_eq := rfl
  schema_eq k hk := h.schema_eq k (hk.mem_keys hkey)
  mem_links_iff l := by
    constructor
    · rintro ⟨hl, hbelow⟩
      obtain ⟨l₀, hl₀, rfl⟩ := List.mem_map.mp ((h.mem_links_iff l).mp hl)
      obtain ⟨k, hk, heq⟩ := h.exists_below hp hkey hbelow
      obtain rfl : k = l₀.source :=
        h.bijOn.injOn (hk.mem_keys hkey) (hp.source_mem hl₀) heq
      exact ⟨l₀, hl₀, hk, rfl⟩
    · rintro ⟨l₀, hl₀, hbelow, rfl⟩
      exact ⟨(h.mem_links_iff _).mpr (List.mem_map_of_mem hl₀), h.below hbelow⟩

/-! ### Renamings of a pattern without twins -/

theorem root_apply_eq (h : p.Iso p φ) {o : Occurrence} (ho : Hop.root o ∈ p) : φ o.key = o.key := by
  obtain ⟨o₁, o₂, h₁, h₂, hkey⟩ := h.root_eq
  obtain rfl : o₁ = o₂ := by simpa using h₁.symm.trans h₂
  have hmem : Hop.root o ∈ p.filter Hop.isRoot := List.mem_filter.mpr ⟨ho, rfl⟩
  rw [h₁, List.mem_singleton] at hmem
  rw [Hop.root.inj hmem, ← hkey]

/-- **A pattern without twins has no renaming to itself but the identity.** -/
theorem apply_eq_self (hp : p.InOrder) (htwins : ¬ p.HasTwins) (h : p.Iso p φ)
    (hkey : key ∈ p.keys) : φ key = key := by
  -- The induction is on the place where the key is introduced.
  induction hn : p.keys.idxOf key using Nat.strong_induction_on generalizing key with
  | _ n ih =>
    obtain ⟨hop, hhop, rfl⟩ := List.mem_map.mp hkey
    cases hop with
    | root o => exact h.root_apply_eq hhop
    | edge source relation target optional =>
      by_contra hne
      have hsource : φ source.key = source.key :=
        ih _ (hn ▸ hp.idxOf_source_lt hhop) (hp.source_key_mem hhop) rfl
      let l : Link := ⟨source.key, relation, target.key, optional⟩
      have hl : l ∈ p.links := Pattern.mem_links_iff.mpr ⟨source, target, hhop, rfl, rfl⟩
      have hl' : l.rename φ ∈ p.links := (h.mem_links_iff _).mpr (List.mem_map_of_mem hl)
      -- The hop and the one it is taken to are twins.
      refine htwins ⟨l, hl, l.rename φ, hl', fun heq => ?_, hsource.symm, rfl, rfl, ?_, φ, ?_⟩
      · exact hne (congrArg Link.target heq).symm
      · exact (h.schema_eq _ hkey).symm
      · exact h.subtreeIso hp.toLinked hkey

/-- **Without twins there is only one renaming to another pattern.** -/
theorem eqOn (hp : p.InOrder) (htwins : ¬ p.HasTwins) (hφ : p.Iso q φ) (hψ : p.Iso q ψ)
    (hkey : key ∈ p.keys) : φ key = ψ key := by
  obtain ⟨back, hback, hinv⟩ := hψ.symm hp.toLinked
  have hself : back (φ key) = key := (hφ.trans hback).apply_eq_self hp htwins hkey
  rw [← hinv.2 (hφ.bijOn.mapsTo hkey), hself]

end Iso

end PatternQuery.Pattern
