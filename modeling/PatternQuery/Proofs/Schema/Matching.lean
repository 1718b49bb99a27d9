import Mathlib.Data.Prod.Lex
import Mathlib.Order.Bounds.Basic
import PatternQuery.Schema.Matching

/-!
# A matcher finds the least match

Rules and schemas are numbered by their positions, and the pairs of a rule and a schema that it fits are
compared by the rule first. A matcher finds the least such pair, or nothing if there is none
(`Matcher.resolve_eq_some_iff`, `Matcher.resolve_eq_none_iff`).

So rules behind the others change nothing where something is found, and schemas behind the others only let
an earlier rule find one of them (`Matcher.finds_resolve`). The standard rules begin with the one that
compares ids, so a schema with the requested id is always found.
-/

namespace PatternQuery

/-! ### The three rules -/

namespace MatchRule

variable {requested : String} {s : Schema}

theorem exact_fits_iff : exact.fits requested s = true ↔ s.id = requested := beq_iff_eq

theorem hyphenInsensitive_fits_iff : hyphenInsensitive.fits requested s = true ↔
    withoutHyphens requested = withoutHyphens s.id := beq_iff_eq

theorem containment_fits_iff : containment.fits requested s = true ↔
    requested ≠ "" ∧ s.id ≠ "" ∧
      (requested.toList <:+: s.id.toList ∨ s.id.toList <:+: requested.toList) := by
  rw [containment]
  simp only [Bool.and_eq_true, Bool.or_eq_true, Bool.not_eq_true', Text.contains_iff, and_assoc,
    ← Bool.not_eq_true, String.isEmpty_iff, ne_eq]

end MatchRule

namespace Matcher

variable {rules : Matcher} {requested : String} {schemas : List Schema} {found : SchemaMatch} {k i : Nat}

/-- **The pairs of a rule and a schema that it fits,** as positions; the rule decides which comes first. -/
def fitting (rules : Matcher) (requested : String) (schemas : List Schema) : Set (Nat ×ₗ Nat) :=
  {p | ∃ rule s, rules[(ofLex p).1]? = some rule ∧ schemas[(ofLex p).2]? = some s ∧
    rule.fits requested s = true}

/-- **What is found,** and the position of the rule that finds it: the least pair. It is reported under the
name of this rule. -/
def FoundAt (rules : Matcher) (requested : String) (schemas : List Schema) (k : Nat) (found : SchemaMatch) :
    Prop :=
  rules[k]? = some found.rule ∧ IsLeast (fitting rules requested schemas) (toLex (k, found.index))

/-! ### The least pair -/

theorem toLex_mem_fitting : toLex (k, i) ∈ fitting rules requested schemas ↔
    ∃ rule s, rules[k]? = some rule ∧ schemas[i]? = some s ∧ rule.fits requested s = true := Iff.rfl

/-- No pair comes before that of a rule and the first schema that it fits, if the rules before it fit none. -/
theorem mem_lowerBounds_fitting {earlier later : Matcher} {rule : MatchRule}
    (hearlier : ∀ r ∈ earlier, ∀ s ∈ schemas, r.fits requested s = false)
    (hfirst : ∀ j s, j < i → schemas[j]? = some s → rule.fits requested s ≠ true) :
    toLex (earlier.length, i) ∈ lowerBounds (fitting (earlier ++ rule :: later) requested schemas) := by
  rintro p ⟨rule', s, hrule', hs, hfits⟩
  refine Prod.Lex.le_iff.mpr ?_
  obtain hk | hk | hk := Nat.lt_trichotomy (ofLex p).1 earlier.length
  · rw [List.getElem?_append_left hk] at hrule'
    have hnot := hearlier rule' (List.mem_of_getElem? hrule') s (List.mem_of_getElem? hs)
    exact absurd hfits (ne_true_of_eq_false hnot)
  · rw [hk, List.getElem?_append_right le_rfl, Nat.sub_self, List.getElem?_cons_zero] at hrule'
    obtain rfl := Option.some.inj hrule'
    exact .inr ⟨hk.symm, Nat.le_of_not_lt fun hlt => hfirst _ s hlt hs hfits⟩
  · exact .inl hk

theorem exists_foundAt (h : rules.resolve requested schemas = some found) :
    ∃ k, rules.FoundAt requested schemas k found := by
  obtain ⟨earlier, rule, later, rfl, hrule, hearlier⟩ := List.findSome?_eq_some_iff.mp h
  obtain ⟨i, hi, rfl⟩ := Option.map_eq_some_iff.mp hrule
  obtain ⟨hlt, hfits, hfirst⟩ := List.findIdx?_eq_some_iff_getElem.mp hi
  have hat : (earlier ++ rule :: later)[earlier.length]? = some rule := by
    rw [List.getElem?_append_right le_rfl, Nat.sub_self, List.getElem?_cons_zero]
  refine ⟨earlier.length, hat, ⟨rule, schemas[i], hat, List.getElem?_eq_getElem hlt, hfits⟩,
    mem_lowerBounds_fitting (fun r hr => ?_) fun j s hj hs => ?_⟩
  · exact List.findIdx?_eq_none_iff.mp (Option.map_eq_none_iff.mp (hearlier r hr))
  · obtain ⟨_, rfl⟩ := List.getElem?_eq_some_iff.mp hs
    exact hfirst j hj

/-- At most one schema is found, by one rule. -/
theorem FoundAt.unique {k' : Nat} {found' : SchemaMatch} (h : rules.FoundAt requested schemas k found)
    (h' : rules.FoundAt requested schemas k' found') : found = found' := by
  obtain ⟨hrule, hleast⟩ := h
  obtain ⟨hrule', hleast'⟩ := h'
  obtain ⟨rfl, hindex⟩ := Prod.mk.inj (toLex.injective (hleast.unique hleast'))
  obtain ⟨index, rule⟩ := found
  obtain ⟨index', rule'⟩ := found'
  obtain rfl : index = index' := hindex
  obtain rfl : rule = rule' := Option.some.inj (hrule.symm.trans hrule')
  rfl

/-- **Nothing is found** iff no rule fits any schema. -/
theorem resolve_eq_none_iff : rules.resolve requested schemas = none ↔
    ∀ rule ∈ rules, ∀ s ∈ schemas, rule.fits requested s = false := by
  rw [resolve, List.findSome?_eq_none_iff]
  simp only [Option.map_eq_none_iff, List.findIdx?_eq_none_iff]

/-- Where there is a pair, something is found. -/
theorem exists_resolve_of_mem {p : Nat ×ₗ Nat} (h : p ∈ fitting rules requested schemas) :
    ∃ found, rules.resolve requested schemas = some found := by
  obtain ⟨rule, s, hrule, hs, hfits⟩ := h
  refine Option.ne_none_iff_exists'.mp fun hnone => ne_true_of_eq_false ?_ hfits
  exact resolve_eq_none_iff.mp hnone rule (List.mem_of_getElem? hrule) s (List.mem_of_getElem? hs)

/-- **What is found is the least pair.** -/
theorem resolve_eq_some_iff : rules.resolve requested schemas = some found ↔
    ∃ k, rules.FoundAt requested schemas k found := by
  constructor
  · exact exists_foundAt
  · rintro ⟨k, hfound⟩
    obtain ⟨found', hfound'⟩ := exists_resolve_of_mem hfound.2.1
    obtain ⟨k', hat'⟩ := exists_foundAt hfound'
    rw [hfound', hat'.unique hfound]

/-! ### More rules and more schemas -/

theorem resolve_append_rules (more : Matcher) (h : rules.resolve requested schemas = some found) :
    (rules ++ more).resolve requested schemas = some found := by
  rw [resolve] at h
  rw [resolve, List.findSome?_append, h, Option.some_or]

theorem fitting_append_schemas (more : List Schema) (hi : i < schemas.length) :
    toLex (k, i) ∈ fitting rules requested (schemas ++ more) ↔
      toLex (k, i) ∈ fitting rules requested schemas := by
  rw [toLex_mem_fitting, toLex_mem_fitting, List.getElem?_append_left hi]

theorem lt_length_of_mem_fitting (h : toLex (k, i) ∈ fitting rules requested schemas) :
    i < schemas.length := by
  obtain ⟨rule, s, -, hs, -⟩ := toLex_mem_fitting.mp h
  exact (List.getElem?_eq_some_iff.mp hs).1

/-- **Schemas behind the others** are found only by an earlier rule. -/
theorem resolve_append_schemas (more : List Schema) (h : rules.FoundAt requested schemas k found) :
    ∃ found', rules.resolve requested (schemas ++ more) = some found' ∧
      (found' = found ∨ schemas.length ≤ found'.index ∧
        ∃ k' < k, rules.FoundAt requested (schemas ++ more) k' found') := by
  have hlt := lt_length_of_mem_fitting h.2.1
  have hmem := (fitting_append_schemas more hlt).mpr h.2.1
  obtain ⟨found', hfound'⟩ := exists_resolve_of_mem hmem
  obtain ⟨k', hat'⟩ := exists_foundAt hfound'
  refine ⟨found', hfound', ?_⟩
  have hle := hat'.2.2 hmem
  by_cases hlt' : found'.index < schemas.length
  · -- Both pairs are pairs of the old list, and the least of them.
    have hle' := h.2.2 ((fitting_append_schemas more hlt').mp hat'.2.1)
    have hold : rules.FoundAt requested schemas k' found' := ⟨hat'.1, le_antisymm hle hle' ▸ h.2⟩
    exact .inl (hold.unique h)
  · refine .inr ⟨Nat.le_of_not_lt hlt', k', ?_, hat'⟩
    obtain hk | ⟨-, hindex⟩ := Prod.Lex.toLex_le_toLex.mp hle
    · exact hk
    · exact absurd (hindex.trans_lt hlt) hlt'

/-! ### The standard rules -/

/-- **A schema with the requested id is found,** the first one with it. -/
theorem standard_resolve (h : ∃ s ∈ schemas, s.id = requested) :
    ∃ i s, standard.resolve requested schemas = some ⟨i, .exact⟩ ∧ schemas[i]? = some s ∧
      s.id = requested ∧ ∀ j t, j < i → schemas[j]? = some t → t.id ≠ requested := by
  obtain ⟨s, hs, hid⟩ := h
  have hsome : (schemas.findIdx? (MatchRule.exact.fits requested)).isSome := by
    rw [List.findIdx?_isSome, List.any_eq_true]
    exact ⟨s, hs, MatchRule.exact_fits_iff.mpr hid⟩
  obtain ⟨i, hi⟩ := Option.isSome_iff_exists.mp hsome
  obtain ⟨hlt, hat, hfirst⟩ := List.findIdx?_eq_some_iff_getElem.mp hi
  refine ⟨i, schemas[i], ?_, List.getElem?_eq_getElem hlt,
    MatchRule.exact_fits_iff.mp hat, fun j t hj ht => ?_⟩
  · rw [resolve, standard, List.findSome?_cons, hi]
    rfl
  · obtain ⟨hj', rfl⟩ := List.getElem?_eq_some_iff.mp ht
    exact fun heq => hfirst j hj (MatchRule.exact_fits_iff.mpr heq)

/-- **Nothing is found** iff no id is equal up to hyphens, contains the other or is contained in it. What the
first rule fits is fitted by the second. -/
theorem standard_resolve_eq_none_iff : standard.resolve requested schemas = none ↔
    ∀ s ∈ schemas, MatchRule.withoutHyphens requested ≠ MatchRule.withoutHyphens s.id ∧
      (requested ≠ "" → s.id ≠ "" →
        ¬ requested.toList <:+: s.id.toList ∧ ¬ s.id.toList <:+: requested.toList) := by
  rw [resolve_eq_none_iff, standard]
  simp only [List.forall_mem_cons, List.not_mem_nil, ← Bool.not_eq_true, MatchRule.exact_fits_iff,
    MatchRule.hyphenInsensitive_fits_iff, MatchRule.containment_fits_iff]
  constructor
  · rintro ⟨-, hhyphens, hcontains, -⟩ s hs
    refine ⟨hhyphens s hs, fun hrequested hid => not_or.mp fun hor => ?_⟩
    exact hcontains s hs ⟨hrequested, hid, hor⟩
  · intro h
    refine ⟨fun s hs heq => ?_, fun s hs => (h s hs).1, fun s hs hcontains => ?_, by simp⟩
    · exact (h s hs).1 (by rw [heq])
    · obtain ⟨hrequested, hid, hor⟩ := hcontains
      exact not_or.mpr ((h s hs).2 hrequested hid) hor

/-- **What a matcher finds.** -/
structure Finds (rules : Matcher) (requested : String) (schemas : List Schema) : Prop where
  none_iff : rules.resolve requested schemas = none ↔
    ∀ rule ∈ rules, ∀ s ∈ schemas, rule.fits requested s = false
  /-- The least pair of a rule and a schema that it fits is found. -/
  some_iff : ∀ found, rules.resolve requested schemas = some found ↔
    ∃ k, rules.FoundAt requested schemas k found
  /-- Rules behind the others change nothing where something is found. -/
  more_rules : ∀ found more, rules.resolve requested schemas = some found →
    (rules ++ more).resolve requested schemas = some found
  /-- With schemas behind the others the same is found, or one of them, and by an earlier rule. -/
  more_schemas : ∀ found more k, rules.FoundAt requested schemas k found →
    ∃ found', rules.resolve requested (schemas ++ more) = some found' ∧
      (found' = found ∨ schemas.length ≤ found'.index ∧
        ∃ k' < k, rules.FoundAt requested (schemas ++ more) k' found')
  /-- With the standard rules a schema with the requested id is found, the first one with it. -/
  standard : (∃ s ∈ schemas, s.id = requested) →
    ∃ i s, Matcher.standard.resolve requested schemas = some ⟨i, .exact⟩ ∧ schemas[i]? = some s ∧
      s.id = requested ∧ ∀ j t, j < i → schemas[j]? = some t → t.id ≠ requested
  /-- With the standard rules nothing is found iff no id is equal up to hyphens, contains the other or is
  contained in it. -/
  standard_none_iff : Matcher.standard.resolve requested schemas = none ↔
    ∀ s ∈ schemas, MatchRule.withoutHyphens requested ≠ MatchRule.withoutHyphens s.id ∧
      (requested ≠ "" → s.id ≠ "" →
        ¬ requested.toList <:+: s.id.toList ∧ ¬ s.id.toList <:+: requested.toList)

/-- **A matcher finds the least match,** whatever its rules are. -/
theorem finds_resolve (rules : Matcher) (requested : String) (schemas : List Schema) :
    rules.Finds requested schemas where
  none_iff := resolve_eq_none_iff
  some_iff _ := resolve_eq_some_iff
  more_rules _ more h := resolve_append_rules more h
  more_schemas _ more _ h := resolve_append_schemas more h
  standard := standard_resolve
  standard_none_iff := standard_resolve_eq_none_iff

end Matcher

end PatternQuery
