import PatternQuery.Proofs.Config.Valid
import PatternQuery.Proofs.Pattern.Stored
import PatternQuery.Proofs.Selection.Stored

/-!
# Stored configurations

Which JSON values spell a page, and which spell the parts of a configuration. The parts need not make
one: the columns may be refused, a hop may be incomplete, and the whole may not be valid. Columns and
hops are put together while the value is read, so the reading succeeds if the columns can be taken in
and the hops are complete (`Parts.SpelledBy.readRecord_eq`).

What is written for a configuration spells its parts, and so does a request that carries it, since the
members that are not known do not count.
-/

namespace PatternQuery

open Json (Given Defaulted ListOf OrderFree)

/-! ### Pages -/

namespace PageStrategy

variable {s : PageStrategy} {v : Json}

/-- **A value that spells a strategy:** its name, or an object with the name and null. -/
def SpelledBy (s : PageStrategy) (v : Json) : Prop := v = .str s.name ∨ v = .obj [(s.name, .null)]

theorem SpelledBy.ofJson_eq (h : s.SpelledBy v) : ofJson v = .ok s := by
  obtain rfl | rfl := h <;> cases s <;> rfl

theorem orderFree_spelledBy : OrderFree SpelledBy := by
  rintro s v (rfl | rfl)
  · exact .inl rfl
  · refine .inr ?_
    simp [Json.sorted, Json.sortedMembers, Json.object, Json.sortMembers, Json.keepLast]

end PageStrategy

namespace Pagination

/-- The members of a page, in the order in which an array gives them. -/
abbrev memberNames : List String := ["limit", "offset", "strategy"]

/-- One more than the greatest limit that is read. -/
abbrev limitBound : Nat := 0x100000000

/-- One more than the greatest offset that is read. -/
abbrev offsetBound : Nat := 0x10000000000000000

/-- **A page that can be stored:** both numbers are in the range of what is read. -/
structure InRange (p : Pagination) : Prop where
  limit_lt : p.limit < limitBound
  offset_lt : p.offset < offsetBound

/-- **A value that spells a page.** -/
structure SpelledBy (p : Pagination) (v : Json) : Prop where
  record : v.IsRecord memberNames
  limit : Given (Json.IsNatBelow limitBound) p.limit (v.field memberNames "limit")
  offset : Defaulted (Json.IsNatBelow offsetBound) 0 p.offset (v.field memberNames "offset")
  strategy : Defaulted PageStrategy.SpelledBy .offset p.strategy (v.field memberNames "strategy")

variable {p : Pagination} {v : Json}

/-- What a page record holds when the members in `has` have been read. -/
def draft (p : Pagination) (has : String → Bool) : Draft :=
  ⟨bif has "limit" then some p.limit else none, bif has "offset" then p.offset else 0,
    bif has "strategy" then p.strategy else .offset⟩

theorem SpelledBy.ofJson_eq (h : p.SpelledBy v) : ofJson v = .ok p := by
  refine (bind_of_eq_ok (Json.toRecord_eq_ok p.draft h.record (by decide) rfl
    fun has name w hw => ?_)).trans ?_
  · split
    · have hlimit : Json.IsNatBelow limitBound p.limit w := (hw ▸ h.limit).of_some
      rw [limitOfJson, hlimit.toNatBelow_eq]
      rfl
    · have hoffset : Json.IsNatBelow offsetBound p.offset w := (hw ▸ h.offset).of_some
      rw [offsetOfJson, hoffset.toNatBelow_eq]
      rfl
    · have hstrategy : PageStrategy.SpelledBy p.strategy w := (hw ▸ h.strategy).of_some
      rw [hstrategy.ofJson_eq]
      rfl
    · next hlimit hoffset hstrategy =>
      simp only [draft, eq_false hlimit, eq_false hoffset, eq_false hstrategy, decide_false,
        Bool.false_or]
      rfl
  · dsimp only [draft]
    rw [Json.required_of_given h.limit, h.offset.cond_eq, h.strategy.cond_eq]
    rfl

theorem orderFree_spelledBy : OrderFree SpelledBy := fun p v h => by
  refine ⟨h.record.sorted, ?_, ?_, ?_⟩
  · rw [h.record.field_sorted]
    exact h.limit.sorted (Json.orderFree_isNatBelow _)
  · rw [h.record.field_sorted]
    exact h.offset.sorted (Json.orderFree_isNatBelow _)
  · rw [h.record.field_sorted]
    exact h.strategy.sorted PageStrategy.orderFree_spelledBy

theorem InRange.spelledBy_toJson (h : p.InRange) : p.SpelledBy p.toJson := by
  have hrecord : Json.IsRecord memberNames p.toJson := by simp [toJson, Json.IsRecord]
  exact ⟨hrecord, ⟨rfl, h.limit_lt⟩, .given ⟨rfl, h.offset_lt⟩, .given (.inl rfl)⟩

end Pagination

/-! ### Configurations -/

namespace Config

/-- What a configuration record says. -/
structure Parts where
  columns : List Column
  hops : List Hop.Parts
  applyRBAC : Bool
  pagination : Pagination
  deriving Repr, DecidableEq

namespace Parts

/-- The members of a configuration, in the order in which an array gives them. -/
abbrev memberNames : List String := ["columns", "patterns", "applyRBAC", "pagination"]

/-- **A value that spells the parts of a configuration.** -/
structure SpelledBy (x : Parts) (v : Json) : Prop where
  record : v.IsRecord memberNames
  columns : Defaulted (ListOf Column.SpelledBy) [] x.columns (v.field memberNames "columns")
  hops : Given (ListOf Hop.Parts.SpelledBy) x.hops (v.field memberNames "patterns")
  applyRBAC : Defaulted Json.IsBool false x.applyRBAC (v.field memberNames "applyRBAC")
  pagination :
    Defaulted Pagination.SpelledBy .standard x.pagination (v.field memberNames "pagination")

variable {x : Parts} {p : Pattern} {s : ColumnSet} {v : Json}

theorem orderFree_spelledBy : OrderFree SpelledBy := fun x v h => by
  refine ⟨h.record.sorted, ?_, ?_, ?_, ?_⟩
  · rw [h.record.field_sorted]
    exact h.columns.sorted Column.orderFree_spelledBy.listOf
  · rw [h.record.field_sorted]
    exact h.hops.sorted Hop.Parts.orderFree_spelledBy.listOf
  · rw [h.record.field_sorted]
    exact h.applyRBAC.sorted Json.orderFree_isBool
  · rw [h.record.field_sorted]
    exact h.pagination.sorted Pagination.orderFree_spelledBy

/-! #### Reading -/

/-- What a configuration record holds when the members in `has` have been read, where `s` is what the
columns of the parts make, and `p` what the hops make. -/
def draft (x : Parts) (s : ColumnSet) (p : Pattern) (has : String → Bool) : Record :=
  ⟨bif has "columns" then s else .empty, bif has "patterns" then some p else none,
    bif has "applyRBAC" then x.applyRBAC else false,
    bif has "pagination" then x.pagination else .standard⟩

/-- **Reading a value that spells parts,** if the columns can be taken in and the hops are complete. -/
theorem SpelledBy.readRecord_eq (h : x.SpelledBy v) (hs : ColumnSet.ofColumns x.columns = .ok s)
    (hp : p.MadeOf x.hops) : readRecord v = .ok ⟨s, some p, x.applyRBAC, x.pagination⟩ := by
  refine (Json.toRecord_eq_ok (x.draft s p) h.record (by decide) rfl fun has name w hw => ?_).trans ?_
  · split
    · have hcolumns : ListOf Column.SpelledBy x.columns w := (hw ▸ h.columns).of_some
      rw [ColumnSet.ofJson_eq hcolumns, hs]
      rfl
    · have hhops : ListOf Hop.Parts.SpelledBy x.hops w := (hw ▸ h.hops).of_some
      rw [hp.ofJson_eq hhops]
      rfl
    · have hrbac : Json.IsBool x.applyRBAC w := (hw ▸ h.applyRBAC).of_some
      rw [hrbac.toBool_eq]
      rfl
    · have hpagination : Pagination.SpelledBy x.pagination w := (hw ▸ h.pagination).of_some
      rw [hpagination.ofJson_eq]
      rfl
    · next hcolumns hpatterns hrbac hpagination =>
      simp only [draft, eq_false hcolumns, eq_false hpatterns, eq_false hrbac, eq_false hpagination,
        decide_false, Bool.false_or]
      rfl
  · -- Without the member there are no columns, and taking in none gives the empty set.
    have hcolumns : (bif (v.field memberNames "columns").isSome then s else .empty) = s := by
      cases hfield : v.field memberNames "columns" with
      | some w => rfl
      | none =>
        have hnil : x.columns = [] := (hfield ▸ h.columns).eq_of_none
        have hempty : ColumnSet.ofColumns [] = .ok .empty :=
          ColumnSet.ordered_empty.ofColumns_columns
        exact Except.ok.inj (hempty.symm.trans (hnil ▸ hs))
    dsimp only [draft]
    rw [hcolumns, h.hops.isSome, h.applyRBAC.cond_eq, h.pagination.cond_eq]
    rfl

end Parts

/-! #### Writing -/

/-- What is written for a configuration. -/
def parts (c : Config) : Parts :=
  ⟨c.columns.columns, c.pattern.map Hop.parts, c.applyRBAC, c.pagination⟩

variable {c : Config}

/-- **What is written for a configuration spells its parts,** also when more members follow. -/
theorem spelledBy_members (hrange : c.pagination.InRange) {others : List (String × Json)}
    (hnodup : (others.map (·.1)).Nodup)
    (hothers : ∀ name ∈ others.map (·.1), name ∉ Parts.memberNames) :
    c.parts.SpelledBy (.obj (c.members ++ others)) := by
  have hrecord : Json.IsRecord Parts.memberNames (.obj (c.members ++ others)) := by
    have hnames : c.members.map (·.1) = Parts.memberNames := rfl
    change ((c.members ++ others).map (·.1)).Nodup
    rw [List.map_append, hnames, List.nodup_append]
    refine ⟨by decide, hnodup, fun name hname name' hname' => ?_⟩
    rintro rfl
    exact hothers name hname' hname
  exact ⟨hrecord, .given c.columns.spelledBy_toJson, ⟨c.pattern.spelledBy_toJson⟩, .given rfl,
    .given hrange.spelledBy_toJson⟩

end Config

end PatternQuery
