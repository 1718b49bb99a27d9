import PatternQuery.Proofs.Config.Canonical
import PatternQuery.Proofs.Config.Drafting
import PatternQuery.Proofs.Config.Reading
import PatternQuery.Proofs.Selection.Unbounded

/-!
# Configurations that can be obtained

A caller makes configurations from parts, reads them from JSON values or drafts them, and makes new
ones of those it has. It also makes sets of columns, and a configuration gives its set away to be
edited and put back. `Obtainable` is everything that can be got in this way, in any number of steps.

Every configuration among it is valid (`valid_of_obtainable`). All ways but one lead through
`Config.make`, which checks all that makes a configuration valid except that the columns stand in the
order of display; this has to come from the set of columns, which is sound wherever it was got from
(`Held.Sound`). Switching access control on or off is not checked, and touches nothing that is.
-/

namespace PatternQuery

open ColumnSet (Edit)

/-! ### Drafts -/

namespace ConfigDraft

/-- A step changes the columns only if it selects one. -/
theorem columns_step (d : ConfigDraft) (s : DraftStep) :
    (d.step s).columns = d.columns ∨
      ∃ id, (d.step s).columns = (Edit.add id).after d.columns := by
  have hkept {next : ConfigDraft} (h : next.columns = d.columns) :
      (d.unlessFailed next).columns = d.columns := by
    unfold unlessFailed
    split_ifs
    · rfl
    · exact h
  cases s with
  | root o =>
    refine .inl (hkept ?_)
    split_ifs <;> rfl
  | column id =>
    rw [step, unlessFailed]
    split_ifs
    · exact .inl rfl
    · refine .inr ⟨id, ?_⟩
      rw [Edit.after, ColumnSet.leftBy]
      cases (ColumnSet.add id).run d.columns <;> rfl
  | hop | groupBy => exact .inl (hkept rfl)
  | applyRBAC | limit | offset | cursor | pagination => exact .inl rfl

theorem sound_columns (steps : List DraftStep) : (ofSteps steps).columns.Sound := by
  have hrun (d : ConfigDraft) (hd : d.columns.Sound) : (steps.foldl step d).columns.Sound := by
    induction steps generalizing d with
    | nil => exact hd
    | cons s steps ih =>
      refine ih _ ?_
      obtain heq | ⟨id, heq⟩ := d.columns_step s
      · rwa [heq]
      · rw [heq]
        exact hd.after _
  exact hrun empty ColumnSet.ordered_empty.sound

/-- **A configuration that is built** is made of the parts of the draft, its columns perhaps grouped. -/
theorem make_of_build {d : ConfigDraft} {c : Config} (h : d.build = .ok c) :
    ∃ columns, Config.make columns d.pattern d.applyRBAC d.pagination = .ok c ∧
      (columns = d.columns ∨ ∃ selectors, columns = (Edit.group selectors).after d.columns) := by
  have hfailure : d.failure = none := by
    cases hfailure : d.failure with
    | none => rfl
    | some e =>
      rw [build_of_failure hfailure] at h
      cases h
  cases hgroup : regroup d.columns d.group with
  | error e =>
    rw [build_of_regroup_error hfailure hgroup] at h
    cases h
  | ok columns =>
    rw [build_of_regroup hfailure hgroup] at h
    exact ⟨columns, mapError_eq_ok_iff.mp h, regroup_cases hgroup⟩

/-- A draft that groups, and has not failed, is built if its grouped columns and its other parts make a
configuration. -/
theorem build_eq_of_group {d : ConfigDraft} {c : Config} {columns : ColumnSet}
    {selectors : List Selector} (hfailure : d.failure = none) (hgroup : d.group = some selectors)
    (hrun : (ColumnSet.group selectors).run d.columns = .ok () columns)
    (hmake : Config.make columns d.pattern d.applyRBAC d.pagination = .ok c) : d.build = .ok c := by
  have hregroup : regroup d.columns d.group = .ok columns := by rw [hgroup, regroup, hrun]
  rw [build_of_regroup hfailure hregroup]
  exact mapError_eq_ok_iff.mpr hmake

end ConfigDraft

/-! ### What can be obtained -/

/-- What a caller can have. -/
inductive Held where
  | columns (s : ColumnSet)
  | config (c : Config)

/-- **What a caller can obtain** by making, reading and editing, in any number of steps. Edits of sets
of columns may fail. -/
inductive Obtainable : Held → Prop
  | empty : Obtainable (.columns .empty)
  | ofColumns {cs : List Column} {s : ColumnSet} (h : ColumnSet.ofColumns cs = .ok s) :
      Obtainable (.columns s)
  | columnsOfJson {v : Json} {s : ColumnSet} (h : ColumnSet.ofJson v = .ok s) :
      Obtainable (.columns s)
  | columnsOf {c : Config} (hc : Obtainable (.config c)) : Obtainable (.columns c.columns)
  | edit {s : ColumnSet} (hs : Obtainable (.columns s)) (e : Edit) :
      Obtainable (.columns (e.after s))
  | make {s : ColumnSet} {p : Pattern} {applyRBAC : Bool} {pagination : Pagination} {c : Config}
      (hs : Obtainable (.columns s)) (h : Config.make s p applyRBAC pagination = .ok c) :
      Obtainable (.config c)
  | ofPattern {p : Pattern} {c : Config} (h : Config.ofPattern p = .ok c) : Obtainable (.config c)
  | ofJson {v : Json} {c : Config} (h : Config.ofJson v = .ok c) : Obtainable (.config c)
  | load {v : Json} {c : Config} (h : Config.load v = .ok c) : Obtainable (.config c)
  | build {steps : List DraftStep} {c : Config} (h : (ConfigDraft.ofSteps steps).build = .ok c) :
      Obtainable (.config c)
  | withColumns {c d : Config} {s : ColumnSet} (hc : Obtainable (.config c))
      (hs : Obtainable (.columns s)) (h : c.withColumns s = .ok d) : Obtainable (.config d)
  | withPattern {c d : Config} {p : Pattern} (hc : Obtainable (.config c))
      (h : c.withPattern p = .ok d) : Obtainable (.config d)
  | withPagination {c d : Config} {pagination : Pagination} (hc : Obtainable (.config c))
      (h : c.withPagination pagination = .ok d) : Obtainable (.config d)
  | withApplyRBAC {c : Config} (hc : Obtainable (.config c)) (applyRBAC : Bool) :
      Obtainable (.config (c.withApplyRBAC applyRBAC))
  | canonical {c d : Config} (hc : Obtainable (.config c)) (h : c.canonical = .ok d) :
      Obtainable (.config d)

/-- Sound sets of columns and valid configurations. -/
def Held.Sound : Held → Prop
  | .columns s => s.Sound
  | .config c => c.Valid

namespace Config

variable {c d : Config}

theorem valid_of_make {s : ColumnSet} {p : Pattern} {applyRBAC : Bool} {pagination : Pagination}
    (hs : s.Sound) (h : make s p applyRBAC pagination = .ok c) : c.Valid := by
  obtain ⟨rfl, hcheck⟩ := make_eq_ok_iff.mp h
  obtain ⟨-, hcolumns, -⟩ := check_eq_ok_iff.mp hcheck
  exact valid_of_check hcheck (hs.ordered_of_check hcolumns)

theorem valid_of_build {steps : List DraftStep} (h : (ConfigDraft.ofSteps steps).build = .ok c) :
    c.Valid := by
  have hsound := ConfigDraft.sound_columns steps
  obtain ⟨columns, hmake, rfl | ⟨selectors, rfl⟩⟩ := ConfigDraft.make_of_build h
  · exact valid_of_make hsound hmake
  · exact valid_of_make (hsound.after _) hmake

theorem Valid.withApplyRBAC (h : c.Valid) (applyRBAC : Bool) : (c.withApplyRBAC applyRBAC).Valid :=
  ⟨h.pattern_check, h.columns_ordered, h.limit_ne_zero, h.introduced⟩

theorem Valid.canonical (h : c.Valid) (hd : c.canonical = .ok d) : d.Valid := by
  obtain ⟨n, hn⟩ := h.exists_canonical_iff.mp ⟨d, hd⟩
  obtain ⟨hcanonical, hvalid⟩ := h.canonical_eq hn
  obtain rfl := Except.ok.inj (hcanonical.symm.trans hd)
  exact hvalid

end Config

/-- **Whatever can be obtained is sound.** -/
theorem Obtainable.sound {x : Held} (h : Obtainable x) : x.Sound := by
  induction h with
  | empty => exact ColumnSet.ordered_empty.sound
  | ofColumns h => exact (ColumnSet.ofColumns_eq_ok_iff.mp h).2.sound
  | columnsOfJson h => exact (ColumnSet.ordered_of_ofJson h).sound
  | columnsOf hc ihc => exact Config.Valid.columns_ordered ihc |>.sound
  | edit hs e ihs => exact ColumnSet.Sound.after ihs e
  | make hs h ihs => exact Config.valid_of_make ihs h
  | ofPattern h => exact Config.valid_of_make ColumnSet.ordered_empty.sound h
  | ofJson h => exact Config.valid_of_load (Config.ofJson_eq_ok_iff.mp h)
  | load h => exact Config.valid_of_load h
  | build h => exact Config.valid_of_build h
  | withColumns hc hs h ihc ihs => exact Config.valid_of_make ihs h
  | withPattern hc h ihc => exact Config.valid_of_make (Config.Valid.columns_ordered ihc).sound h
  | withPagination hc h ihc => exact Config.valid_of_make (Config.Valid.columns_ordered ihc).sound h
  | withApplyRBAC hc applyRBAC ihc => exact Config.Valid.withApplyRBAC ihc applyRBAC
  | canonical hc h ihc => exact Config.Valid.canonical ihc h

/-- **Every configuration that can be obtained is valid.** Its pattern is a rooted tree in the order of
introduction, its columns stand in the order of display without gaps or repetition, it asks for at
least one row, and every column belongs to an occurrence that the pattern introduces. -/
theorem valid_of_obtainable (c : Config) (h : Obtainable (.config c)) :
    c.pattern.InOrder ∧ c.columns.Ordered ∧
      c.columns.columns.Pairwise (fun a b => a.selectOrder < b.selectOrder) ∧
      0 < c.pagination.limit ∧
      ∀ column ∈ c.columns.columns, ∃ hop ∈ c.pattern, hop.introduces.key = column.id.schema := by
  have hvalid : c.Valid := h.sound
  obtain ⟨placed, hplace⟩ := Pattern.exists_place_of_check hvalid.pattern_check
  refine ⟨Pattern.inOrder_of_place hplace, hvalid.columns_ordered, ?_,
    Nat.pos_of_ne_zero hvalid.limit_ne_zero, fun column hcolumn => ?_⟩
  · exact hvalid.columns_ordered.pairwise_selectOrder.imp UInt32.lt_iff_toNat_lt.mpr
  · exact List.mem_map.mp (hvalid.introduced column hcolumn)

/-- Customers with their orders, drafted with the root last. -/
def orderSteps : List DraftStep :=
  [.hop ⟨"Customer", none⟩ "placed" ⟨"Order", none⟩ true, .root ⟨"Customer", none⟩,
    .column ⟨"name", "Customer"⟩, .groupBy [.field "name"]]

/-- What is drafted. -/
def orderConfig : Config :=
  ⟨⟨[⟨⟨"name", "Customer"⟩, 1, some 0⟩]⟩, [.root ⟨"Customer", none⟩,
    .edge ⟨"Customer", none⟩ "placed" ⟨"Order", none⟩ true], false, .standard⟩

/-- The same with another column and another page. -/
def orderConfigEdited : Config :=
  ⟨⟨[⟨⟨"name", "Customer"⟩, 1, some 0⟩, ⟨⟨"total", "Order"⟩, 2, none⟩]⟩, orderConfig.pattern, true,
    ⟨10, 0, .cursor⟩⟩

theorem build_orderSteps : (ConfigDraft.ofSteps orderSteps).build = .ok orderConfig := by
  have hvalid : orderConfig.Valid :=
    ⟨by decide, ⟨by decide, by decide, by decide⟩, by decide, by decide⟩
  have hmake : Config.make orderConfig.columns orderConfig.pattern false .standard = .ok orderConfig :=
    Config.make_eq_ok_iff.mpr ⟨rfl, hvalid.check_eq⟩
  exact ConfigDraft.build_eq_of_group rfl rfl rfl hmake

/-- An edit of the columns that fails is on the way. -/
theorem obtainable_orderConfigEdited : Obtainable (.config orderConfigEdited) := by
  have hvalid : orderConfigEdited.Valid :=
    ⟨by decide, ⟨by decide, by decide, by decide⟩, by decide, by decide⟩
  have hcolumns := ((Obtainable.columnsOf (.build build_orderSteps)).edit
    (.add ⟨"name", "Customer"⟩)).edit (.add ⟨"total", "Order"⟩)
  have hedited : orderConfig.withColumns orderConfigEdited.columns =
      .ok { orderConfig with columns := orderConfigEdited.columns } :=
    Config.make_eq_ok_iff.mpr ⟨rfl, Config.Valid.check_eq
      ⟨hvalid.pattern_check, hvalid.columns_ordered, by decide, hvalid.introduced⟩⟩
  have hpaged : Config.withPagination { orderConfig with columns := orderConfigEdited.columns }
      ⟨10, 0, .cursor⟩ = .ok (orderConfigEdited.withApplyRBAC false) :=
    Config.make_eq_ok_iff.mpr ⟨rfl, (hvalid.withApplyRBAC false).check_eq⟩
  exact (((Obtainable.build build_orderSteps).withColumns hcolumns hedited).withPagination
    hpaged).withApplyRBAC true

theorem valid_orderConfigEdited : Obtainable (.config orderConfigEdited) ∧
    orderConfigEdited.pattern.InOrder ∧ orderConfigEdited.columns.Ordered ∧
      ∀ column ∈ orderConfigEdited.columns.columns,
        ∃ hop ∈ orderConfigEdited.pattern, hop.introduces.key = column.id.schema := by
  obtain ⟨hpattern, hcolumns, -, -, hintroduced⟩ :=
    valid_of_obtainable orderConfigEdited obtainable_orderConfigEdited
  exact ⟨obtainable_orderConfigEdited, hpattern, hcolumns, hintroduced⟩

end PatternQuery
