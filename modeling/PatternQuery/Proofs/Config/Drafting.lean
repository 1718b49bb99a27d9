import Mathlib.Data.List.Induction
import PatternQuery.Config.Draft
import PatternQuery.Proofs.Fallible
import PatternQuery.Proofs.Selection.Reachable

/-!
# The order of steps in a draft

A step can fail in two ways only: it sets a root where one is set, or it selects a column that is selected
(`DraftStep.Repeats`). Steps that do not fail leave behind a draft whose parts can be read off the steps,
every part off the steps of one or two kinds (`ConfigDraft.assembled`); this is the invariant of drafting,
which one step keeps (`step_assembled`) and so does a run (`ofSteps_eq`).

So how steps of different kinds are mixed does not matter (`assembled_eq`). The failure of a step stays,
whatever is still written after it, and is what is built (`failure_foldl_step`, `build_of_repeats`).
Without one, the grouping is tried before the configuration is checked (`build_of_regroup_error`,
`build_of_regroup`).
-/

namespace PatternQuery

open ColumnSet (Edit)

/-- The kinds of steps. The four that change the page are of one kind. -/
inductive StepKind where
  | root
  | hop
  | column
  | groupBy
  | applyRBAC
  | pagination
  deriving Repr, DecidableEq

namespace DraftStep

variable {steps steps' before after : List DraftStep} {s : DraftStep} {e : QueryError}

/-! ### Kinds -/

/-- The kind of a step. -/
def kind : DraftStep → StepKind
  | root _ => .root
  | hop .. => .hop
  | column _ => .column
  | groupBy _ => .groupBy
  | applyRBAC _ => .applyRBAC
  | limit _ | offset _ | cursor | pagination _ => .pagination

/-- The steps of one kind, in their order. -/
def ofKind (kind : StepKind) (steps : List DraftStep) : List DraftStep :=
  steps.filter fun s => s.kind == kind

/-- The occurrence that a step sets as the root. -/
def root? : DraftStep → Option Occurrence
  | root o => some o
  | _ => none

/-- The hop that a step adds. -/
def hop? : DraftStep → Option Hop
  | hop source relation target optional => some (.edge source relation target optional)
  | _ => none

/-- The column that a step selects. -/
def columnId? : DraftStep → Option ColumnId
  | column id => some id
  | _ => none

/-- The columns by which a step groups. -/
def selectors? : DraftStep → Option (List Selector)
  | groupBy selectors => some selectors
  | _ => none

/-- Whether access control is to apply after a step that says so. -/
def applyRBAC? : DraftStep → Option Bool
  | applyRBAC apply => some apply
  | _ => none

/-- The page after a step. -/
def turn (p : Pagination) : DraftStep → Pagination
  | limit rows => { p with limit := rows }
  | offset rows => { p with offset := rows }
  | cursor => { p with strategy := .cursor }
  | pagination page => page
  | _ => p

theorem filterMap_ofKind {α : Type} {f : DraftStep → Option α} {kind : StepKind}
    (hf : ∀ s, (f s).isSome → s.kind = kind) (steps : List DraftStep) :
    (ofKind kind steps).filterMap f = steps.filterMap f := by
  rw [ofKind, List.filterMap_filter]
  refine List.filterMap_congr fun s _ => ?_
  by_cases hkind : s.kind = kind
  · rw [if_pos (beq_iff_eq.mpr hkind)]
  · rw [if_neg (mt beq_iff_eq.mp hkind), Option.not_isSome_iff_eq_none.mp (mt (hf s) hkind)]

/-- **What is read off the steps of one kind** is the same where these steps are the same. -/
theorem filterMap_eq_of_ofKind_eq {α : Type} {f : DraftStep → Option α} {kind : StepKind}
    (h : ofKind kind steps = ofKind kind steps') (hf : ∀ s, (f s).isSome → s.kind = kind) :
    steps.filterMap f = steps'.filterMap f := by
  rw [← filterMap_ofKind hf, h, filterMap_ofKind hf]

theorem kind_of_root? (s : DraftStep) : s.root?.isSome → s.kind = .root := by
  cases s <;> simp [root?, kind]

theorem kind_of_columnId? (s : DraftStep) : s.columnId?.isSome → s.kind = .column := by
  cases s <;> simp [columnId?, kind]

theorem foldl_turn_ofKind (p : Pagination) (steps : List DraftStep) :
    (ofKind .pagination steps).foldl turn p = steps.foldl turn p := by
  induction steps generalizing p with
  | nil => rfl
  | cons s steps ih =>
    rw [ofKind, List.filter_cons, List.foldl_cons, ← ih]
    -- A step of another kind leaves the page as it is.
    cases s <;> rfl

/-! ### Steps that fail -/

/-- **A step repeats** what an earlier one did: the root is set already, or the column is selected
already. Beside it stands the failure of the step. -/
inductive Repeats (before : List DraftStep) : DraftStep → QueryError → Prop
  | root {o o' : Occurrence} (h : .root o' ∈ before) :
      Repeats before (.root o) (.invalidArgument "root is already set")
  | column {id : ColumnId} (h : .column id ∈ before) :
      Repeats before (.column id) (.column (.duplicateColumn id))

/-- **No step repeats another:** the root is set once at most, and no column is selected twice. -/
@[mk_iff]
structure NoRepeats (steps : List DraftStep) : Prop where
  root_once : (steps.filterMap root?).length ≤ 1
  nodup_columns : (steps.filterMap columnId?).Nodup

theorem filterMap_concat {α : Type} (f : DraftStep → Option α) (steps : List DraftStep) (s : DraftStep) :
    (steps ++ [s]).filterMap f = steps.filterMap f ++ (f s).toList := by
  rw [List.filterMap_append, List.filterMap_cons, List.filterMap_nil]
  cases f s <;> rfl

theorem mem_filterMap_root?_iff {o : Occurrence} : o ∈ steps.filterMap root? ↔ .root o ∈ steps := by
  rw [List.mem_filterMap]
  constructor
  · rintro ⟨s, hs, ho⟩
    cases s <;> simp only [root?, Option.some.injEq, reduceCtorEq] at ho
    exact ho ▸ hs
  · intro h
    exact ⟨_, h, rfl⟩

theorem mem_filterMap_columnId?_iff {id : ColumnId} :
    id ∈ steps.filterMap columnId? ↔ .column id ∈ steps := by
  rw [List.mem_filterMap]
  constructor
  · rintro ⟨s, hs, hid⟩
    cases s <;> simp only [columnId?, Option.some.injEq, reduceCtorEq] at hid
    exact hid ▸ hs
  · intro h
    exact ⟨_, h, rfl⟩

theorem not_repeats_root_iff {o : Occurrence} :
    (∀ e, ¬ Repeats steps (.root o) e) ↔ steps.filterMap root? = [] := by
  rw [List.eq_nil_iff_forall_not_mem]
  constructor
  · intro h o' ho'
    exact h _ (.root (mem_filterMap_root?_iff.mp ho'))
  · rintro h e ⟨ho'⟩
    exact h _ (mem_filterMap_root?_iff.mpr ho')

theorem not_repeats_column_iff {id : ColumnId} :
    (∀ e, ¬ Repeats steps (.column id) e) ↔ id ∉ steps.filterMap columnId? := by
  rw [mem_filterMap_columnId?_iff]
  constructor
  · intro h hid
    exact h _ (.column hid)
  · intro h e hrepeats
    cases hrepeats with
    | column hid => exact h hid

/-- **One step more:** it must not repeat an earlier one. -/
theorem noRepeats_concat_iff :
    NoRepeats (steps ++ [s]) ↔ NoRepeats steps ∧ ∀ e, ¬ Repeats steps s e := by
  rw [noRepeats_iff, noRepeats_iff, filterMap_concat, filterMap_concat]
  cases s with
  | root o =>
    rw [not_repeats_root_iff]
    cases steps.filterMap root? <;> simp [root?, columnId?]
  | column id =>
    rw [not_repeats_column_iff]
    change ((steps.filterMap root? ++ []).length ≤ 1 ∧ (steps.filterMap columnId? ++ [id]).Nodup) ↔ _
    rw [List.append_nil, List.nodup_append_comm, List.singleton_append, List.nodup_cons]
    tauto
  | _ =>
    -- A step of another kind repeats nothing.
    change ((steps.filterMap root? ++ []).length ≤ 1 ∧ (steps.filterMap columnId? ++ []).Nodup) ↔ _
    rw [List.append_nil, List.append_nil]
    exact ⟨fun h => ⟨h, by rintro e ⟨⟩⟩, And.left⟩

theorem NoRepeats.of_ofKind_eq (h : NoRepeats steps)
    (hkinds : ∀ kind, ofKind kind steps = ofKind kind steps') : NoRepeats steps' := by
  rw [noRepeats_iff, ← filterMap_eq_of_ofKind_eq (hkinds _) kind_of_root?,
    ← filterMap_eq_of_ofKind_eq (hkinds _) kind_of_columnId?]
  exact ⟨h.root_once, h.nodup_columns⟩

theorem NoRepeats.take (h : NoRepeats steps) (n : Nat) : NoRepeats (steps.take n) := by
  have hsub : (steps.take n).Sublist steps := List.take_sublist n steps
  exact ⟨(hsub.filterMap root?).length_le.trans h.root_once, h.nodup_columns.sublist (hsub.filterMap _)⟩

/-- **The first step that fails** stands behind steps none of which repeats another. -/
theorem exists_first_repeat (h : ¬ NoRepeats steps) : ∃ before s after e,
    steps = before ++ s :: after ∧ NoRepeats before ∧ Repeats before s e := by
  induction steps using List.reverseRecOn with
  | nil => exact absurd ⟨Nat.zero_le 1, List.nodup_nil⟩ h
  | append_singleton steps last ih =>
    by_cases hsteps : NoRepeats steps
    · rw [noRepeats_concat_iff] at h
      simp only [hsteps, true_and, not_forall, not_not] at h
      obtain ⟨e, he⟩ := h
      exact ⟨steps, last, [], e, rfl, hsteps, he⟩
    · obtain ⟨before, s, after, e, rfl, hbefore, hs⟩ := ih hsteps
      exact ⟨before, s, after ++ [last], e, by rw [List.append_assoc, List.cons_append], hbefore, hs⟩

end DraftStep

namespace ConfigDraft

open DraftStep

variable {steps steps' before after : List DraftStep} {s : DraftStep} {e : QueryError}
  {d : ConfigDraft}

/-! ### What steps leave behind -/

/-- The set of the columns that are selected one after another. -/
def selectAll (ids : List ColumnId) : ColumnSet :=
  ids.foldl (fun columns id => (Edit.add id).after columns) .empty

/-- **What steps that do not fail leave behind:** the root in front of the hops, the columns that are
selected, and what the last word was on everything else. -/
def assembled (steps : List DraftStep) : ConfigDraft where
  pattern := (steps.filterMap root?).map Hop.root ++ steps.filterMap hop?
  columns := selectAll (steps.filterMap columnId?)
  group := (steps.filterMap selectors?).getLast?
  applyRBAC := (steps.filterMap applyRBAC?).getLast?.getD false
  pagination := steps.foldl turn .standard
  failure := none

theorem selectAll_concat (ids : List ColumnId) (id : ColumnId) :
    selectAll (ids ++ [id]) = (Edit.add id).after (selectAll ids) := by
  rw [selectAll, List.foldl_append]
  rfl

/-- **How steps of different kinds are mixed does not matter.** -/
theorem assembled_eq (h : ∀ kind, ofKind kind steps = ofKind kind steps') :
    assembled steps = assembled steps' := by
  have hroots := filterMap_eq_of_ofKind_eq (h _) kind_of_root?
  have hhops := filterMap_eq_of_ofKind_eq (f := hop?) (h .hop) fun s => by cases s <;> simp [hop?, kind]
  have hcolumns := filterMap_eq_of_ofKind_eq (h _) kind_of_columnId?
  have hgroups := filterMap_eq_of_ofKind_eq (f := selectors?) (h .groupBy) fun s => by
    cases s <;> simp [selectors?, kind]
  have hrbac := filterMap_eq_of_ofKind_eq (f := applyRBAC?) (h .applyRBAC) fun s => by
    cases s <;> simp [applyRBAC?, kind]
  have hpage : steps.foldl turn .standard = steps'.foldl turn .standard := by
    rw [← foldl_turn_ofKind, h, foldl_turn_ofKind]
  rw [assembled, assembled, hroots, hhops, hcolumns, hgroups, hrbac, hpage]

theorem map_id_selectAll {ids : List ColumnId} (h : ids.Nodup) :
    (selectAll ids).columns.map (·.id) = ids := by
  induction ids using List.reverseRecOn with
  | nil => rfl
  | append_singleton ids id ih =>
    rw [List.nodup_append_comm, List.singleton_append, List.nodup_cons] at h
    have hids := ih h.2
    have hcontains : ¬ (selectAll ids).contains id = true := by
      rw [← hids] at h
      simpa [ColumnSet.contains] using h.1
    -- So adding the column succeeds, and it comes last.
    rw [selectAll_concat, Edit.after, ColumnSet.leftBy, ColumnSet.run_add, if_neg hcontains]
    simp [hids]

theorem contains_selectAll_iff {ids : List ColumnId} (h : ids.Nodup) {id : ColumnId} :
    (selectAll ids).contains id = true ↔ id ∈ ids := by
  conv_rhs => rw [← map_id_selectAll h]
  simp [ColumnSet.contains]

theorem any_isRoot_assembled_iff :
    (assembled steps).pattern.any Hop.isRoot = true ↔ steps.filterMap root? ≠ [] := by
  have hhops : (steps.filterMap hop?).any Hop.isRoot = false := by
    rw [List.any_eq_false]
    intro hop hmem
    obtain ⟨s, -, hs⟩ := List.mem_filterMap.mp hmem
    cases s <;> simp only [hop?, Option.some.injEq, reduceCtorEq] at hs
    rw [← hs]
    exact Bool.false_ne_true
  rw [assembled, List.any_append, hhops, Bool.or_false]
  cases steps.filterMap root? with
  | nil => simp
  | cons o roots => simp [Hop.isRoot]

/-- What one step adds to what is left behind. -/
theorem assembled_concat (steps : List DraftStep) (s : DraftStep) : assembled (steps ++ [s]) =
    { pattern := (steps.filterMap root? ++ s.root?.toList).map Hop.root ++
        (steps.filterMap hop? ++ s.hop?.toList)
      columns := s.columnId?.elim (assembled steps).columns fun id =>
        (Edit.add id).after (assembled steps).columns
      group := s.selectors?.or (assembled steps).group
      applyRBAC := s.applyRBAC?.getD (assembled steps).applyRBAC
      pagination := turn (assembled steps).pagination s
      failure := none } := by
  have hlast {α : Type} (f : DraftStep → Option α) :
      ((steps ++ [s]).filterMap f).getLast? = (f s).or (steps.filterMap f).getLast? := by
    rw [filterMap_concat, List.getLast?_append]
    cases f s <;> rfl
  have hcolumns : selectAll ((steps ++ [s]).filterMap columnId?) =
      s.columnId?.elim (assembled steps).columns fun id =>
        (Edit.add id).after (assembled steps).columns := by
    rw [filterMap_concat]
    cases s.columnId? with
    | none => rw [Option.toList_none, List.append_nil]; rfl
    | some id => exact selectAll_concat _ id
  rw [assembled, hlast, hlast, hcolumns, filterMap_concat, filterMap_concat, List.foldl_append]
  congr 1
  cases s.applyRBAC? <;> rfl

theorem unlessFailed_of_not_failed {next : ConfigDraft} (h : d.failure = none) :
    d.unlessFailed next = next := by
  rw [unlessFailed, h]
  rfl

theorem unlessFailed_of_failed {next : ConfigDraft} (h : d.failure = some e) :
    d.unlessFailed next = d := by
  rw [unlessFailed, h]
  rfl

/-- **One step** that does not repeat an earlier one keeps the draft assembled. -/
theorem step_assembled (h : NoRepeats (steps ++ [s])) :
    (assembled steps).step s = assembled (steps ++ [s]) := by
  obtain ⟨hsteps, hs⟩ := noRepeats_concat_iff.mp h
  rw [assembled_concat]
  cases s with
  | root o =>
    -- A root is put in front, which is where it stands when no other is set.
    have hroots := not_repeats_root_iff.mp hs
    rw [step, unlessFailed_of_not_failed rfl,
      if_neg (any_isRoot_assembled_iff.not.mpr (not_not.mpr hroots))]
    simp [assembled, hroots, root?, hop?, columnId?, selectors?, applyRBAC?, turn]
  | column id =>
    have hcontains : ¬ (assembled steps).columns.contains id = true :=
      mt (contains_selectAll_iff hsteps.nodup_columns).mp (not_repeats_column_iff.mp hs)
    have hrun := ColumnSet.run_add (assembled steps).columns id
    rw [if_neg hcontains] at hrun
    rw [step, unlessFailed_of_not_failed rfl, hrun, columnId?, Option.elim_some, Edit.after,
      ColumnSet.leftBy, hrun]
    simp [assembled, root?, hop?, selectors?, applyRBAC?, turn]
  | hop | groupBy =>
    rw [step, unlessFailed_of_not_failed rfl]
    simp [assembled, root?, hop?, columnId?, selectors?, applyRBAC?, turn]
  | _ => simp [step, assembled, root?, hop?, columnId?, selectors?, applyRBAC?, turn]

/-- **A run** of steps that do not repeat one another leaves the assembled draft behind. -/
theorem ofSteps_eq (h : NoRepeats steps) : ofSteps steps = assembled steps := by
  induction steps using List.reverseRecOn with
  | nil => rfl
  | append_singleton steps s ih =>
    have hsteps := ih (noRepeats_concat_iff.mp h).1
    rw [← step_assembled h, ← hsteps, ofSteps, List.foldl_append]
    rfl

/-! ### Failures -/

/-- A step that repeats an earlier one fails. -/
theorem failure_step_of_repeats (h : NoRepeats steps) (hs : Repeats steps s e) :
    ((assembled steps).step s).failure = some e := by
  cases hs with
  | root hmem =>
    have hroots := List.ne_nil_of_mem (mem_filterMap_root?_iff.mpr hmem)
    rw [step, unlessFailed_of_not_failed rfl, if_pos (any_isRoot_assembled_iff.mpr hroots)]
  | @column id hmem =>
    have hcontains : (assembled steps).columns.contains id = true :=
      (contains_selectAll_iff h.nodup_columns).mpr (mem_filterMap_columnId?_iff.mpr hmem)
    have hrun := ColumnSet.run_add (assembled steps).columns id
    rw [if_pos hcontains] at hrun
    rw [step, unlessFailed_of_not_failed rfl, hrun]

/-- **A failure stays,** whatever step comes after it. -/
theorem failure_step (h : d.failure = some e) (s : DraftStep) : (d.step s).failure = some e := by
  cases s with
  | root | hop | column | groupBy =>
    rw [step, unlessFailed_of_failed h]
    exact h
  -- A setting is written, but it does not touch the failure.
  | applyRBAC | limit | offset | cursor | pagination => exact h

theorem failure_foldl_step (h : d.failure = some e) (steps : List DraftStep) :
    (steps.foldl step d).failure = some e := by
  induction steps generalizing d with
  | nil => exact h
  | cons s steps ih => exact ih (failure_step h s)

example : ofSteps [.root ⟨"A", none⟩, .root ⟨"B", none⟩, .column ⟨"name", "A"⟩, .limit 5] =
    ⟨[.root ⟨"A", none⟩], .empty, none, false, ⟨5, 0, .offset⟩,
      some (.invalidArgument "root is already set")⟩ := rfl

theorem build_of_failure (h : d.failure = some e) : d.build = .error e := by
  rw [build, h]
  rfl

/-- **The first step that fails** decides what is built, whatever comes after it. -/
theorem build_of_repeats (h : NoRepeats before) (hs : Repeats before s e) (after : List DraftStep) :
    (ofSteps (before ++ s :: after)).build = .error e := by
  have hfailure := failure_step_of_repeats h hs
  rw [← ofSteps_eq h] at hfailure
  rw [ofSteps, List.foldl_append, List.foldl_cons]
  exact build_of_failure (failure_foldl_step hfailure after)

/-- The columns of a draft, grouped as it was said last. -/
def regroup (s : ColumnSet) : Option (List Selector) → Except ColumnError ColumnSet
  | none => .ok s
  | some selectors =>
    match (ColumnSet.group selectors).run s with
    | .ok () t => .ok t
    | .error e _ => .error e

theorem regroup_cases {s t : ColumnSet} {group : Option (List Selector)} (h : regroup s group = .ok t) :
    t = s ∨ ∃ selectors, t = (Edit.group selectors).after s := by
  cases group with
  | none => exact .inl (Except.ok.inj h).symm
  | some selectors =>
    refine .inr ⟨selectors, ?_⟩
    rw [regroup] at h
    rw [Edit.after, ColumnSet.leftBy]
    cases hrun : (ColumnSet.group selectors).run s with
    | ok _ t' =>
      rw [hrun] at h
      exact (Except.ok.inj h).symm
    | error e t' =>
      rw [hrun] at h
      cases h

/-- A draft whose columns cannot be grouped as it was said last is not built. -/
theorem build_of_regroup_error {e : ColumnError} (h : d.failure = none)
    (hgroup : regroup d.columns d.group = .error e) : d.build = .error (.column e) := by
  rw [build, h]
  cases hselectors : d.group with
  | none =>
    rw [hselectors] at hgroup
    cases hgroup
  | some selectors =>
    rw [hselectors, regroup] at hgroup
    cases hrun : (ColumnSet.group selectors).run d.columns with
    | ok _ t =>
      rw [hrun] at hgroup
      cases hgroup
    | error e' t =>
      rw [hrun] at hgroup
      obtain rfl := Except.error.inj hgroup
      dsimp only
      rw [hrun]
      rfl

/-- **A draft that has not failed** is made of its parts, once its columns are grouped. -/
theorem build_of_regroup {columns : ColumnSet} (h : d.failure = none)
    (hgroup : regroup d.columns d.group = .ok columns) :
    d.build = (Config.make columns d.pattern d.applyRBAC d.pagination).mapError .config := by
  rw [build, h]
  cases hselectors : d.group with
  | none =>
    rw [hselectors] at hgroup
    obtain rfl := Except.ok.inj hgroup
    refine (bind_of_eq_ok rfl).trans ?_
    dsimp only
    cases Config.make d.columns d.pattern d.applyRBAC d.pagination <;> rfl
  | some selectors =>
    rw [hselectors, regroup] at hgroup
    dsimp only
    cases hrun : (ColumnSet.group selectors).run d.columns with
    | ok _ t =>
      rw [hrun] at hgroup
      obtain rfl := Except.ok.inj hgroup
      refine (bind_of_eq_ok rfl).trans ?_
      cases Config.make t d.pattern d.applyRBAC d.pagination <;> rfl
    | error e t =>
      rw [hrun] at hgroup
      cases hgroup

/-- **Steps of different kinds can be mixed in any way, and the first failure counts.** Sequences without
repetitions that agree in the steps of every kind, in their order, build the same. In a sequence with a
repetition, the first step that repeats an earlier one decides what is built, and no step after it does.
Without repetitions, the columns are grouped as the last grouping says; if that fails, its failure is what
is built, whatever a check of the whole would say, and else the parts make the configuration. -/
theorem build_ofSteps :
    (∀ steps steps', NoRepeats steps → (∀ kind, ofKind kind steps = ofKind kind steps') →
      (ofSteps steps).build = (ofSteps steps').build) ∧
    (∀ steps, ¬ NoRepeats steps → ∃ before s after e, steps = before ++ s :: after ∧
      NoRepeats before ∧ Repeats before s e) ∧
    (∀ before s after e, NoRepeats before → Repeats before s e →
      (ofSteps (before ++ s :: after)).build = .error e) ∧
    ∀ steps, NoRepeats steps →
      (∀ e, regroup (selectAll (steps.filterMap columnId?)) (steps.filterMap selectors?).getLast? =
        .error e → (ofSteps steps).build = .error (.column e)) ∧
      ∀ columns, regroup (selectAll (steps.filterMap columnId?)) (steps.filterMap selectors?).getLast? =
        .ok columns → (ofSteps steps).build =
          (Config.make columns ((steps.filterMap root?).map Hop.root ++ steps.filterMap hop?)
            ((steps.filterMap applyRBAC?).getLast?.getD false)
            (steps.foldl turn .standard)).mapError .config := by
  refine ⟨fun steps steps' h hkinds => ?_, fun steps h => exists_first_repeat h,
    fun before s after e h hs => build_of_repeats h hs after, fun steps h => ?_⟩
  · rw [ofSteps_eq h, ofSteps_eq (h.of_ofKind_eq hkinds), assembled_eq hkinds]
  · rw [ofSteps_eq h]
    exact ⟨fun e he => build_of_regroup_error rfl he, fun columns hcolumns => build_of_regroup rfl hcolumns⟩

/-- Customers and their orders on a page of ten rows, grouped by a column that is selected later. -/
def mixedSteps : List DraftStep :=
  [.hop ⟨"Customer", none⟩ "placed" ⟨"Order", none⟩ true, .limit 10, .groupBy [.field "total"],
    .column ⟨"name", "Customer"⟩, .root ⟨"Customer", none⟩, .column ⟨"total", "Order"⟩]

/-- The same kind by kind, the root first. -/
def sortedSteps : List DraftStep :=
  [.root ⟨"Customer", none⟩, .hop ⟨"Customer", none⟩ "placed" ⟨"Order", none⟩ true,
    .column ⟨"name", "Customer"⟩, .column ⟨"total", "Order"⟩, .groupBy [.field "total"], .limit 10]

/-- A column that is selected twice counts, and what comes after it does not; a grouping by a column that
nobody selects counts before the missing root and the page without rows. -/
theorem build_mixedSteps :
    (NoRepeats mixedSteps ∧ (∀ kind, ofKind kind mixedSteps = ofKind kind sortedSteps) ∧
      (ofSteps mixedSteps).build = (ofSteps sortedSteps).build) ∧
    (ofSteps (mixedSteps ++ .column ⟨"total", "Order"⟩ :: [.root ⟨"Order", none⟩, .limit 0])).build =
      .error (.column (.duplicateColumn ⟨"total", "Order"⟩)) ∧
    (ofSteps [.limit 0, .groupBy [.field "total"]]).build =
      .error (.column (.unknownColumn (.field "total"))) := by
  obtain ⟨hmixed, -, hfirst, hgroup⟩ := build_ofSteps
  have hfresh : NoRepeats mixedSteps := ⟨by decide, by decide⟩
  have hkinds : ∀ kind, ofKind kind mixedSteps = ofKind kind sortedSteps := by
    intro kind
    cases kind <;> rfl
  exact ⟨⟨hfresh, hkinds, hmixed _ _ hfresh hkinds⟩, hfirst _ _ _ _ hfresh (.column (by decide)),
    (hgroup _ ⟨by decide, by decide⟩).1 _ rfl⟩

end ConfigDraft

end PatternQuery
