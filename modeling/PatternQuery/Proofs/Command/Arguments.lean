import PatternQuery.Command.Arguments
import PatternQuery.Proofs.Fallible
import PatternQuery.Proofs.Profile.Book

/-!
# What arguments can ask for

Arguments set the values of options one after another, and each option in its own way, so what every
option leaves true of the values is true of what is asked for in the end
(`ArgumentState.exists_values_of_read`). A page limit that is given is read below its bound, so the
change of a profile that arguments ask for can be stored (`Request.inRange_of_ofArguments`).
-/

namespace PatternQuery

/-! ### Options -/

/-- An option leaves a property of the values true. -/
def OptionRule.Preserves (P : OptionValues → Prop) : OptionRule → Prop
  | flag set => ∀ v, P v → P (set v)
  | value set => ∀ text v v', set text v = some v' → P v → P v'
  | help | version => True

theorem OptionRule.preserves_ofReader {P : OptionValues → Prop} {α : Type} {read : String → Option α}
    {set : α → OptionValues → OptionValues} (h : ∀ text a, read text = some a → ∀ v, P v → P (set a v)) :
    (ofReader read set).Preserves P := by
  intro text v v' hset hv
  obtain ⟨a, ha, rfl⟩ := Option.map_eq_some_iff.mp hset
  exact h text a ha v hv

/-- The page limit that is given, if there is one, can be stored. -/
def OptionValues.InRange (v : OptionValues) : Prop :=
  ∀ n, v.change.pageLimit = some n → n < ProfileSettings.pageLimitBound

theorem OptionRule.lt_of_pageLimit? {text : String} {n : Nat} (h : pageLimit? text = some n) :
    n < ProfileSettings.pageLimitBound := by
  obtain ⟨i, -, h⟩ := Option.bind_eq_some_iff.mp h
  split_ifs at h with hrange
  obtain rfl := Option.some.inj h
  unfold ProfileSettings.pageLimitBound
  omega

/-- **Only one option sets the page limit,** and reads it below its bound. -/
theorem CommandLevel.preserves_inRange (level : CommandLevel) :
    ∀ rule ∈ level.rules, rule.2.Preserves OptionValues.InRange := by
  have hflag {set : OptionValues → OptionValues} (h : ∀ v, (set v).change = v.change) :
      (OptionRule.flag set).Preserves OptionValues.InRange := by
    intro v hv
    rw [OptionValues.InRange, h]
    exact hv
  have hreader {α : Type} {read : String → Option α} {set : α → OptionValues → OptionValues}
      (h : ∀ a v, (set a v).change.pageLimit = v.change.pageLimit) :
      (OptionRule.ofReader read set).Preserves OptionValues.InRange := by
    refine OptionRule.preserves_ofReader fun text a _ v hv => ?_
    rw [OptionValues.InRange, h]
    exact hv
  have hcommon : ∀ rule ∈ commonRules, rule.2.Preserves OptionValues.InRange := by
    unfold commonRules
    simp only [List.forall_mem_cons]
    exact ⟨hreader fun _ _ => rfl, hreader fun _ _ => rfl, hreader fun _ _ => rfl,
      hreader fun _ _ => rfl, hflag fun _ => rfl, trivial, List.forall_mem_nil _⟩
  cases level with
  | program => exact List.forall_mem_cons.mpr ⟨trivial, hcommon⟩
  | profile => exact hcommon
  | command name =>
    refine List.forall_mem_append.mpr ⟨?_, hcommon⟩
    cases name with
    | compile =>
      simp only [CommandName.rules, List.forall_mem_cons]
      exact ⟨hflag fun _ => rfl, hflag fun _ => rfl, List.forall_mem_nil _⟩
    | expand =>
      simp only [CommandName.rules, List.forall_mem_cons]
      exact ⟨hreader fun _ _ => rfl, hreader fun _ _ => rfl, hreader fun _ _ => rfl,
        List.forall_mem_nil _⟩
    | shape =>
      simp only [CommandName.rules, List.forall_mem_cons]
      exact ⟨hflag fun _ => rfl, hflag fun _ => rfl, hreader fun _ _ => rfl, List.forall_mem_nil _⟩
    | profileSet =>
      simp only [CommandName.rules, List.forall_mem_cons]
      refine ⟨hreader fun _ _ => rfl, hreader fun _ _ => rfl, ?_, hreader fun _ _ => rfl,
        hreader fun _ _ => rfl, List.forall_mem_nil _⟩
      refine OptionRule.preserves_ofReader fun text a ha v _ n hn => ?_
      obtain rfl : a = n := Option.some.inj hn
      exact OptionRule.lt_of_pageLimit? ha
    | _ => exact List.forall_mem_nil _

/-! ### Arguments -/

namespace ArgumentState

variable {s s' : ArgumentState} {P : OptionValues → Prop}

theorem values_of_takeOperand {word : String} (h : s.takeOperand word = .ok s') :
    s'.values = s.values := by
  unfold takeOperand at h
  split at h
  · split at h
    · split_ifs at h
      obtain rfl := Except.ok.inj h
      rfl
    · exact absurd h (by simp)
  · exact absurd h (by simp)
  · exact absurd h (by simp)

theorem values_of_takeWord {word : String} (h : s.takeWord word = .ok s') : s'.values = s.values := by
  unfold takeWord at h
  split at h
  · obtain rfl := Except.ok.inj h
    rfl
  · exact values_of_takeOperand h

theorem values_of_note {name : String} (h : s.note name = .ok s') : s'.values = s.values := by
  unfold note at h
  split_ifs at h
  obtain rfl := Except.ok.inj h
  rfl

theorem preserves_takeFlag {name : String} {set : OptionValues → OptionValues}
    (hrule : (OptionRule.flag set).Preserves P) (hs : P s.values) (h : s.takeFlag name set = .ok s') :
    P s'.values := by
  obtain ⟨s₁, hnote, h⟩ := bind_eq_ok_iff.mp h
  obtain rfl := Except.ok.inj h
  exact hrule _ (values_of_note hnote ▸ hs)

theorem preserves_takeValue {name text : String} {set : String → OptionValues → Option OptionValues}
    (hrule : (OptionRule.value set).Preserves P) (hs : P s.values)
    (h : s.takeValue name set text = .ok s') : P s'.values := by
  obtain ⟨s₁, hnote, h⟩ := bind_eq_ok_iff.mp h
  split at h
  · next values hset =>
    obtain rfl := Except.ok.inj h
    exact hrule _ _ _ hset (values_of_note hnote ▸ hs)
  · exact absurd h throw_ne_ok

theorem exists_values_of_finish (hs : P s.values) {i : Invocation} (h : s.finish = .run i) :
    ∃ name operand v, P v ∧ i = ⟨v.common, CommandName.action operand v name⟩ := by
  unfold finish at h
  split at h
  · exact absurd h (by simp)
  · exact absurd h (by simp)
  · next name _ =>
    split at h
    · exact absurd h (by simp)
    · exact ⟨name, s.operand.getD "", s.values, hs, (Request.run.inj h).symm⟩

/-- **What every option leaves true of the values** is true of what is asked for. -/
theorem exists_values_of_read
    (hrules : ∀ level : CommandLevel, ∀ rule ∈ level.rules, rule.2.Preserves P)
    (arguments : List String) (hs : P s.values) {i : Invocation} (h : s.read arguments = .run i) :
    ∃ name operand v, P v ∧ i = ⟨v.common, CommandName.action operand v name⟩ := by
  have hrule {level : CommandLevel} {name : String} {rule : OptionRule}
      (hrule : level.rules.lookup name = some rule) : rule.Preserves P := by
    obtain ⟨before, after, hlist, -⟩ := List.lookup_eq_some_iff.mp hrule
    exact hrules level (name, rule) (hlist ▸ List.mem_append_right _ List.mem_cons_self)
  -- The cases are those of the reading; in those not named, nothing is run.
  fun_induction read s arguments with
  | case1 s => exact exists_values_of_finish hs h
  | case2 s word rest _ s' hword ih => exact ih (values_of_takeWord hword ▸ hs) h
  | case4 s dashes rest _ _ ih => exact ih hs h
  | case9 s option rest _ _ name set hlookup s' htake _ ih =>
    exact ih (preserves_takeFlag (hrule hlookup) hs htake) h
  | case11 s option rest _ _ name set text hlookup s' htake _ ih =>
    exact ih (preserves_takeValue (hrule hlookup) hs htake) h
  | case15 s option _ _ name set hlookup text rest _ s' htake _ ih =>
    exact ih (preserves_takeValue (hrule hlookup) hs htake) h
  | _ => exact absurd h (by simp)

end ArgumentState

/-- **A change of a profile that arguments ask for can be stored.** -/
theorem Request.inRange_of_ofArguments {arguments : List String} {options : CommonOptions}
    {a : ProfileAction} (h : ofArguments arguments = .run ⟨options, .profile a⟩) : a.InRange := by
  have hblank : OptionValues.InRange {} := fun n hn => absurd hn (by simp [Profile.blank])
  obtain ⟨name, operand, v, hv, hi⟩ := ArgumentState.exists_values_of_read
    CommandLevel.preserves_inRange arguments hblank h
  obtain ⟨-, haction⟩ := Invocation.mk.inj hi
  cases name with
  | profileSet =>
    obtain rfl := Action.profile.inj haction
    exact hv
  | profileList | profileUse | profileUnset | profileDelete =>
    obtain rfl := Action.profile.inj haction
    trivial
  | _ => exact absurd haction (by simp [CommandName.action])

end PatternQuery
