import Mathlib.Logic.Function.Basic
import PatternQuery.Command.Run
import PatternQuery.Proofs.Profile.File

/-!
# The profiles are a map

To their user the profiles are a map from names to profiles, one of which may be the default
(`ProfileMap`). What an action does to the map, and when it fails, is said without a word about how
profiles are stored (`ProfileMap.after`). An action never leaves a default behind that is no profile
(`ProfileMap.Valid.after`).

A profile is stored as its settings, and the strategy among them as it was spelled. Settings that pass
the check pass it after a change too, unless the page limit is made zero, and are then read as the
overwritten profile (`ProfileSettings.check_change`).
-/

namespace PatternQuery

/-! ### The map -/

/-- **What the profiles are to their user.** -/
@[ext]
structure ProfileMap where
  /-- The profile with a name, if there is one. -/
  profile : String → Option Profile
  /-- The name of the default profile, if there is one. -/
  default : Option String

/-- The profile after a change: the settings that are given take the place of the old ones. -/
def Profile.overwrite (p : Profile) (c : ProfileChange) : Profile :=
  { defaultOptional := c.defaultOptional <|> p.defaultOptional
    applyRBAC := c.applyRBAC <|> p.applyRBAC
    pageLimit := c.pageLimit <|> p.pageLimit
    strategy := c.strategy <|> p.strategy
    includeHidden := c.includeHidden <|> p.includeHidden }

namespace ProfileMap

/-- No profiles. -/
def empty : ProfileMap := ⟨fun _ => none, none⟩

/-- The default profile is one of the profiles. -/
def Valid (m : ProfileMap) : Prop := ∀ name, m.default = some name → (m.profile name).isSome

/-- **What an action does to the map,** or why it fails. -/
def after (m : ProfileMap) : ProfileAction → Except ProfileError ProfileMap
  | .list => .ok m
  | .set name change =>
    if change.pageLimit = some 0 then .error (.zeroPageLimit name)
    else
      let p := ((m.profile name).getD .blank).overwrite change
      .ok ⟨Function.update m.profile name (some p), m.default⟩
  | .use name =>
    if (m.profile name).isSome then .ok ⟨m.profile, some name⟩ else .error (.notFound name)
  | .unset => .ok ⟨m.profile, none⟩
  | .delete name =>
    if (m.profile name).isSome then
      .ok ⟨Function.update m.profile name none, if m.default = some name then none else m.default⟩
    else .error (.notFound name)

/-- The map after an action, which changes nothing if it fails. -/
def next (m : ProfileMap) (a : ProfileAction) : ProfileMap := (m.after a).toOption.getD m

/-- The map after a sequence of actions. -/
def afterAll (m : ProfileMap) (actions : List ProfileAction) : ProfileMap := actions.foldl next m

variable {m m' : ProfileMap} {name : String}

theorem after_set_eq_ok_iff {change : ProfileChange} : m.after (.set name change) = .ok m' ↔
    change.pageLimit ≠ some 0 ∧ ⟨Function.update m.profile name
      (some (((m.profile name).getD .blank).overwrite change)), m.default⟩ = m' := by
  rw [after]
  split_ifs with hzero
  · simp [hzero]
  · simp [hzero]

theorem after_use_eq_ok_iff : m.after (.use name) = .ok m' ↔
    (m.profile name).isSome ∧ ⟨m.profile, some name⟩ = m' := by
  rw [after]
  split_ifs with hname
  · simp [hname]
  · simp [hname]

theorem after_delete_eq_ok_iff : m.after (.delete name) = .ok m' ↔
    (m.profile name).isSome ∧ ⟨Function.update m.profile name none,
      if m.default = some name then none else m.default⟩ = m' := by
  rw [after]
  by_cases hname : (m.profile name).isSome
  · simp [hname]
  · simp [hname]

/-- **An action keeps the default valid.** -/
theorem Valid.after (hm : m.Valid) {a : ProfileAction} (h : m.after a = .ok m') : m'.Valid := by
  intro other hother
  cases a with
  | list =>
    obtain rfl : m = m' := Except.ok.inj h
    exact hm other hother
  | set name change =>
    obtain ⟨-, rfl⟩ := after_set_eq_ok_iff.mp h
    by_cases hname : other = name
    · simp [hname]
    · simpa [Function.update_of_ne hname] using hm other hother
  | use name =>
    obtain ⟨hname, rfl⟩ := after_use_eq_ok_iff.mp h
    obtain rfl := Option.some.inj hother
    exact hname
  | unset =>
    obtain rfl : ⟨m.profile, none⟩ = m' := Except.ok.inj h
    exact absurd hother (by simp)
  | delete name =>
    obtain ⟨-, rfl⟩ := after_delete_eq_ok_iff.mp h
    obtain ⟨hne, hother⟩ : m.default ≠ some name ∧ m.default = some other := by
      by_cases hdefault : m.default = some name <;> simp_all
    have hname : other ≠ name := fun heq => hne (heq ▸ hother)
    simpa [Function.update_of_ne hname] using hm other hother

end ProfileMap

/-! ### Checks -/

namespace ProfileSettings

variable {s : ProfileSettings} {name : String} {p : Profile}

/-- The name of a strategy is read as the strategy. -/
theorem strategyOfText?_name (x : PageStrategy) : strategyOfText? x.name = some x := by
  have hlower : x.name.map Char.toLower = x.name := by
    rw [← String.toList_inj, String.toList_map]
    cases x <;> decide
  rw [strategyOfText?, hlower]
  cases x <;> decide

theorem Spells.change (h : s.Spells p) (c : ProfileChange) : (s.change c).Spells (p.overwrite c) where
  defaultOptional := congrArg (c.defaultOptional <|> ·) h.defaultOptional
  applyRBAC := congrArg (c.applyRBAC <|> ·) h.applyRBAC
  pageLimit := congrArg (c.pageLimit <|> ·) h.pageLimit
  strategy := by
    cases hc : c.strategy with
    | none => simpa [ProfileSettings.change, Profile.overwrite, hc] using h.strategy
    | some x => simp [ProfileSettings.change, Profile.overwrite, hc, strategyOfText?_name]
  includeHidden := congrArg (c.includeHidden <|> ·) h.includeHidden

theorem pageLimit_change (c : ProfileChange) {limit : Nat} :
    (s.change c).pageLimit = some limit ↔
      c.pageLimit = some limit ∨ c.pageLimit = none ∧ s.pageLimit = some limit := by
  show (c.pageLimit <|> s.pageLimit) = some limit ↔ _
  rw [Option.orElse_eq_orElse, Option.orElse_eq_or, Option.or_eq_some_iff]

/-- **Settings in order** are so after a change, unless the page limit is made zero. -/
theorem check_change (h : s.check name = .ok p) (c : ProfileChange) :
    (s.change c).check name =
      if c.pageLimit = some 0 then .error (.zeroPageLimit name) else .ok (p.overwrite c) := by
  obtain ⟨hold, hspells⟩ := check_eq_ok_iff.mp h
  split
  · next hzero => simp [check, change, hzero]
  · next hzero =>
    refine check_eq_ok_iff.mpr ⟨?_, hspells.change c⟩
    intro hlimit
    rcases (pageLimit_change c).mp hlimit with h | ⟨-, h⟩
    · exact hzero h
    · exact hold h

theorem InRange.change (h : s.InRange) {c : ProfileChange}
    (hc : ∀ n, c.pageLimit = some n → n < pageLimitBound) : (s.change c).InRange := by
  intro n hn
  rcases (pageLimit_change c).mp hn with hn | ⟨-, hn⟩
  · exact hc n hn
  · exact h n hn

end ProfileSettings

end PatternQuery
