import PatternQuery.Command.Sources
import PatternQuery.Proofs.Fallible
import PatternQuery.Proofs.Ordered

/-!
# Profiles that were read

The page limit of a profile that is in force can be asked for: it is not zero, and it fits into the
number that a page holds. The two halves come from different places. The bound comes from the reading,
where every page limit is read below it (`ProfileSettings.inRange_of_ofToml?`) and entries are put into a
list that starts empty (`StoredProfiles.settingsOfToml?_induction`). That it is not zero comes from the
check (`ProfileSettings.check_eq_ok_iff`), which every profile of the index has passed
(`ProfileBook.exists_settings_of_indexOf`).

What is read depends on the format of the file, of which no more is used than two laws
(`ProfileFormat.Lawful`).
-/

namespace PatternQuery

theorem Toml.lt_of_natBelow? {limit n : Nat} {v : Toml} (h : v.natBelow? limit = some n) :
    n < limit := by
  cases v with
  | int i =>
    rw [natBelow?] at h
    split_ifs at h with hrange
    obtain rfl := Option.some.inj h
    omega
  | _ => exact absurd h (by simp [natBelow?])

/-! ### Settings -/

namespace ProfileSettings

variable {s : ProfileSettings} {name : String} {p : Profile}

/-- **Settings that can be stored:** the page limit, if there is one, is in the range of what is read. -/
def InRange (s : ProfileSettings) : Prop := ∀ n, s.pageLimit = some n → n < pageLimitBound

theorem inRange_blank : blank.InRange := fun _ hn => absurd hn (by simp [blank])

theorem exists_of_readSetting {α : Type} {entries : List (String × Toml)} {name : String}
    {read : Toml → Option α} {a : α} (h : readSetting entries name read = some (some a)) :
    ∃ v, read v = some a := by
  unfold readSetting at h
  split at h
  · exact absurd h (by simp)
  · next v _ =>
    obtain ⟨a', ha', heq⟩ := Option.map_eq_some_iff.mp h
    exact ⟨v, Option.some.inj heq ▸ ha'⟩

theorem inRange_of_ofEntries? {entries : List (String × Toml)} (h : ofEntries? entries = some s) :
    s.InRange := by
  obtain ⟨_, -, h⟩ := Option.bind_eq_some_iff.mp h
  obtain ⟨_, -, h⟩ := Option.bind_eq_some_iff.mp h
  obtain ⟨limit, hlimit, h⟩ := Option.bind_eq_some_iff.mp h
  obtain ⟨_, -, h⟩ := Option.bind_eq_some_iff.mp h
  obtain ⟨_, -, h⟩ := Option.bind_eq_some_iff.mp h
  obtain rfl := Option.some.inj h
  rintro n rfl
  obtain ⟨v, hv⟩ := exists_of_readSetting hlimit
  exact Toml.lt_of_natBelow? hv

/-- **Every page limit is read below its bound,** whichever way the settings are spelled. -/
theorem inRange_of_ofToml? {v : Toml} (h : ofToml? v = some s) : s.InRange := by
  unfold ofToml? at h
  split at h
  · exact inRange_of_ofEntries? h
  · -- In an array the page limit is the third entry, and is not optional.
    obtain ⟨_, -, h⟩ := Option.bind_eq_some_iff.mp h
    obtain ⟨_, -, h⟩ := Option.bind_eq_some_iff.mp h
    obtain ⟨limit, hlimit, h⟩ := Option.bind_eq_some_iff.mp h
    obtain ⟨_, -, h⟩ := Option.bind_eq_some_iff.mp h
    obtain ⟨_, -, h⟩ := Option.bind_eq_some_iff.mp h
    obtain rfl := Option.some.inj h
    intro n hn
    obtain rfl := Option.some.inj hn
    exact Toml.lt_of_natBelow? hlimit
  · obtain rfl := Option.some.inj h
    exact inRange_blank
  · exact absurd h (by simp)

/-- Settings spell a profile: they are its own, and the strategy is named in any mixture of upper and
lower case. -/
structure Spells (s : ProfileSettings) (p : Profile) : Prop where
  defaultOptional : s.defaultOptional = p.defaultOptional
  applyRBAC : s.applyRBAC = p.applyRBAC
  pageLimit : s.pageLimit = p.pageLimit
  strategy : s.strategy.map strategyOfText? = p.strategy.map some
  includeHidden : s.includeHidden = p.includeHidden

/-- **The check reads the profile that is spelled,** unless the page limit is zero. -/
theorem check_eq_ok_iff : s.check name = .ok p ↔ s.pageLimit ≠ some 0 ∧ s.Spells p := by
  unfold check
  by_cases hzero : s.pageLimit = some 0
  · simp [hzero]
  rw [if_neg hzero]
  constructor
  · intro h
    refine ⟨hzero, ?_⟩
    split at h
    · next hnone =>
      obtain rfl := Except.ok.inj h
      exact ⟨rfl, rfl, rfl, by rw [hnone]; rfl, rfl⟩
    · next text htext =>
      split at h
      · next strategy hstrategy =>
        obtain rfl := Except.ok.inj h
        exact ⟨rfl, rfl, rfl, by rw [htext, Option.map_some, hstrategy]; rfl, rfl⟩
      · exact absurd h (by simp)
  · rintro ⟨-, h⟩
    obtain ⟨defaultOptional, applyRBAC, pageLimit, strategy, includeHidden⟩ := p
    obtain ⟨rfl, rfl, rfl, hstrategy, rfl⟩ := h
    cases htext : s.strategy with
    | none =>
      rw [htext] at hstrategy
      cases strategy with
      | none => rfl
      | some x => exact absurd hstrategy (by simp)
    | some text =>
      rw [htext] at hstrategy
      cases strategy with
      | none => exact absurd hstrategy (by simp)
      | some x =>
        have hx : strategyOfText? text = some x := Option.some.inj hstrategy
        dsimp only
        rw [hx]

end ProfileSettings

/-! ### Stored profiles -/

namespace StoredProfiles

/-- Everything that is stored can be stored. -/
def InRange (s : StoredProfiles) : Prop := ∀ entry ∈ s.settings, entry.2.InRange

/-- **The profiles are put into a list that starts empty,** one after another. -/
theorem settingsOfToml?_induction {motive : List (String × ProfileSettings) → Prop}
    (nil : motive []) (insert : ∀ settings name v s, ProfileSettings.ofToml? v = some s →
      motive settings → motive (Ordered.insert compare name s settings))
    {entries : List (String × Toml)} {settings : List (String × ProfileSettings)}
    (h : settingsOfToml? entries = some settings) : motive settings := by
  have hrun (entries : List (String × Toml)) (start : List (String × ProfileSettings))
      (hstart : motive start)
      (h : entries.foldlM (fun settings entry => (ProfileSettings.ofToml? entry.2).bind
        fun s => some (Ordered.insert compare entry.1 s settings)) start = some settings) :
      motive settings := by
    induction entries generalizing start with
    | nil =>
      obtain rfl : start = settings := Option.some.inj h
      exact hstart
    | cons entry entries ih =>
      obtain ⟨next, hnext, h⟩ := Option.bind_eq_some_iff.mp h
      obtain ⟨s, hs, hinsert⟩ := Option.bind_eq_some_iff.mp hnext
      obtain rfl := Option.some.inj hinsert
      exact ih _ (insert start entry.1 entry.2 s hs hstart) h
  exact hrun entries [] nil h

theorem inRange_of_settingsOfToml? {entries : List (String × Toml)}
    {settings : List (String × ProfileSettings)} (h : settingsOfToml? entries = some settings) :
    ∀ entry ∈ settings, entry.2.InRange := by
  refine settingsOfToml?_induction (motive := fun settings => ∀ entry ∈ settings, entry.2.InRange)
    (by simp) (fun settings name v s hs ih entry hmem => ?_) h
  rcases Ordered.eq_or_mem_of_mem_insert hmem with rfl | hmem
  · exact ProfileSettings.inRange_of_ofToml? hs
  · exact ih entry hmem

theorem sorted_of_settingsOfToml? {entries : List (String × Toml)}
    {settings : List (String × ProfileSettings)} (h : settingsOfToml? entries = some settings) :
    Ordered.Sorted compare settings :=
  settingsOfToml?_induction Ordered.sorted_nil (fun _ _ _ _ _ ih => ih.alter) h

/-- **What is read from a profile file** has its profiles in ascending order, each of which can be
stored. -/
theorem sorted_and_inRange_of_ofText? {text : String} {s : StoredProfiles} (h : ofText? text = some s) :
    Ordered.Sorted compare s.settings ∧ s.InRange := by
  obtain ⟨entries, -, h⟩ := Option.bind_eq_some_iff.mp h
  obtain ⟨defaultName, -, h⟩ := Option.bind_eq_some_iff.mp h
  dsimp only at h
  split at h
  · obtain rfl := Option.some.inj h
    exact ⟨Ordered.sorted_nil, fun entry hmem => absurd hmem (by simp)⟩
  · obtain ⟨profiles, -, h⟩ := Option.bind_eq_some_iff.mp h
    obtain ⟨settings, hsettings, h⟩ := Option.bind_eq_some_iff.mp h
    obtain rfl := Option.some.inj h
    exact ⟨sorted_of_settingsOfToml? hsettings, inRange_of_settingsOfToml? hsettings⟩

end StoredProfiles

/-- **A lawful format:** -/
structure ProfileFormat.Lawful (format : ProfileFormat) : Prop where
  /-- profiles that ascend and can be stored are read as they were written, -/
  read_write : ∀ s : StoredProfiles, s.InRange → Ordered.Sorted compare s.settings →
    format.read (format.write s) = some s
  /-- and nothing but such profiles is read. -/
  sorted_and_inRange : ∀ text s, format.read text = some s →
    Ordered.Sorted compare s.settings ∧ s.InRange

/-! ### Profiles in force -/

/-- **A profile that can be in force:** its page limit, if there is one, can be asked for. -/
def Profile.InRange (p : Profile) : Prop :=
  ∀ n, p.pageLimit = some n → n ≠ 0 ∧ n < ProfileSettings.pageLimitBound

theorem Profile.inRange_blank : Profile.blank.InRange := fun _ hn => absurd hn (by simp [blank])

namespace ProfileBook

variable {b : ProfileBook}

theorem indexOf_cons (entry : String × ProfileSettings)
    (settings : List (String × ProfileSettings)) : indexOf (entry :: settings) =
    (entry.2.check entry.1).bind fun p => (indexOf settings).map fun index => (entry.1, p) :: index := by
  obtain ⟨name, s⟩ := entry
  rw [indexOf, List.mapM_cons]
  dsimp only
  cases s.check name with
  | error e => rfl
  | ok p =>
    show (indexOf settings).bind _ = (indexOf settings).map _
    cases indexOf settings <;> rfl

theorem exists_settings_of_indexOf {settings : List (String × ProfileSettings)}
    {index : List (String × Profile)} (h : indexOf settings = .ok index) :
    ∀ entry ∈ index, ∃ s, (entry.1, s) ∈ settings ∧ s.check entry.1 = .ok entry.2 := by
  induction settings generalizing index with
  | nil =>
    obtain rfl : [] = index := Except.ok.inj h
    exact fun entry hmem => absurd hmem (by simp)
  | cons first settings ih =>
    rw [indexOf_cons] at h
    obtain ⟨p, hp, h⟩ := bind_eq_ok_iff.mp h
    obtain ⟨rest, hrest, rfl⟩ := map_eq_ok_iff.mp h
    intro entry hmem
    rcases List.mem_cons.mp hmem with rfl | hmem
    · exact ⟨first.2, List.mem_cons_self, hp⟩
    · obtain ⟨s, hs, hcheck⟩ := ih hrest entry hmem
      exact ⟨s, List.mem_cons_of_mem _ hs, hcheck⟩

theorem run_get_bind {β : Type} (f : ProfileBook → ProfileEdit β) :
    (get >>= f : ProfileEdit β).run.run b = (f b).run.run b := rfl

theorem run_set_bind {β : Type} (b' : ProfileBook) (f : PUnit → ProfileEdit β) :
    (set b' >>= f : ProfileEdit β).run.run b = (f ⟨⟩).run.run b' := rfl

/-- The index is not made where a profile does not pass its check. -/
theorem run_reindex_of_error {e : ProfileError} (h : indexOf b.stored.settings = .error e) :
    reindex.run.run b = (.error e, b) := by
  rw [reindex, run_get_bind, h]
  rfl

/-- Where all profiles pass, the index is made anew, whatever becomes of the default profile. -/
theorem snd_run_reindex_of_ok {index : List (String × Profile)}
    (h : indexOf b.stored.settings = .ok index) : (reindex.run.run b).2 = { b with index } := by
  rw [reindex, run_get_bind, h]
  dsimp only
  rw [run_set_bind]
  split
  · rfl
  · split <;> rfl

/-- **A book that was opened** holds what is stored, and its index. -/
theorem indexOf_of_ofStored {s : StoredProfiles} (h : ofStored s = .ok b) :
    b.stored = s ∧ indexOf s.settings = .ok b.index := by
  unfold ofStored at h
  split at h
  · next b' hrun =>
    obtain rfl := Except.ok.inj h
    cases hindex : indexOf s.settings with
    | error e =>
      rw [run_reindex_of_error hindex] at hrun -- A book is opened only where indexing succeeds.
      exact absurd (Prod.mk.inj hrun).1 (by simp)
    | ok index =>
      obtain rfl : b' = ⟨s, index⟩ :=
        (congrArg Prod.snd hrun).symm.trans (snd_run_reindex_of_ok hindex)
      exact ⟨rfl, rfl⟩
  · exact absurd h (by simp)

/-- **The profiles of a book that was opened** can be in force, if what is stored can be stored. -/
theorem inRange_of_ofStored {s : StoredProfiles} (hs : s.InRange) (h : ofStored s = .ok b) :
    ∀ entry ∈ b.index, entry.2.InRange := by
  obtain ⟨-, hindex⟩ := indexOf_of_ofStored h
  intro entry hmem n hn
  obtain ⟨settings, hsettings, hcheck⟩ := exists_settings_of_indexOf hindex entry hmem
  obtain ⟨hne, hspells⟩ := ProfileSettings.check_eq_ok_iff.mp hcheck
  rw [← hspells.pageLimit] at hn
  refine ⟨?_, hs _ hsettings n hn⟩
  rintro rfl
  exact hne hn

/-- The profile in force is one of the book, or the blank one. -/
theorem inRange_of_active (hb : ∀ entry ∈ b.index, entry.2.InRange) {requested : Option String}
    {chosen : Option Profile} (h : b.active requested = .ok chosen) : (chosen.getD .blank).InRange := by
  have hlookup {name : String} {p : Profile} (hp : b.index.lookup name = some p) : p.InRange := by
    obtain ⟨before, after, hindex, -⟩ := List.lookup_eq_some_iff.mp hp
    exact hb (name, p) (hindex ▸ List.mem_append_right _ List.mem_cons_self)
  cases requested with
  | none =>
    obtain rfl := Except.ok.inj h
    cases hp : b.defaultName.bind fun name => b.index.lookup name with
    | none => exact Profile.inRange_blank
    | some p =>
      obtain ⟨name, -, hp⟩ := Option.bind_eq_some_iff.mp hp
      exact hlookup hp
  | some name =>
    obtain ⟨p, hp, rfl⟩ := map_eq_ok_iff.mp h
    unfold find at hp
    split at hp
    · next found hfound => exact Except.ok.inj hp ▸ hlookup hfound
    · exact absurd hp (by simp)

end ProfileBook

namespace Sources

variable {s : Sources} {format : ProfileFormat} {path : Option String} {b : ProfileBook}

/-- What is opened was read from a file, or nothing is stored. -/
theorem exists_stored_of_profiles (hformat : format.Lawful) (h : s.profiles format path = .ok b) :
    ∃ stored : StoredProfiles, Ordered.Sorted compare stored.settings ∧ stored.InRange ∧
      ProfileBook.ofStored stored = .ok b := by
  have hopened (stored : StoredProfiles)
      (hs : Ordered.Sorted compare stored.settings ∧ stored.InRange)
      (h : (ProfileBook.ofStored stored).mapError CommandError.profile = .ok b) :
      ∃ stored : StoredProfiles, Ordered.Sorted compare stored.settings ∧ stored.InRange ∧
        ProfileBook.ofStored stored = .ok b :=
    ⟨stored, hs.1, hs.2, mapError_eq_ok_iff.mp h⟩
  have hempty : Ordered.Sorted compare StoredProfiles.empty.settings ∧ StoredProfiles.empty.InRange :=
    ⟨Ordered.sorted_nil, fun entry hmem => absurd hmem (by simp [StoredProfiles.empty])⟩
  unfold profiles at h
  dsimp only at h
  split at h
  · exact hopened _ hempty h
  · split at h
    · split at h
      · exact hopened _ hempty h
      · exact absurd h throw_ne_ok
    · split at h
      · next stored htext =>
        exact hopened stored (hformat.sorted_and_inRange _ _ htext) h
      · exact absurd h throw_ne_ok

/-- **Every profile of a file that was opened can be in force.** -/
theorem inRange_of_profiles (hformat : format.Lawful) (h : s.profiles format path = .ok b) :
    ∀ entry ∈ b.index, entry.2.InRange := by
  obtain ⟨stored, -, hs, h⟩ := exists_stored_of_profiles hformat h
  exact ProfileBook.inRange_of_ofStored hs h

/-- **The profile in force,** which is blank if none is chosen, is one of these. -/
theorem inRange_of_active (hformat : format.Lawful) (h : s.profiles format path = .ok b)
    {requested : Option String} {p : Profile}
    (hp : (b.active requested).map (·.getD .blank) = .ok p) : p.InRange := by
  obtain ⟨chosen, hchosen, rfl⟩ := map_eq_ok_iff.mp hp
  exact ProfileBook.inRange_of_active (inRange_of_profiles hformat h) hchosen

end Sources

end PatternQuery
