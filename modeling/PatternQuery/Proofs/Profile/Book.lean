import PatternQuery.Proofs.Profile.Map

/-!
# The book of profiles is the map

The book keeps more than the map of profiles: the settings as they are written, in ascending order of
the names, and the index of what they are read as. What is stored spells the map when each of the
settings is read as the profile of the map (`StoredProfiles.Spells`), and a book is in order when its
index is this map (`ProfileBook.Sound`). Every book that was opened is in order
(`Sources.sound_of_profiles`), an edit of such a book does what is said of the map
(`ProfileBook.Sound.does_edit`), and such a book is opened again as it was
(`ProfileBook.Sound.ofStored_eq`).

The index is made anew from all settings, so an edit could fail for a profile that it has nothing to do
with. It does not, because all other profiles have passed their checks before
(`StoredProfiles.Spells.put`, `StoredProfiles.Spells.indexOf_put_eq_error`).
-/

namespace PatternQuery

namespace ProfileBook

variable {b : ProfileBook} {settings : List (String × ProfileSettings)}
  {index : List (String × Profile)} {e : ProfileError} {name : String}

/-! ### The index -/

/-- **The index is made where all profiles pass their checks.** -/
theorem exists_indexOf_iff : (∃ index, indexOf settings = .ok index) ↔
    ∀ entry ∈ settings, ∃ p, entry.2.check entry.1 = .ok p := by
  induction settings with
  | nil => exact iff_of_true ⟨[], rfl⟩ (by simp)
  | cons entry settings ih =>
    rw [List.forall_mem_cons, ← ih, indexOf_cons]
    cases entry.2.check entry.1 with
    | error e => simp [Except.bind]
    | ok p =>
      cases indexOf settings with
      | error e => simp [Except.bind, Except.map]
      | ok index => simp [Except.bind, Except.map]

/-- An error of the index is the error of one of the profiles. -/
theorem exists_check_eq_error (h : indexOf settings = .error e) :
    ∃ entry ∈ settings, entry.2.check entry.1 = .error e := by
  induction settings with
  | nil => exact absurd h (by simp [indexOf, pure, Except.pure])
  | cons entry settings ih =>
    rw [indexOf_cons] at h
    rcases bind_eq_error_iff.mp h with hcheck | ⟨p, -, h⟩
    · exact ⟨entry, List.mem_cons_self, hcheck⟩
    · cases hrest : indexOf settings with
      | ok index => exact absurd h (by simp [hrest, Except.map])
      | error e =>
        rw [hrest] at h
        obtain rfl := Except.error.inj h
        obtain ⟨entry', hentry', hcheck'⟩ := ih hrest
        exact ⟨entry', List.mem_cons_of_mem _ hentry', hcheck'⟩

/-- Where one profile fails its check and all others pass, the making of the index fails as it does. -/
theorem indexOf_eq_error {t : ProfileSettings} (hsorted : Ordered.Sorted compare settings)
    (ht : settings.lookup name = some t) (hcheck : t.check name = .error e)
    (hothers : ∀ k u, k ≠ name → settings.lookup k = some u → ∃ p, u.check k = .ok p) :
    indexOf settings = .error e := by
  have hmem (k : String) (u : ProfileSettings) : settings.lookup k = some u ↔ (k, u) ∈ settings :=
    lookup_eq_some_iff_mem hsorted.nodup
  cases h : indexOf settings with
  | ok index =>
    obtain ⟨p, hp⟩ := exists_indexOf_iff.mp ⟨index, h⟩ _ ((hmem _ _).mp ht)
    exact absurd (hcheck.symm.trans hp) (by simp)
  | error e' =>
    obtain ⟨⟨k, u⟩, hentry, hcheck'⟩ := exists_check_eq_error h
    have hu := (hmem _ _).mpr hentry
    by_cases hk : k = name
    · subst hk
      obtain rfl := Option.some.inj (ht.symm.trans hu)
      rw [Except.error.inj (hcheck'.symm.trans hcheck)]
    · obtain ⟨p, hp⟩ := hothers k u hk hu
      exact absurd (hcheck'.symm.trans hp) (by simp)

/-- **What is found in the index** are the settings that are found, as they are read. -/
theorem lookup_of_indexOf (h : indexOf settings = .ok index) (name : String) :
    index.lookup name = (settings.lookup name).bind fun s => (s.check name).toOption := by
  induction settings generalizing index with
  | nil =>
    obtain rfl : [] = index := Except.ok.inj h
    rfl
  | cons entry settings ih =>
    rw [indexOf_cons] at h
    obtain ⟨p, hp, h⟩ := bind_eq_ok_iff.mp h
    obtain ⟨rest, hrest, rfl⟩ := map_eq_ok_iff.mp h
    rw [List.lookup_cons, List.lookup_cons]
    by_cases hname : name = entry.1
    · rw [hname, beq_self_eq_true]
      show some p = (entry.2.check entry.1).toOption
      rw [hp]
      rfl
    · rw [beq_false_of_ne hname]
      exact ih hrest

end ProfileBook

/-! ### Books in order -/

/-- **Stored profiles spell a map:** they ascend and can be stored, each of them is read as the profile
of the map, and the default is one of them. -/
structure StoredProfiles.Spells (s : StoredProfiles) (m : ProfileMap) : Prop where
  sorted : Ordered.Sorted compare s.settings
  inRange : s.InRange
  profile : ∀ name, Option.Rel (fun t p => t.check name = .ok p) (s.settings.lookup name)
    (m.profile name)
  default_eq : s.defaultName = m.default
  valid : m.Valid

namespace StoredProfiles.Spells

variable {s : StoredProfiles} {m : ProfileMap} (h : s.Spells m)
include h

theorem mem_iff {name : String} {t : ProfileSettings} :
    s.settings.lookup name = some t ↔ (name, t) ∈ s.settings :=
  lookup_eq_some_iff_mem h.sorted.nodup

theorem exists_check {name : String} {t : ProfileSettings} (ht : s.settings.lookup name = some t) :
    ∃ p, t.check name = .ok p ∧ m.profile name = some p := by
  have hrel := h.profile name
  rw [ht] at hrel
  cases hp : m.profile name with
  | none =>
    rw [hp] at hrel
    cases hrel
  | some p =>
    rw [hp] at hrel
    cases hrel with
    | some hcheck => exact ⟨p, hcheck, rfl⟩

theorem profile_eq_none {name : String} (ht : s.settings.lookup name = none) :
    m.profile name = none := by
  have hrel := h.profile name
  rw [ht] at hrel
  cases hp : m.profile name with
  | none => rfl
  | some p =>
    rw [hp] at hrel
    cases hrel

theorem isSome_profile (name : String) :
    (m.profile name).isSome = (s.settings.lookup name).isSome := by
  cases ht : s.settings.lookup name with
  | none =>
    rw [h.profile_eq_none ht]
    rfl
  | some t =>
    obtain ⟨p, -, hp⟩ := h.exists_check ht
    rw [hp]
    rfl

/-- What is stored under a name, or the blank settings, is read as the profile with the name, or as the
blank profile. -/
theorem check_getD (name : String) : ((s.settings.lookup name).getD .blank).check name =
    .ok ((m.profile name).getD .blank) := by
  cases ht : s.settings.lookup name with
  | none =>
    rw [h.profile_eq_none ht]
    rfl
  | some t =>
    obtain ⟨p, hcheck, hp⟩ := h.exists_check ht
    rw [hp]
    exact hcheck

end StoredProfiles.Spells

namespace ProfileBook

/-- The map that a book stands for. -/
def map (b : ProfileBook) : ProfileMap := ⟨fun name => b.index.lookup name, b.stored.defaultName⟩

/-- **A book in order:** what is stored spells its map, and the index is what is stored, as it is read. -/
structure Sound (b : ProfileBook) : Prop where
  spells : b.stored.Spells b.map
  indexed : indexOf b.stored.settings = .ok b.index

variable {b : ProfileBook} {index : List (String × Profile)} {name : String} {stored : StoredProfiles}
  {m : ProfileMap}

theorem run_reindex_of_ok (hindex : indexOf b.stored.settings = .ok index)
    (hdefault : ∀ name, b.stored.defaultName = some name → (index.lookup name).isSome) :
    reindex.run.run b = (.ok (), { b with index }) := by
  refine Prod.ext ?_ (snd_run_reindex_of_ok hindex)
  rw [reindex, run_get_bind, hindex]
  dsimp only
  rw [run_set_bind]
  cases hname : b.stored.defaultName with
  | none => rfl
  | some name =>
    dsimp only
    rw [if_pos (hdefault name hname)]
    rfl

theorem run_reindex_of_missing (hindex : indexOf b.stored.settings = .ok index)
    (hname : b.stored.defaultName = some name) (hmissing : ¬ (index.lookup name).isSome) :
    reindex.run.run b = (.error (.notFound name), { b with index }) := by
  refine Prod.ext ?_ (snd_run_reindex_of_ok hindex)
  rw [reindex, run_get_bind, hindex]
  dsimp only
  rw [run_set_bind, hname]
  dsimp only
  rw [if_neg hmissing]
  rfl

theorem sound_of_indexOf (hsorted : Ordered.Sorted compare b.stored.settings)
    (hrange : b.stored.InRange) (hindex : indexOf b.stored.settings = .ok b.index)
    (hdefault : ∀ name, b.stored.defaultName = some name → (b.index.lookup name).isSome) :
    b.Sound := by
  refine ⟨⟨hsorted, hrange, fun name => ?_, rfl, hdefault⟩, hindex⟩
  show Option.Rel _ _ (b.index.lookup name)
  rw [lookup_of_indexOf hindex]
  cases h : b.stored.settings.lookup name with
  | none => exact .none
  | some s =>
    obtain ⟨p, hp⟩ := exists_indexOf_iff.mp ⟨_, hindex⟩ _
      ((lookup_eq_some_iff_mem hsorted.nodup).mp h)
    rw [Option.bind_some, hp]
    exact .some hp

/-- **A book that was opened is in order,** if what is stored ascends and can be stored. -/
theorem sound_of_ofStored (hsorted : Ordered.Sorted compare stored.settings)
    (hrange : stored.InRange) (h : ofStored stored = .ok b) : b.Sound := by
  obtain ⟨rfl, hindex⟩ := indexOf_of_ofStored h
  refine sound_of_indexOf hsorted hrange hindex fun name hname => ?_
  by_contra hmissing
  have hrun : reindex.run.run ⟨b.stored, []⟩ = (.error (.notFound name), b) :=
    run_reindex_of_missing hindex hname hmissing
  rw [ofStored, hrun] at h
  exact absurd h (by simp)

/-- **A book in order is opened again as it was.** -/
theorem Sound.ofStored_eq (hb : b.Sound) : ofStored b.stored = .ok b := by
  have hrun : reindex.run.run ⟨b.stored, []⟩ = (.ok (), b) :=
    run_reindex_of_ok hb.indexed hb.spells.valid
  rw [ofStored, hrun]

theorem Sound.read_write (hb : b.Sound) {format : ProfileFormat} (hformat : format.Lawful) :
    format.read (format.write b.stored) = some b.stored :=
  hformat.read_write b.stored hb.spells.inRange hb.spells.sorted

/-- **Where what is stored spells a map,** a book in order that stands for it comes out once the index
has been made anew. -/
theorem exists_run_reindex (h : stored.Spells m) (index : List (String × Profile)) :
    ∃ b, reindex.run.run ⟨stored, index⟩ = (.ok (), b) ∧ b.Sound ∧ b.map = m := by
  obtain ⟨index', hindex⟩ : ∃ index, indexOf stored.settings = .ok index := by
    refine exists_indexOf_iff.mpr fun entry hentry => ?_
    obtain ⟨p, hp, -⟩ := h.exists_check (h.mem_iff.mpr hentry)
    exact ⟨p, hp⟩
  have hprofile (name : String) : index'.lookup name = m.profile name := by
    rw [lookup_of_indexOf hindex]
    cases hs : stored.settings.lookup name with
    | none => exact (h.profile_eq_none hs).symm
    | some s =>
      obtain ⟨p, hp, hm⟩ := h.exists_check hs
      rw [Option.bind_some, hp, hm]
      rfl
  have hmap : (⟨stored, index'⟩ : ProfileBook).map = m := ProfileMap.ext (funext hprofile) h.default_eq
  have hdefault (name : String) (hname : stored.defaultName = some name) :
      (index'.lookup name).isSome := by
    rw [hprofile]
    exact h.valid name (h.default_eq ▸ hname)
  exact ⟨⟨stored, index'⟩, run_reindex_of_ok hindex hdefault,
    ⟨hmap.symm ▸ h, hindex⟩, hmap⟩

end ProfileBook

/-- **Every book that was opened is in order.** -/
theorem Sources.sound_of_profiles {s : Sources} {format : ProfileFormat} {path : Option String}
    {b : ProfileBook} (hformat : format.Lawful) (h : s.profiles format path = .ok b) : b.Sound := by
  obtain ⟨stored, hsorted, hs, h⟩ := exists_stored_of_profiles hformat h
  exact ProfileBook.sound_of_ofStored hsorted hs h

/-! ### Edits of what is stored -/

namespace StoredProfiles

variable {s : StoredProfiles} {m m' : ProfileMap} {name : String} {change : ProfileChange}

/-- What is stored when the settings of a profile have been changed. -/
def put (s : StoredProfiles) (name : String) (change : ProfileChange) : StoredProfiles :=
  ⟨s.defaultName, Ordered.alter compare name (fun old => (old.getD .blank).change change) s.settings⟩

/-- What is stored when a profile has been deleted. -/
def delete (s : StoredProfiles) (name : String) : StoredProfiles :=
  ⟨s.defaultName.filter (· != name), s.settings.filter (·.1 != name)⟩

namespace Spells

variable (h : s.Spells m)
include h

theorem sorted_put : Ordered.Sorted compare (s.put name change).settings := h.sorted.alter

theorem lookup_put (k : String) : (s.put name change).settings.lookup k =
    if k = name then some (((s.settings.lookup name).getD .blank).change change)
    else s.settings.lookup k := by
  rw [StoredProfiles.put, h.sorted.lookup_alter]
  simp only [beq_iff_eq]

theorem inRange_put
    (hchange : ∀ n, change.pageLimit = some n → n < ProfileSettings.pageLimitBound) :
    (s.put name change).InRange := by
  intro entry hentry
  have hentry := (lookup_eq_some_iff_mem h.sorted_put.nodup).mpr hentry
  rw [h.lookup_put] at hentry
  split_ifs at hentry
  · have hold : ((s.settings.lookup name).getD .blank).InRange := by
      cases ht : s.settings.lookup name with
      | none => exact ProfileSettings.inRange_blank
      | some t => exact h.inRange _ (h.mem_iff.mp ht)
    exact Option.some.inj hentry ▸ hold.change hchange
  · exact h.inRange _ (h.mem_iff.mp hentry)

/-- **Settings are overwritten.** -/
theorem put (hchange : ∀ n, change.pageLimit = some n → n < ProfileSettings.pageLimitBound)
    (hafter : m.after (.set name change) = .ok m') : (s.put name change).Spells m' := by
  refine ⟨h.sorted_put, h.inRange_put hchange, fun k => ?_, ?_, h.valid.after hafter⟩
  · have hnew := ProfileSettings.check_change (h.check_getD name) change
    obtain ⟨hzero, rfl⟩ := ProfileMap.after_set_eq_ok_iff.mp hafter
    rw [if_neg hzero] at hnew
    dsimp only
    rw [h.lookup_put, Function.update_apply]
    split_ifs with hk
    · rw [hk]
      exact .some hnew
    · exact h.profile k
  · obtain ⟨-, rfl⟩ := ProfileMap.after_set_eq_ok_iff.mp hafter
    exact h.default_eq

/-- **A profile is deleted,** and is no longer the default. -/
theorem delete (hafter : m.after (.delete name) = .ok m') : (s.delete name).Spells m' := by
  refine ⟨h.sorted.filter _, fun entry hentry => h.inRange entry (List.mem_of_mem_filter hentry),
    fun k => ?_, ?_, h.valid.after hafter⟩
  · obtain ⟨-, rfl⟩ := ProfileMap.after_delete_eq_ok_iff.mp hafter
    dsimp only [StoredProfiles.delete]
    rw [lookup_filter_ne, Function.update_apply]
    simp only [beq_iff_eq]
    split_ifs
    · exact .none
    · exact h.profile k
  · obtain ⟨-, rfl⟩ := ProfileMap.after_delete_eq_ok_iff.mp hafter
    show s.defaultName.filter (· != name) = if m.default = some name then none else m.default
    rw [h.default_eq]
    cases m.default with
    | none => rfl
    | some k => by_cases hk : k = name <;> simp [Option.filter, hk]

/-- A profile whose page limit is made zero does not pass its check. -/
theorem exists_lookup_put_of_zero (name : String) (hzero : change.pageLimit = some 0) :
    ∃ t, (s.put name change).settings.lookup name = some t ∧
      t.check name = .error (.zeroPageLimit name) := by
  have hnew := ProfileSettings.check_change (h.check_getD name) change
  rw [if_pos hzero] at hnew
  exact ⟨_, by rw [h.lookup_put, if_pos rfl], hnew⟩

/-- A change that makes the page limit zero fails at the profile that is changed, as the others pass
their checks. -/
theorem indexOf_put_eq_error (hzero : change.pageLimit = some 0) :
    ProfileBook.indexOf (s.put name change).settings = .error (.zeroPageLimit name) := by
  obtain ⟨t, ht, hcheck⟩ := h.exists_lookup_put_of_zero name hzero
  refine ProfileBook.indexOf_eq_error h.sorted_put ht hcheck fun k u hk hu => ?_
  rw [h.lookup_put, if_neg hk] at hu
  obtain ⟨p, hp, -⟩ := h.exists_check hu
  exact ⟨p, hp⟩

end Spells

end StoredProfiles

/-! ### Edits of the book -/

/-- The page limit that an action gives, if there is one, can be stored. -/
def ProfileAction.InRange : ProfileAction → Prop
  | set _ change => ∀ n, change.pageLimit = some n → n < ProfileSettings.pageLimitBound
  | list | use _ | unset | delete _ => True

namespace ProfileBook

variable {b : ProfileBook}

/-- **An edit does to a book what is said of the map:** it fails with the error, or it gives a book in
order that stands for the map. -/
def Does (edit : ProfileEdit Unit) (b : ProfileBook) : Except ProfileError ProfileMap → Prop
  | .error e => (edit.run.run b).1 = .error e
  | .ok m => ∃ b', edit.run.run b = (.ok (), b') ∧ b'.Sound ∧ b'.map = m

theorem run_put {name : String} {change : ProfileChange} : (put name change).run.run b =
    reindex.run.run ⟨b.stored.put name change, b.index⟩ := rfl

theorem run_setDefault_of_missing {name : String} (h : b.index.lookup name = none) :
    (setDefault (some name)).run.run b = (.error (.notFound name), b) := by
  unfold setDefault
  dsimp only
  rw [run_get_bind, find, h]
  rfl

theorem run_delete_of_missing {name : String} (h : b.stored.settings.lookup name = none) :
    (delete name).run.run b = (.error (.notFound name), b) := by
  unfold delete
  rw [run_get_bind]
  dsimp only
  rw [h]
  rfl

namespace Sound

variable (hb : b.Sound)
include hb

/-- A page limit of zero is refused only when the index is made. By then what is stored has been
changed. -/
theorem run_put_of_zero {name : String} {change : ProfileChange} (hzero : change.pageLimit = some 0) :
    (put name change).run.run b =
      (.error (.zeroPageLimit name), ⟨b.stored.put name change, b.index⟩) :=
  run_put.trans (run_reindex_of_error (hb.spells.indexOf_put_eq_error hzero))

theorem does_put (name : String) {change : ProfileChange}
    (hchange : ∀ n, change.pageLimit = some n → n < ProfileSettings.pageLimitBound) :
    Does (put name change) b (b.map.after (.set name change)) := by
  cases hafter : b.map.after (.set name change) with
  | ok m =>
    obtain ⟨b', hreindex, hb', hmap⟩ := exists_run_reindex (hb.spells.put hchange hafter) b.index
    exact ⟨b', run_put.trans hreindex, hb', hmap⟩
  | error e =>
    rw [ProfileMap.after] at hafter
    split_ifs at hafter with hzero
    obtain rfl := Except.error.inj hafter
    exact congrArg Prod.fst (hb.run_put_of_zero hzero)

theorem does_setDefault_some (name : String) :
    Does (setDefault (some name)) b (b.map.after (.use name)) := by
  cases hlookup : b.index.lookup name with
  | none =>
    have hafter : b.map.after (.use name) = .error (.notFound name) := by
      have hnone : b.map.profile name = none := hlookup
      rw [ProfileMap.after, hnone]
      rfl
    rw [hafter]
    exact congrArg Prod.fst (run_setDefault_of_missing hlookup)
  | some p =>
    have hrun : (setDefault (some name)).run.run b =
        (.ok (), ⟨⟨some name, b.stored.settings⟩, b.index⟩) := by
      unfold setDefault
      dsimp only
      rw [run_get_bind, find, hlookup]
      rfl
    have hafter : b.map.after (.use name) = .ok ⟨b.map.profile, some name⟩ :=
      ProfileMap.after_use_eq_ok_iff.mpr ⟨Option.isSome_of_eq_some hlookup, rfl⟩
    have hvalid := hb.spells.valid.after hafter
    rw [hafter]
    exact ⟨_, hrun, ⟨{ hb.spells with default_eq := rfl, valid := hvalid }, hb.indexed⟩, rfl⟩

theorem does_setDefault_none : Does (setDefault none) b (b.map.after .unset) := by
  have hvalid : (ProfileMap.mk b.map.profile none).Valid :=
    @ProfileMap.Valid.after _ _ hb.spells.valid .unset rfl
  exact ⟨⟨⟨none, b.stored.settings⟩, b.index⟩, rfl,
    ⟨{ hb.spells with default_eq := rfl, valid := hvalid }, hb.indexed⟩, rfl⟩

theorem does_delete (name : String) : Does (delete name) b (b.map.after (.delete name)) := by
  have hsome := hb.spells.isSome_profile name
  cases hlookup : b.stored.settings.lookup name with
  | none =>
    rw [ProfileMap.after, hsome, hlookup]
    exact congrArg Prod.fst (run_delete_of_missing hlookup)
  | some s =>
    have hrun : (delete name).run.run b = reindex.run.run ⟨b.stored.delete name, b.index⟩ := by
      unfold delete
      rw [run_get_bind]
      dsimp only
      rw [hlookup]
      rfl
    have hafter := ProfileMap.after_delete_eq_ok_iff.mpr ⟨by rw [hsome, hlookup]; rfl, rfl⟩
    obtain ⟨b', hreindex, hb', hmap⟩ := exists_run_reindex (hb.spells.delete hafter) b.index
    rw [hafter]
    exact ⟨b', hrun.trans hreindex, hb', hmap⟩

/-- **An edit of a book in order does what is said of the map.** -/
theorem does_edit (path : String) {a : ProfileAction} (ha : a.InRange) :
    Does (a.edit path).1 b (b.map.after a) := by
  cases a with
  | list => exact ⟨b, rfl, hb, rfl⟩
  | set name change => exact hb.does_put name ha
  | use name => exact hb.does_setDefault_some name
  | unset => exact hb.does_setDefault_none
  | delete name => exact hb.does_delete name

end Sound

end ProfileBook

end PatternQuery
