import PatternQuery.Proofs.Profile.Book

/-!
# Edits that are rejected

An edit of the book is not a transaction. One that names a profile that is not there changes nothing,
but a page limit of zero is noticed only when the index is made, after the settings have been changed
(`ProfileBook.Sound.cases_of_run_eq_error`). The index is then still the one from before, so nothing that
is looked up tells the difference. What is stored does: the text that would be saved is another one, the
settings that were refused come through with the next change of the profile, and no other profile can be
changed before that (`ProfileBook.Leftover`).

A command line makes one edit and saves only what succeeded (`CommandLine.Asks.run_of_error`), so what a
rejected edit leaves behind does not get into a file.

All of this holds in any lawful format of the profile file (`ProfileFormat.Lawful`).
-/

namespace PatternQuery

/-! ### Two changes -/

/-- Two changes are one, in which the second has the last word. -/
theorem ProfileSettings.change_change (s : ProfileSettings) (change change' : ProfileChange) :
    (s.change change).change change' = s.change (change.overwrite change') := by
  have horElse {α : Type} (a b c : Option α) : (a <|> (b <|> c)) = ((a <|> b) <|> c) := by
    cases a <;> rfl
  simp only [ProfileSettings.change, Profile.overwrite, horElse, mk.injEq, true_and, and_true]
  cases change'.strategy <;> rfl

namespace StoredProfiles

variable {s : StoredProfiles} {m : ProfileMap} {name other : String} {change change' : ProfileChange}

theorem put_put_self : (s.put name change).put name change' =
    s.put name (change.overwrite change') := by
  simp only [put, Ordered.alter_alter, Option.getD_some, ProfileSettings.change_change]

namespace Spells

variable (h : s.Spells m)
include h

/-- Settings whose page limit is zero are none that a map could hold. -/
theorem put_ne_self (hzero : change.pageLimit = some 0) : s.put name change ≠ s := by
  intro hput
  obtain ⟨t, ht, hcheck⟩ := h.exists_lookup_put_of_zero name hzero
  rw [hput] at ht
  obtain ⟨p, hp, -⟩ := h.exists_check ht
  exact absurd (hcheck.symm.trans hp) (by simp)

/-- While the page limit of one profile is zero, the index cannot be made for a change of another. -/
theorem indexOf_put_put_eq_error (hzero : change.pageLimit = some 0)
    (hchange' : change'.pageLimit ≠ some 0) (hne : other ≠ name) :
    ProfileBook.indexOf ((s.put name change).put other change').settings =
      .error (.zeroPageLimit name) := by
  have hlookup (k : String) : ((s.put name change).put other change').settings.lookup k =
      if k = other then some (((s.settings.lookup other).getD .blank).change change')
      else (s.put name change).settings.lookup k := by
    rw [StoredProfiles.put, h.sorted_put.lookup_alter, h.lookup_put other, if_neg hne]
    simp only [beq_iff_eq]
  obtain ⟨t, ht, hcheck⟩ := h.exists_lookup_put_of_zero name hzero
  have ht' : ((s.put name change).put other change').settings.lookup name = some t := by
    rw [hlookup, if_neg hne.symm, ht]
  refine ProfileBook.indexOf_eq_error h.sorted_put.alter ht' hcheck fun k u hk hu => ?_
  rw [hlookup, h.lookup_put, if_neg hk] at hu
  split_ifs at hu with hother
  · have hpass := ProfileSettings.check_change (h.check_getD other) change'
    rw [if_neg hchange', Option.some.inj hu, ← hother] at hpass
    exact ⟨_, hpass⟩
  · obtain ⟨p, hp, -⟩ := h.exists_check hu
    exact ⟨p, hp⟩

end Spells

end StoredProfiles

/-! ### Books in use -/

namespace ProfileBook

variable {format : ProfileFormat} {b b' : ProfileBook} {path : String} {a : ProfileAction}
  {e : ProfileError}

/-- **A book in use** was opened, and every edit of it has succeeded. -/
inductive InUse (format : ProfileFormat) : ProfileBook → Prop
  | opened {s : Sources} {path : Option String} {b : ProfileBook}
    (h : s.profiles format path = .ok b) : InUse format b
  | edited {b b' : ProfileBook} {path : String} {a : ProfileAction} (hb : InUse format b)
    (ha : a.InRange) (h : (a.edit path).1.run.run b = (.ok (), b')) : InUse format b'

/-- Where the map says that an edit succeeds, it does. -/
theorem Does.not_error {edit : ProfileEdit Unit} {m : ProfileMap} (h : Does edit b (.ok m)) :
    edit.run.run b ≠ (.error e, b') := by
  obtain ⟨b'', hrun, -⟩ := h
  rw [hrun]
  exact fun heq => absurd (Prod.mk.inj heq).1 (by simp)

theorem Sound.of_run_eq_ok (hb : b.Sound) (ha : a.InRange)
    (h : (a.edit path).1.run.run b = (.ok (), b')) : b'.Sound := by
  have hdoes := hb.does_edit path ha
  cases hafter : b.map.after a with
  | error e =>
    rw [hafter] at hdoes
    have herror : ((a.edit path).1.run.run b).1 = .error e := hdoes
    rw [h] at herror
    exact absurd herror (by simp)
  | ok m =>
    rw [hafter] at hdoes
    obtain ⟨b'', hrun, hsound, -⟩ := hdoes
    exact (Prod.mk.inj (h.symm.trans hrun)).2 ▸ hsound

theorem InUse.sound (h : InUse format b) (hformat : format.Lawful) : b.Sound := by
  induction h with
  | opened h => exact Sources.sound_of_profiles hformat h
  | edited _ ha h ih => exact ih.of_run_eq_ok ha h

/-- **How an edit is rejected:** it names a profile that is not there, and nothing is changed, or it
gives a page limit of zero, and what is stored has been changed. -/
theorem Sound.cases_of_run_eq_error (hb : b.Sound) (ha : a.InRange)
    (h : (a.edit path).1.run.run b = (.error e, b')) :
    (∃ name, (a = .use name ∨ a = .delete name) ∧ e = .notFound name ∧ b' = b) ∨
    ∃ name change, a = .set name change ∧ change.pageLimit = some 0 ∧ e = .zeroPageLimit name ∧
      b' = ⟨b.stored.put name change, b.index⟩ := by
  have hdoes := hb.does_edit path ha
  cases a with
  | list => exact absurd h (Does.not_error hdoes)
  | unset => exact absurd h (Does.not_error hdoes)
  | set name change =>
    by_cases hzero : change.pageLimit = some 0
    · obtain ⟨he, hb'⟩ := Prod.mk.inj (h.symm.trans (hb.run_put_of_zero hzero))
      exact .inr ⟨name, change, rfl, hzero, Except.error.inj he, hb'⟩
    · rw [ProfileMap.after, if_neg hzero] at hdoes
      exact absurd h (Does.not_error hdoes)
  | use name =>
    cases hlookup : b.index.lookup name with
    | none =>
      obtain ⟨he, hb'⟩ := Prod.mk.inj (h.symm.trans (run_setDefault_of_missing hlookup))
      exact .inl ⟨name, .inl rfl, Except.error.inj he, hb'⟩
    | some p =>
      rw [ProfileMap.after_use_eq_ok_iff.mpr ⟨Option.isSome_of_eq_some hlookup, rfl⟩] at hdoes
      exact absurd h (Does.not_error hdoes)
  | delete name =>
    cases hlookup : b.stored.settings.lookup name with
    | none =>
      obtain ⟨he, hb'⟩ := Prod.mk.inj (h.symm.trans (run_delete_of_missing hlookup))
      exact .inl ⟨name, .inr rfl, Except.error.inj he, hb'⟩
    | some t =>
      have hsome : (b.map.profile name).isSome := by
        rw [hb.spells.isSome_profile, hlookup]
        rfl
      rw [ProfileMap.after_delete_eq_ok_iff.mpr ⟨hsome, rfl⟩] at hdoes
      exact absurd h (Does.not_error hdoes)

/-! ### What is left behind -/

/-- **What is left behind** when settings of a profile are rejected: -/
structure Leftover (format : ProfileFormat) (b : ProfileBook) (name : String) (change : ProfileChange)
    (b' : ProfileBook) : Prop where
  /-- other settings would be saved than before, -/
  write_ne : format.write b'.stored ≠ format.write b.stored
  /-- the next change of the profile makes the rejected one too, -/
  put_self : ∀ change', (put name change').run.run b' =
    (put name (change.overwrite change')).run.run b
  /-- and until then no other profile can be changed. -/
  put_other : ∀ other change', other ≠ name → change'.pageLimit ≠ some 0 →
    ((put other change').run.run b').1 = .error (.zeroPageLimit name)

theorem Sound.leftover (hb : b.Sound) (hformat : format.Lawful) (name : String)
    {change : ProfileChange} (hzero : change.pageLimit = some 0) :
    Leftover format b name change ⟨b.stored.put name change, b.index⟩ where
  write_ne := by
    intro hwrite
    have hrange : (b.stored.put name change).InRange := hb.spells.inRange_put fun n hn => by
      obtain rfl := Option.some.inj (hzero.symm.trans hn)
      decide
    have hread := hformat.read_write _ hrange hb.spells.sorted_put
    rw [hwrite, hb.read_write hformat] at hread
    exact hb.spells.put_ne_self hzero (Option.some.inj hread).symm
  put_self change' := by rw [run_put, run_put, StoredProfiles.put_put_self]
  put_other other change' hne hchange' := by
    have hindex := hb.spells.indexOf_put_put_eq_error hzero hchange' hne
    exact congrArg Prod.fst (run_put.trans (run_reindex_of_error hindex))

example : (put "p" ⟨none, some true, some 0, none, none⟩).run.run ⟨.empty, []⟩ =
    (.error (.zeroPageLimit "p"), ⟨⟨none, [("p", ⟨none, some true, some 0, none, none⟩)]⟩, []⟩) := rfl

/-- **A rejected edit** changes nothing that is looked up. It leaves the book as it was, unless it would
have made a page limit zero. -/
theorem InUse.of_run_eq_error (hb : InUse format b) (hformat : format.Lawful) (ha : a.InRange)
    (h : (a.edit path).1.run.run b = (.error e, b')) :
    b'.index = b.index ∧ b'.defaultName = b.defaultName ∧
    (∀ requested, b'.active requested = b.active requested) ∧
    (b' = b ∨ ∃ name change, a = .set name change ∧ e = .zeroPageLimit name ∧
      Leftover format b name change b') := by
  have hsound := hb.sound hformat
  rcases hsound.cases_of_run_eq_error ha h with
    ⟨name, -, -, rfl⟩ | ⟨name, change, rfl, hzero, rfl, rfl⟩
  · exact ⟨rfl, rfl, fun _ => rfl, .inl rfl⟩
  · exact ⟨rfl, rfl, fun _ => rfl, .inr ⟨name, change, rfl, rfl, hsound.leftover hformat name hzero⟩⟩

end ProfileBook

end PatternQuery
