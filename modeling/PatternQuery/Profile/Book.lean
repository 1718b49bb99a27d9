import PatternQuery.Ordered
import PatternQuery.Profile.Basic

/-!
# The book of profiles

The profiles of one user, of which one may be the default. The book holds the settings as they are
stored, and an index of the profiles that have been checked, from which profiles are looked up. The
index is made anew after an edit, and an edit can fail there: then the stored settings have been
edited already, while the index is still the one from before.

Edits are computations that pass the book on even when they fail, so what a failed edit leaves behind
can be seen.
-/

namespace PatternQuery

/-- Profiles as they are stored. -/
structure StoredProfiles where
  /-- The name of the default profile. -/
  defaultName : Option String
  /-- The settings by name, in ascending order of the names. -/
  settings : List (String × ProfileSettings)
  deriving Repr, DecidableEq

/-- Stored profiles with an index. -/
structure ProfileBook where
  stored : StoredProfiles
  /-- The checked profiles by name. -/
  index : List (String × Profile)
  deriving Repr, DecidableEq

/-- No profiles. -/
def StoredProfiles.empty : StoredProfiles := ⟨none, []⟩

/-- A computation that edits a book and can fail. -/
abbrev ProfileEdit := ExceptT ProfileError (StateM ProfileBook)

namespace ProfileBook

/-- Checks all settings, in the order of the names. -/
def indexOf (settings : List (String × ProfileSettings)) :
    Except ProfileError (List (String × Profile)) :=
  settings.mapM fun (name, s) => (s.check name).map fun p => (name, p)

/-- The checked profile with a name. -/
def find (b : ProfileBook) (name : String) : Except ProfileError Profile :=
  match b.index.lookup name with
  | some p => .ok p
  | none => .error (.notFound name)

/-- The name of the default profile, if it is in the index. -/
def defaultName (b : ProfileBook) : Option String :=
  b.stored.defaultName.filter fun name => (b.index.lookup name).isSome

/-- The profile that is in force: the one asked for, or else the default. -/
def active (b : ProfileBook) (requested : Option String) : Except ProfileError (Option Profile) :=
  match requested with
  | some name => (b.find name).map some
  | none => .ok (b.defaultName.bind fun name => b.index.lookup name)

/-- Makes the index anew from the stored settings, and insists that the default profile is in it. -/
def reindex : ProfileEdit Unit := do
  let b ← get
  match indexOf b.stored.settings with
  | .error e => throw e
  | .ok index =>
    set { b with index }
    match b.stored.defaultName with
    | none => return ()
    | some name => if (index.lookup name).isSome then return () else throw (.notFound name)

/-- Changes the stored profiles. -/
def modifyStored (f : StoredProfiles → StoredProfiles) : ProfileEdit Unit :=
  modify fun b => { b with stored := f b.stored }

/-- Makes a profile the default, or none. -/
def setDefault (name : Option String) : ProfileEdit Unit := do
  match name with
  | none => modifyStored fun s => { s with defaultName := none }
  | some n =>
    match (← get).find n with
    | .error e => throw e
    | .ok _ => modifyStored fun s => { s with defaultName := some n }

/-- Changes the settings of a profile, which is made if there is none with the name. -/
def put (name : String) (change : ProfileChange) : ProfileEdit Unit := do
  modifyStored fun s =>
    { s with settings :=
        Ordered.alter compare name (fun old => (old.getD .blank).change change) s.settings }
  reindex

/-- Deletes a profile, which then is no longer the default. -/
def delete (name : String) : ProfileEdit Unit := do
  let s := (← get).stored
  match s.settings.lookup name with
  | none => throw (.notFound name)
  | some _ =>
    modifyStored fun s =>
      { defaultName := s.defaultName.filter (· != name)
        settings := s.settings.filter (·.1 != name) }
    reindex

/-- **Opens stored profiles.** Every profile has to pass its checks, and the default has to be one of
them. -/
def ofStored (s : StoredProfiles) : Except ProfileError ProfileBook :=
  match reindex.run.run ⟨s, []⟩ with
  | (.ok (), b) => .ok b
  | (.error e, _) => .error e

end ProfileBook

end PatternQuery
