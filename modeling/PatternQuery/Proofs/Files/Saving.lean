import PatternQuery.Command.Session
import PatternQuery.Proofs.Fallible
import PatternQuery.Proofs.Keyed

/-!
# Saving a file again

A file that has been saved once can be saved again (`FileTree.Keeps.save`). The first time makes the
folders on the way, so the second finds them (`FileTree.run_makeFolders_of_isFolder`); and it puts a
file at a place where there was none or another file, which leaves every folder a folder
(`FileTree.Extends`), so the path leads to the same place afterwards.

Saving can succeed and lose what is written, where a sink stands in the place of the file. This is why
reading back is a part of what is meant by keeping a file (`FileTree.Keeps`).
-/

namespace PatternQuery.FileTree

variable {t t' : FileTree} {here place : FilePlace} {part path content : String}
  {parts : List String} {e : FileEntry}

/-! ### More folders -/

/-- Every folder of a tree is one of another, which has the same working folder. -/
structure Extends (t t' : FileTree) : Prop where
  working_eq : t'.working = t.working
  folder : ∀ place, t.entryAt? place = some .folder → t'.entryAt? place = some .folder

/-- The top and the working folder are folders. -/
theorem entryAt?_of_top (h : place = [] ∨ place = [t.working]) :
    t.entryAt? place = some .folder := if_pos h

theorem entryAt?_of_not_top (h : ¬(place = [] ∨ place = [t.working])) :
    t.entryAt? place = t.entries.lookup place := if_neg h

theorem lookup_insert (place' : FilePlace) : (t.insert place e).entries.lookup place' =
    if place' = place then some e else t.entries.lookup place' := by
  rw [insert, List.lookup_cons]
  by_cases heq : place' = place
  · rw [if_pos heq, heq, beq_self_eq_true]
  · rw [if_neg heq, beq_false_of_ne heq]
    dsimp only
    rw [lookup_filter_ne, beq_false_of_ne heq, if_neg Bool.false_ne_true]

theorem entryAt?_insert (h : t.entryAt? place ≠ some .folder) (place' : FilePlace) :
    (t.insert place e).entryAt? place' = if place' = place then some e else t.entryAt? place' := by
  have hplace : ¬(place = [] ∨ place = [t.working]) := fun htop => h (entryAt?_of_top htop)
  by_cases htop : place' = [] ∨ place' = [t.working]
  · have hne : place' ≠ place := fun heq => hplace (heq ▸ htop)
    rw [if_neg hne, entryAt?_of_top htop]
    exact entryAt?_of_top htop
  · have hnew : (t.insert place e).entryAt? place' = (t.insert place e).entries.lookup place' :=
      entryAt?_of_not_top htop
    rw [hnew, lookup_insert, entryAt?_of_not_top htop]

/-- What is put where no folder stands takes no folder away. -/
theorem extends_insert (h : t.entryAt? place ≠ some .folder) : t.Extends (t.insert place e) := by
  refine ⟨rfl, fun place' hplace' => ?_⟩
  rw [entryAt?_insert h]
  split_ifs with heq
  · exact absurd (heq ▸ hplace') h
  · exact hplace'

/-- A step leads on from a folder only. -/
theorem entryAt?_of_step (h : t.step here part = .ok place) : t.entryAt? here = some .folder := by
  unfold step at h
  split at h
  · exact absurd h (by simp)
  · next hhere => exact hhere
  · exact absurd h (by simp)

/-- An empty step can be taken in a folder only, and leads nowhere. -/
theorem step_empty_eq_ok_iff : t.step here "" = .ok place ↔
    t.entryAt? here = some .folder ∧ here = place := by
  constructor
  · intro h
    have hfolder := entryAt?_of_step h
    rw [step, hfolder] at h
    exact ⟨hfolder, Except.ok.inj h⟩
  · rintro ⟨hfolder, rfl⟩
    rw [step, hfolder]
    rfl

theorem locateFolder_eq_ok_iff {last : Option String} : t.locateFolder parts = .ok (here, last) ↔
    ∃ start rest, t.start parts = .ok (start, rest) ∧
      rest.dropLast.foldlM t.step start = .ok here ∧ t.entryAt? here = some .folder ∧
      rest.getLast? = last := by
  constructor
  · intro h
    obtain ⟨⟨start, rest⟩, hstart, h⟩ := bind_eq_ok_iff.mp h
    obtain ⟨folder, hsteps, h⟩ := bind_eq_ok_iff.mp h
    obtain ⟨folder', hempty, hpair⟩ := bind_eq_ok_iff.mp h
    obtain ⟨hfolder, rfl⟩ := step_empty_eq_ok_iff.mp hempty
    obtain ⟨rfl, rfl⟩ := Prod.mk.inj (Except.ok.inj hpair)
    exact ⟨start, rest, hstart, hsteps, hfolder, rfl⟩
  · rintro ⟨start, rest, hstart, hsteps, hfolder, rfl⟩
    rw [locateFolder, bind_of_eq_ok hstart]
    dsimp only
    rw [bind_of_eq_ok hsteps, bind_of_eq_ok (step_empty_eq_ok_iff.mpr ⟨hfolder, rfl⟩)]
    rfl

namespace Extends

variable (ht : t.Extends t')
include ht

theorem step (h : t.step here part = .ok place) : t'.step here part = .ok place := by
  have hhere := entryAt?_of_step h
  rw [FileTree.step, hhere] at h
  rw [FileTree.step, ht.folder here hhere]
  exact h

theorem steps (h : parts.foldlM t.step here = .ok place) : parts.foldlM t'.step here = .ok place := by
  induction parts generalizing here with
  | nil => exact h
  | cons part parts ih =>
    obtain ⟨next, hnext, h⟩ := bind_eq_ok_iff.mp h
    exact (bind_of_eq_ok (ht.step hnext)).trans (ih h)

theorem start_eq : t'.start parts = t.start parts := by
  unfold start
  rw [ht.working_eq]

theorem locate (h : t.locate parts = .ok place) : t'.locate parts = .ok place := by
  obtain ⟨⟨here, rest⟩, hstart, h⟩ := bind_eq_ok_iff.mp h
  exact (bind_of_eq_ok (ht.start_eq.trans hstart)).trans (ht.steps h)

theorem locateFolder {last : Option String} (h : t.locateFolder parts = .ok (here, last)) :
    t'.locateFolder parts = .ok (here, last) := by
  obtain ⟨start, rest, hstart, hsteps, hfolder, hlast⟩ := locateFolder_eq_ok_iff.mp h
  exact locateFolder_eq_ok_iff.mpr
    ⟨start, rest, ht.start_eq.trans hstart, ht.steps hsteps, ht.folder here hfolder, hlast⟩

theorem isFolder (h : t.isFolder parts) : t'.isFolder parts := by
  unfold FileTree.isFolder at h ⊢
  split at h
  · next place hplace =>
    rw [ht.locate hplace]
    exact beq_iff_eq.mpr (ht.folder place (beq_iff_eq.mp h))
  · exact absurd h (by simp)

end Extends

/-! ### The last part of a path -/

/-- Takes the last step, if there is one. -/
def lastStep (t : FileTree) (here : FilePlace) (last : Option String) : Except FileError FilePlace :=
  last.elim (.ok here) (t.step here)

theorem steps_eq_bind (here : FilePlace) (parts : List String) : parts.foldlM t.step here =
    parts.dropLast.foldlM t.step here >>= fun folder => t.lastStep folder parts.getLast? := by
  rcases List.eq_nil_or_concat parts with rfl | ⟨init, last, rfl⟩
  · rfl
  · rw [List.concat_eq_append, List.foldlM_append, List.dropLast_concat, List.getLast?_concat]
    refine bind_congr fun folder => ?_
    show (t.step folder last >>= fun place => pure place) = _
    rw [bind_pure]
    rfl

/-- Where a path starts there is a folder. -/
theorem entryAt?_of_start {rest : List String} (h : t.start parts = .ok (here, rest)) :
    t.entryAt? here = some .folder := by
  unfold start at h
  split at h
  · exact absurd h (by simp)
  · split at h
    · obtain ⟨rfl, -⟩ := Prod.mk.inj (Except.ok.inj h)
      exact entryAt?_of_top (.inl rfl)
    · obtain ⟨rfl, -⟩ := Prod.mk.inj (Except.ok.inj h)
      split_ifs
      · exact entryAt?_of_top (.inl rfl)
      · exact entryAt?_of_top (.inr rfl)
    · obtain ⟨rfl, -⟩ := Prod.mk.inj (Except.ok.inj h)
      exact entryAt?_of_top (.inr rfl)

/-- A path leads to a place by its last step from a folder. -/
theorem locate_eq_ok_iff : t.locate parts = .ok place ↔
    ∃ here last, t.locateFolder parts = .ok (here, last) ∧ t.lastStep here last = .ok place := by
  constructor
  · intro h
    obtain ⟨⟨start, rest⟩, hstart, h⟩ := bind_eq_ok_iff.mp h
    dsimp only at h
    rw [steps_eq_bind] at h
    obtain ⟨here, hsteps, hlast⟩ := bind_eq_ok_iff.mp h
    refine ⟨here, rest.getLast?, locateFolder_eq_ok_iff.mpr ?_, hlast⟩
    refine ⟨start, rest, hstart, hsteps, ?_, rfl⟩
    cases hrest : rest.getLast? with
    | none =>
      obtain rfl := List.getLast?_eq_none_iff.mp hrest
      obtain rfl : start = here := Except.ok.inj hsteps
      exact entryAt?_of_start hstart
    | some last =>
      rw [hrest] at hlast
      exact entryAt?_of_step hlast
  · rintro ⟨here, last, h, hlast⟩
    obtain ⟨start, rest, hstart, hsteps, -, rfl⟩ := locateFolder_eq_ok_iff.mp h
    rw [locate, bind_of_eq_ok hstart]
    dsimp only
    rw [steps_eq_bind, bind_of_eq_ok hsteps]
    exact hlast

/-! ### Folders that are there -/

theorem isFolder_iff : t.isFolder parts ↔
    ∃ place, t.locate parts = .ok place ∧ t.entryAt? place = some .folder := by
  unfold isFolder
  cases t.locate parts with
  | error e => simp
  | ok place => simp

/-- **A folder that is there is not made again.** -/
theorem makeFolder_of_isFolder (h : t.isFolder parts) : t.makeFolder parts = .error .occupied := by
  obtain ⟨place, hplace, hfolder⟩ := isFolder_iff.mp h
  obtain ⟨here, last, hlocate, hlast⟩ := locate_eq_ok_iff.mp hplace
  rw [makeFolder, bind_of_eq_ok hlocate]
  dsimp only
  cases last with
  | none => rfl
  | some name =>
    split
    · have hstep : t.step here name = .ok place := hlast
      rw [Option.getD_some, bind_of_eq_ok hstep, hfolder]
      rfl
    · rfl

theorem run_get_bind {β : Type} (f : FileTree → FileEdit β) :
    (get >>= f : FileEdit β).run.run t = (f t).run.run t := rfl

theorem exists_run_of_bind {α β : Type} {x : FileEdit α} {f : α → FileEdit β} {b : β}
    (h : (x >>= f).run.run t = (.ok b, t')) :
    ∃ a t'', x.run.run t = (.ok a, t'') ∧ (f a).run.run t'' = (.ok b, t') := by
  rw [ExceptT.run_bind, StateT.run_bind] at h
  rcases hx : x.run.run t with ⟨e | a, t''⟩
  · rw [hx] at h
    have herror : (.error e, t'') = (Except.ok b, t') := h
    exact absurd (Prod.mk.inj herror).1 (by simp)
  · rw [hx] at h
    exact ⟨a, t'', rfl, h⟩

/-- A folder that was made is there. -/
theorem isFolder_of_makeFolder (h : t.makeFolder parts = .ok t') : t'.isFolder parts := by
  obtain ⟨⟨here, last⟩, hlocate, h⟩ := bind_eq_ok_iff.mp h
  cases last with
  | none => exact absurd h (by simp [isName, throw, throwThe, MonadExceptOf.throw])
  | some name =>
    dsimp only at h
    split at h
    · obtain ⟨place, hplace, h⟩ := bind_eq_ok_iff.mp h
      cases hentry : t.entryAt? place with
      | some e =>
        rw [hentry] at h
        exact absurd h throw_ne_ok
      | none =>
        rw [hentry] at h
        obtain rfl : t.insert place .folder = t' := Except.ok.inj h
        have hnew : t.entryAt? place ≠ some .folder := by rw [hentry]; simp
        have hlocate := locate_eq_ok_iff.mpr ⟨here, some name, hlocate, hplace⟩
        refine isFolder_iff.mpr ⟨place, (extends_insert hnew).locate hlocate, ?_⟩
        rw [entryAt?_insert hnew, if_pos rfl]
    · exact absurd h throw_ne_ok

theorem run_secureFolder : (secureFolder parts).run.run t =
    match t.makeFolder parts with
    | .ok t' => (.ok (), t')
    | .error e => if e = .occupied ∧ t.isFolder parts then (.ok (), t) else (.error e, t) := by
  rw [secureFolder, run_get_bind]
  cases t.makeFolder parts with
  | ok t' => rfl
  | error e =>
    dsimp only
    split_ifs <;> rfl

/-- A folder is made, or it is there. -/
theorem isFolder_of_run_secureFolder (h : (secureFolder parts).run.run t = (.ok (), t')) :
    t'.isFolder parts := by
  rw [run_secureFolder] at h
  split at h
  · next t₁ hmake =>
    obtain rfl := (Prod.mk.inj h).2
    exact isFolder_of_makeFolder hmake
  · next e _ =>
    split_ifs at h with hfolder
    · obtain rfl := (Prod.mk.inj h).2
      exact hfolder.2
    · exact absurd (Prod.mk.inj h).1 (by simp)

/-- The outer folders are made only where a folder turns out to be missing. -/
theorem run_makeFolders_cons (outer : List (List String)) :
    (makeFolders (parts :: outer)).run.run t =
      if t.makeFolder parts = .error .missing then
        (makeFolders outer >>= fun _ => secureFolder parts).run.run t
      else (secureFolder parts).run.run t := by
  rw [makeFolders, run_get_bind]
  split
  · next hmake => rw [if_pos hmake]
  · next hmake => rw [if_neg fun h => hmake h]

theorem isFolder_of_run_makeFolders {outer : List (List String)}
    (h : (makeFolders (parts :: outer)).run.run t = (.ok (), t')) : t'.isFolder parts := by
  rw [run_makeFolders_cons] at h
  split_ifs at h
  · obtain ⟨-, t'', -, h⟩ := exists_run_of_bind h
    exact isFolder_of_run_secureFolder h
  · exact isFolder_of_run_secureFolder h

/-- **Where the folder is there, no folders are made.** -/
theorem run_makeFolders_of_isFolder {outer : List (List String)} (h : t.isFolder parts) :
    (makeFolders (parts :: outer)).run.run t = (.ok (), t) := by
  have hmake := makeFolder_of_isFolder h
  rw [run_makeFolders_cons, hmake, if_neg (by simp), run_secureFolder, hmake]
  exact if_pos ⟨rfl, h⟩

/-! ### Writing -/

/-- A step that reads the tree, and can fail. -/
theorem run_liftM_bind_eq_ok_iff {α β : Type} {x : Except FileError α} {f : α → FileEdit β} {b : β} :
    ((liftM x : FileEdit α) >>= f).run.run t = (.ok b, t') ↔
      ∃ a, x = .ok a ∧ (f a).run.run t = (.ok b, t') := by
  cases x with
  | error e =>
    constructor
    · intro h
      have herror : (.error e, t) = (Except.ok b, t') := h
      exact absurd (Prod.mk.inj herror).1 (by simp)
    · rintro ⟨a, ha, -⟩
      exact absurd ha (by simp)
  | ok a =>
    constructor
    · intro h
      exact ⟨a, rfl, h⟩
    · rintro ⟨a', ha', h⟩
      obtain rfl := Except.ok.inj ha'
      exact h

/-- Whether the last part of a path is not empty. -/
def IsBare (path : String) : Prop :=
  ((FilePath.parts path).reverse.dropWhile String.isEmpty).reverse = FilePath.parts path

/-- **A path leads to a place for a file:** to a name in a folder, which no folder has. -/
structure LeadsTo (t : FileTree) (path : String) (place : FilePlace) : Prop where
  bare : IsBare path
  located : ∃ here last, t.locateFolder (FilePath.parts path) = .ok (here, last) ∧ isName last ∧
    t.step here (last.getD "") = .ok place
  free : t.entryAt? place ≠ some .folder

/-- What a file that was written leaves behind: a sink takes nothing. -/
def written (t : FileTree) (place : FilePlace) (content : String) : FileTree :=
  if t.entryAt? place = some .sink then t else t.insert place (.file content)

theorem isBare_of_length (h : ((FilePath.parts path).reverse.dropWhile String.isEmpty).reverse.length =
    (FilePath.parts path).length) : IsBare path := by
  have hlength : ((FilePath.parts path).reverse.dropWhile String.isEmpty).length =
      (FilePath.parts path).reverse.length := by simpa using h
  rw [IsBare, (List.dropWhile_suffix _).eq_of_length hlength, List.reverse_reverse]

/-- What is done at the place to which the path leads. -/
theorem run_put_eq_ok_iff : (match t.entryAt? place with
      | some .folder => throw .isFolder
      | some .sink => return ()
      | some (.file _) | none => set (t.insert place (.file content)) : FileEdit Unit).run.run t =
        (.ok (), t') ↔ t.entryAt? place ≠ some .folder ∧ t' = t.written place content := by
  unfold written
  cases t.entryAt? place with
  | none =>
    show ((Except.ok (), t.insert place (.file content)) : Except FileError Unit × FileTree) = _ ↔ _
    simp [eq_comm]
  | some e =>
    cases e with
    | folder =>
      show ((Except.error .isFolder, t) : Except FileError Unit × FileTree) = _ ↔ _
      simp
    | file old =>
      show ((Except.ok (), t.insert place (.file content)) : Except FileError Unit × FileTree) = _ ↔ _
      simp [eq_comm]
    | sink =>
      show ((Except.ok (), t) : Except FileError Unit × FileTree) = _ ↔ _
      simp [eq_comm]

/-- **Writing succeeds where the path leads to a place for a file,** whatever is written. -/
theorem run_write_eq_ok_iff : (write path content).run.run t = (.ok (), t') ↔
    ∃ place, t.LeadsTo path place ∧ t' = t.written place content := by
  unfold write
  rw [run_get_bind]
  dsimp only
  simp only [run_liftM_bind_eq_ok_iff]
  constructor
  · rintro ⟨-, -, ⟨here, last⟩, hlocate, h⟩
    dsimp only at h
    split at h
    · next hcond =>
      obtain ⟨hname, hlength⟩ := (Bool.and_eq_true _ _).mp hcond
      have hbare : IsBare path := isBare_of_length (beq_iff_eq.mp hlength)
      obtain ⟨place, hplace, h⟩ := run_liftM_bind_eq_ok_iff.mp h
      rw [hbare, ite_self] at hlocate
      obtain ⟨hfree, hwritten⟩ := run_put_eq_ok_iff.mp h
      exact ⟨place, ⟨hbare, ⟨here, last, hlocate, hname, hplace⟩, hfree⟩, hwritten⟩
    · exact absurd (Prod.mk.inj h).1 (by simp)
  · rintro ⟨place, ⟨hbare, ⟨here, last, hlocate, hname, hplace⟩, hfree⟩, hwritten⟩
    obtain ⟨⟨start, rest⟩, hstart, -⟩ := bind_eq_ok_iff.mp hlocate
    refine ⟨(start, rest), hstart, (here, last), ?_, ?_⟩
    · rw [hbare, ite_self]
      exact hlocate
    · dsimp only
      rw [hbare, hname, beq_self_eq_true, Bool.and_self, if_pos rfl]
      exact run_liftM_bind_eq_ok_iff.mpr ⟨place, hplace, run_put_eq_ok_iff.mpr ⟨hfree, hwritten⟩⟩

/-! ### Saving -/

/-- **A file is kept:** whatever is saved under the path is there. -/
def Keeps (t : FileTree) (path : String) : Prop :=
  ∀ content, ∃ t', t.save path content = (.ok (), t') ∧ t'.read path = .ok content

/-- The folders that a save makes. -/
def foldersFor (path : String) : List (List String) :=
  FilePath.foldersOnWay (FilePath.folderParts path)

/-- A save makes the folders and then writes. -/
theorem save_eq_ok_iff : t.save path content = (.ok (), t') ↔
    ∃ t₁, (makeFolders (foldersFor path)).run.run t = (.ok (), t₁) ∧
      (write path content).run.run t₁ = (.ok (), t') := by
  unfold save
  constructor
  · intro h
    dsimp only at h
    split at h
    · exact absurd (Prod.mk.inj h).1 (by simp)
    · next t₁ hfolders =>
      split at h
      · exact absurd (Prod.mk.inj h).1 (by simp)
      · next t₂ hwrite =>
        obtain rfl := (Prod.mk.inj h).2
        exact ⟨t₁, hfolders, hwrite⟩
  · rintro ⟨t₁, hfolders, hwrite⟩
    rw [foldersFor] at hfolders
    dsimp only
    rw [hfolders]
    dsimp only
    rw [hwrite]

/-- A path leads to the same place once something has been written there. -/
theorem LeadsTo.written (h : t.LeadsTo path place) : (t.written place content).LeadsTo path place := by
  unfold FileTree.written
  split
  · exact h
  · have ht : t.Extends (t.insert place (.file content)) := extends_insert h.free
    obtain ⟨here, last, hlocate, hname, hplace⟩ := h.located
    refine ⟨h.bare, ⟨here, last, ht.locateFolder hlocate, hname, ht.step hplace⟩, ?_⟩
    rw [entryAt?_insert h.free, if_pos rfl]
    simp

/-- What was written is read, unless it has gone into a sink. -/
theorem LeadsTo.read_written (h : t.LeadsTo path place) : (t.written place content).read path =
    if t.entryAt? place = some .sink then .ok "" else .ok content := by
  obtain ⟨here, last, hlocate, hname, hplace⟩ := h.located
  have hlast : t.lastStep here last = .ok place := by
    cases last with
    | none => exact absurd hname (by simp [isName])
    | some name => exact hplace
  have hlocated := locate_eq_ok_iff.mpr ⟨here, last, hlocate, hlast⟩
  unfold FileTree.written
  split
  · next hsink =>
    rw [read, bind_of_eq_ok hlocated, hsink]
    rfl
  · have hnew := (extends_insert (e := .file content) h.free).locate hlocated
    rw [read, bind_of_eq_ok hnew, entryAt?_insert h.free, if_pos rfl]
    rfl

/-- **A file is kept where its folders can be made** and the path then leads to a place for a file, which
is no sink. -/
theorem keeps_iff : t.Keeps path ↔ ∃ t₁ place, (makeFolders (foldersFor path)).run.run t = (.ok (), t₁) ∧
    t₁.LeadsTo path place ∧ t₁.entryAt? place ≠ some .sink := by
  constructor
  · intro h
    -- A text that is not empty tells a file from a sink.
    obtain ⟨t', hsave, hread⟩ := h "x"
    obtain ⟨t₁, hfolders, hwrite⟩ := save_eq_ok_iff.mp hsave
    obtain ⟨place, hleads, rfl⟩ := run_write_eq_ok_iff.mp hwrite
    refine ⟨t₁, place, hfolders, hleads, fun hsink => ?_⟩
    rw [hleads.read_written, if_pos hsink] at hread
    exact absurd (Except.ok.inj hread) (by decide)
  · rintro ⟨t₁, place, hfolders, hleads, hsink⟩ content
    refine ⟨t₁.written place content, save_eq_ok_iff.mpr ⟨t₁, hfolders, ?_⟩, ?_⟩
    · exact run_write_eq_ok_iff.mpr ⟨place, hleads, rfl⟩
    · rw [hleads.read_written, if_neg hsink]

/-- **A file that was saved is kept.** -/
theorem Keeps.save (h : t.Keeps path) (hsave : t.save path content = (.ok (), t')) :
    t'.Keeps path := by
  obtain ⟨t₁, place, hfolders, hleads, hsink⟩ := keeps_iff.mp h
  have hsaved : t.save path content = (.ok (), t₁.written place content) :=
    save_eq_ok_iff.mpr ⟨t₁, hfolders, run_write_eq_ok_iff.mpr ⟨place, hleads, rfl⟩⟩
  obtain rfl : t₁.written place content = t' := (Prod.mk.inj (hsaved.symm.trans hsave)).2
  have hnew : t₁.written place content = t₁.insert place (.file content) := if_neg hsink
  have ht : t₁.Extends (t₁.written place content) := hnew ▸ extends_insert hleads.free
  refine keeps_iff.mpr ⟨t₁.written place content, place, ?_, hleads.written, ?_⟩
  · -- The folders that were made the first time are there the second time.
    cases hway : foldersFor path with
    | nil => rfl
    | cons parts outer =>
      rw [hway] at hfolders
      exact run_makeFolders_of_isFolder (ht.isFolder (isFolder_of_run_makeFolders hfolders))
  · rw [hnew, entryAt?_insert hleads.free, if_pos rfl]
    simp

end PatternQuery.FileTree
