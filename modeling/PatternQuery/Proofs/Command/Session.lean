import PatternQuery.Proofs.Command.Arguments
import PatternQuery.Proofs.Files.Saving

/-!
# Sessions of profile commands

Commands that are run one after another on a profile file do to it what is said of the map of profiles
(`FileTree.actsAsMap_of_holds`). Every command opens the file anew, so the state of a session is nothing
but the file. One command takes it from a map to the next, and fails without touching it where the map
says so (`CommandLine.Asks.does`); what was saved is opened by the next command as it was
(`ProfileBook.Sound.profiles_eq`), because the text is read back and the book in it is in order.

Two things are asked: of the files, that what is saved under the path is there afterwards
(`FileTree.Keeps`), and of the format of the profile file, that it is lawful (`ProfileFormat.Lawful`).
-/

namespace PatternQuery

variable {format : ProfileFormat} {t t' : FileTree} {path : String} {m : ProfileMap} {b : ProfileBook}
  {a : ProfileAction}

/-! ### What a file holds -/

namespace FileTree

/-- Opens the profiles of a file. -/
def profiles (t : FileTree) (format : ProfileFormat) (path : String) :
    Except CommandError ProfileBook :=
  (⟨"", t.read, none⟩ : Sources).profiles format (some path)

/-- **A file holds a map of profiles:** it is opened, and stands for the map. -/
def Holds (t : FileTree) (format : ProfileFormat) (path : String) (m : ProfileMap) : Prop :=
  ∃ b, t.profiles format path = .ok b ∧ b.map = m

/-- A file that is not there holds no profiles. -/
theorem holds_of_isAbsence {e : FileError} (h : t.read path = .error e) (he : e.isAbsence) :
    t.Holds format path .empty := by
  refine ⟨⟨.empty, []⟩, ?_, rfl⟩
  unfold profiles Sources.profiles
  dsimp only
  rw [h]
  dsimp only
  rw [if_pos he]
  rfl

theorem Holds.valid (h : t.Holds format path m) (hformat : format.Lawful) : m.Valid := by
  obtain ⟨b, hb, rfl⟩ := h
  exact (Sources.sound_of_profiles hformat hb).spells.valid

end FileTree

/-- **What was saved is opened as it was.** -/
theorem ProfileBook.Sound.profiles_eq (hb : b.Sound) (hformat : format.Lawful)
    (h : t.read path = .ok (format.write b.stored)) : t.profiles format path = .ok b := by
  unfold FileTree.profiles Sources.profiles
  dsimp only
  rw [h]
  dsimp only
  rw [hb.read_write hformat]
  dsimp only
  show (ofStored b.stored).mapError CommandError.profile = .ok b
  rw [hb.ofStored_eq]
  rfl

/-! ### One command -/

/-- What an edit gives is saved. -/
theorem ProfileAction.outcome_of_ne_list (ha : a ≠ .list) (options : CommonOptions) :
    a.outcome options format (some path) b = match (a.edit path).1.run.run b with
      | (.error e, _) => .error (.profile e)
      | (.ok (), b') => .ok ⟨0, Page.text options.quiet [.notice (a.edit path).2], "",
          some (path, format.write b'.stored)⟩ := by
  cases a with
  | list => exact absurd rfl ha
  | _ => rfl

/-- The list of the profiles is shown, and nothing is saved. -/
theorem Outcome.of_list (options : CommonOptions) (r : Report) (h : r.warning = none) :
    (Outcome.ofReport options 0 r).exit = 0 ∧ (Outcome.ofReport options 0 r).stderr = "" ∧
    (Outcome.ofReport options 0 r).saved = none := by
  unfold ofReport
  rw [h]
  cases options.format with
  | text => exact ⟨rfl, rfl, rfl⟩
  | json => exact ⟨rfl, rfl, rfl⟩

/-- A command line, and what it finds apart from the files. -/
structure CommandLine where
  arguments : List String
  stdin : String
  /-- The profile file that is used when none is named. -/
  profilePath : Option String

namespace CommandLine

variable {c : CommandLine}

/-- Runs a command line in a tree of files. -/
def run (c : CommandLine) (format : ProfileFormat) (t : FileTree) : Outcome × FileTree :=
  t.run c.profilePath c.arguments c.stdin format

/-- A command line asks for an action on the profiles of a file. -/
def Asks (c : CommandLine) (path : String) (a : ProfileAction) : Prop :=
  ∃ options : CommonOptions, Request.ofArguments c.arguments = .run ⟨options, .profile a⟩ ∧
    (options.config <|> c.profilePath) = some path

/-- **A command line does to a file what is said of the map:** it fails with the error and changes no
file, or it succeeds and leaves the map in the file. -/
def Does (c : CommandLine) (format : ProfileFormat) (t : FileTree) (path : String) :
    Except ProfileError ProfileMap → Prop
  | .error e => c.run format t = (.ofError (.profile e), t)
  | .ok m => (c.run format t).1.exit = 0 ∧ (c.run format t).1.stderr = "" ∧
      (c.run format t).2.Holds format path m

/-- The profiles of the file are opened, and the action is run on them. -/
theorem Asks.run_eq (hc : c.Asks path a) (hb : t.profiles format path = .ok b) :
    ∃ options, c.run format t = t.settle (match a.outcome options format (some path) b with
      | .ok o => o
      | .error e => .ofError e) := by
  obtain ⟨options, harguments, hpath⟩ := hc
  refine ⟨options, ?_⟩
  have hopened : (⟨c.stdin, t.read, c.profilePath⟩ : Sources).profiles format
      (options.config <|> c.profilePath) = .ok b := by
    rw [hpath]
    exact hb
  have hattempt : Invocation.attempt ⟨c.stdin, t.read, c.profilePath⟩ format ⟨options, .profile a⟩ =
      a.outcome options format (some path) b := by
    rw [Invocation.attempt]
    dsimp only
    rw [hopened, hpath]
    rfl
  unfold run FileTree.run
  rw [harguments]
  exact congrArg (fun result => t.settle (match result with
    | .ok o => o
    | .error e => .ofError e)) hattempt

/-- An action that fails leaves every file as it is. -/
theorem Asks.run_of_error (hc : c.Asks path a) (hb : t.profiles format path = .ok b) {e : ProfileError}
    (hedit : ((a.edit path).1.run.run b).1 = .error e) : c.run format t = (.ofError (.profile e), t) := by
  obtain ⟨options, hrun⟩ := hc.run_eq hb
  have hlist : a ≠ .list := by
    rintro rfl
    have hok : (Except.ok () : Except ProfileError Unit) = .error e := hedit
    exact absurd hok (by simp)
  rcases hresult : (a.edit path).1.run.run b with ⟨e' | ⟨⟩, b'⟩
  · rw [hresult] at hedit
    obtain rfl := Except.error.inj hedit
    rw [hrun, ProfileAction.outcome_of_ne_list hlist, hresult]
    rfl
  · rw [hresult] at hedit
    exact absurd hedit (by simp)

/-- The text of the book that an action leaves is saved. The list of the profiles changes nothing. -/
theorem Asks.run_of_ok (hc : c.Asks path a) (hformat : format.Lawful)
    (hb : t.profiles format path = .ok b) {b' : ProfileBook}
    (hedit : (a.edit path).1.run.run b = (.ok (), b')) (hb' : b'.Sound) (hkeeps : t.Keeps path) :
    (c.run format t).1.exit = 0 ∧ (c.run format t).1.stderr = "" ∧
    (c.run format t).2.profiles format path = .ok b' ∧ (c.run format t).2.Keeps path := by
  obtain ⟨options, hrun⟩ := hc.run_eq hb
  by_cases hlist : a = .list
  · subst hlist
    obtain rfl : b = b' := (Prod.mk.inj hedit).2
    have hshown := Outcome.of_list options (.ofProfiles (some path) b) rfl
    have hsettle : c.run format t = (.ofReport options 0 (.ofProfiles (some path) b), t) := by
      rw [hrun]
      unfold FileTree.settle
      dsimp only [ProfileAction.outcome]
      rw [hshown.2.2]
    rw [hsettle]
    exact ⟨hshown.1, hshown.2.1, hb, hkeeps⟩
  · obtain ⟨t', hsave, hread⟩ := hkeeps (format.write b'.stored)
    have hsettle : c.run format t = (⟨0, Page.text options.quiet [.notice (a.edit path).2], "",
        some (path, format.write b'.stored)⟩, t') := by
      rw [hrun, ProfileAction.outcome_of_ne_list hlist, hedit, FileTree.settle]
      dsimp only
      rw [hsave]
    rw [hsettle]
    exact ⟨rfl, rfl, hb'.profiles_eq hformat hread, hkeeps.save hsave⟩

/-- **A command takes the file from a map to the next.** -/
theorem Asks.does (hc : c.Asks path a) (hformat : format.Lawful) (h : t.Holds format path m)
    (hkeeps : t.Keeps path) : c.Does format t path (m.after a) ∧ (c.run format t).2.Keeps path := by
  obtain ⟨b, hb, rfl⟩ := h
  have ha : a.InRange := by
    obtain ⟨options, harguments, -⟩ := hc
    exact Request.inRange_of_ofArguments harguments
  have hedit := (Sources.sound_of_profiles hformat hb).does_edit path ha
  cases hafter : b.map.after a with
  | error e =>
    rw [hafter] at hedit
    have hrun := hc.run_of_error hb hedit
    rw [Does, hrun]
    exact ⟨rfl, hkeeps⟩
  | ok m' =>
    rw [hafter] at hedit
    obtain ⟨b', hedit, hb', rfl⟩ := hedit
    obtain ⟨hexit, hstderr, hprofiles, hkeeps⟩ := hc.run_of_ok hformat hb hedit hb' hkeeps
    exact ⟨⟨hexit, hstderr, b', hprofiles, rfl⟩, hkeeps⟩

theorem Asks.holds_next (hc : c.Asks path a) (hformat : format.Lawful) (h : t.Holds format path m)
    (hkeeps : t.Keeps path) : (c.run format t).2.Holds format path (m.next a) := by
  obtain ⟨hdoes, -⟩ := hc.does hformat h hkeeps
  unfold ProfileMap.next
  cases hafter : m.after a with
  | error e =>
    rw [hafter] at hdoes
    have hrun : c.run format t = (.ofError (.profile e), t) := hdoes
    rw [hrun]
    exact h
  | ok m' =>
    rw [hafter] at hdoes
    exact hdoes.2.2

end CommandLine

/-! ### A session -/

/-- The files after a sequence of command lines. -/
def FileTree.afterAll (t : FileTree) (format : ProfileFormat) (session : List CommandLine) : FileTree :=
  session.foldl (fun t c => (c.run format t).2) t

/-- The files hold the map that the actions of a session lead to. -/
theorem FileTree.Holds.afterAll (h : t.Holds format path m) (hformat : format.Lawful)
    (hkeeps : t.Keeps path) {session : List CommandLine} {actions : List ProfileAction}
    (hsession : List.Forall₂ (fun c a => c.Asks path a) session actions) :
    (t.afterAll format session).Holds format path (m.afterAll actions) ∧
    (t.afterAll format session).Keeps path := by
  induction hsession generalizing t m with
  | nil => exact ⟨h, hkeeps⟩
  | cons hc _ ih => exact ih (hc.holds_next hformat h hkeeps) (hc.does hformat h hkeeps).2

/-- **The profile commands act on a file as on a map,** in every lawful format. The file may be missing at
the start, and then holds no profiles. After any sequence of commands it is opened again and holds the map
that their actions lead to, in which the default is a profile or none. The next command fails where the
map says so, with the error that it says, and then changes no file; otherwise it succeeds and leaves the
next map. -/
theorem FileTree.actsAsMap_of_holds (hformat : format.Lawful) (h : t.Holds format path m)
    (hkeeps : t.Keeps path) {session : List CommandLine} {actions : List ProfileAction}
    (hsession : List.Forall₂ (fun c a => c.Asks path a) session actions) :
    (t.afterAll format session).Holds format path (m.afterAll actions) ∧ (m.afterAll actions).Valid ∧
    ∀ (c : CommandLine) (a : ProfileAction), c.Asks path a →
      c.Does format (t.afterAll format session) path ((m.afterAll actions).after a) := by
  obtain ⟨hholds, hkeeps⟩ := h.afterAll hformat hkeeps hsession
  exact ⟨hholds, hholds.valid hformat, fun c a hc => (hc.does hformat hholds hkeeps).1⟩

/-- Makes a profile, and makes it the default. -/
def profileSession : List CommandLine :=
  [⟨["profile", "set", "p", "--page-limit=20"], "", some "cli.toml"⟩,
    ⟨["profile", "use", "p", "--config", "cli.toml"], "", none⟩]

/-- The actions that `profileSession` asks for. -/
def profileActions : List ProfileAction := [.set "p" ⟨none, none, some 20, none, none⟩, .use "p"]

/-- Deletes a profile that is not there. -/
def deleteMissing : CommandLine := ⟨["profile", "delete", "q"], "", some "cli.toml"⟩

theorem asks_profileSession :
    List.Forall₂ (fun c a => c.Asks "cli.toml" a) profileSession profileActions :=
  .cons ⟨⟨none, none, .text, .auto, false⟩, rfl, rfl⟩
    (.cons ⟨⟨some "cli.toml", none, .text, .auto, false⟩, rfl, rfl⟩ .nil)

theorem parts_profileFile : FilePath.parts "cli.toml" = ["cli.toml"] := by
  rw [FilePath.parts, String.splitOn, if_neg (by decide)]
  iterate 8 rw [String.splitOnAux, if_neg (by decide), if_neg (by decide)]
  rw [String.splitOnAux, if_pos (by decide)]
  decide

theorem locateFolder_profileFile :
    (FileTree.empty "w").locateFolder ["cli.toml"] = .ok (["w"], some "cli.toml") := by
  refine FileTree.locateFolder_eq_ok_iff.mpr ⟨["w"], ["cli.toml"], ?_, rfl, by decide, rfl⟩
  rw [FileTree.start.eq_def, if_neg (by decide)]
  decide

theorem read_profileFile : (FileTree.empty "w").read "cli.toml" = .error .missing := by
  have hplace : (FileTree.empty "w").locate ["cli.toml"] = .ok ["w", "cli.toml"] :=
    FileTree.locate_eq_ok_iff.mpr ⟨["w"], some "cli.toml", locateFolder_profileFile, rfl⟩
  rw [FileTree.read, parts_profileFile, bind_of_eq_ok hplace]
  rfl

theorem keeps_profileFile : (FileTree.empty "w").Keeps "cli.toml" := by
  have hfolders : FileTree.foldersFor "cli.toml" = [] := by
    rw [FileTree.foldersFor, FilePath.folderParts, parts_profileFile]
    rfl
  refine FileTree.keeps_iff.mpr ⟨.empty "w", ["w", "cli.toml"], ?_, ⟨?_, ?_, by decide⟩, by decide⟩
  · rw [hfolders]
    rfl
  · rw [FileTree.IsBare, parts_profileFile]
    rfl
  · rw [parts_profileFile]
    exact ⟨["w"], some "cli.toml", locateFolder_profileFile, by decide, rfl⟩

/-- In an empty folder the profile is made and becomes the default, and another one cannot be deleted. -/
theorem actsAsMap_profileSession :
    ProfileFormat.toml.Lawful ∧ (FileTree.empty "w").Holds .toml "cli.toml" .empty ∧
    (FileTree.empty "w").Keeps "cli.toml" ∧
    List.Forall₂ (fun c a => c.Asks "cli.toml" a) profileSession profileActions ∧
    (∃ m, ((FileTree.empty "w").afterAll .toml profileSession).Holds .toml "cli.toml" m ∧
      m.profile "p" = some ⟨none, none, some 20, none, none⟩ ∧ m.default = some "p") ∧
    deleteMissing.run .toml ((FileTree.empty "w").afterAll .toml profileSession) =
      (.ofError (.profile (.notFound "q")), (FileTree.empty "w").afterAll .toml profileSession) := by
  have hformat := ProfileFormat.lawful_toml
  have hholds : (FileTree.empty "w").Holds .toml "cli.toml" .empty :=
    FileTree.holds_of_isAbsence read_profileFile rfl
  obtain ⟨hsession, -, hnext⟩ :=
    FileTree.actsAsMap_of_holds hformat hholds keeps_profileFile asks_profileSession
  have hdelete : deleteMissing.Asks "cli.toml" (.delete "q") :=
    ⟨⟨none, none, .text, .auto, false⟩, rfl, rfl⟩
  exact ⟨hformat, hholds, keeps_profileFile, asks_profileSession, ⟨_, hsession, rfl, rfl⟩,
    hnext _ _ hdelete⟩

end PatternQuery
