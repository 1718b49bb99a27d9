import PatternQuery.Profile.File
import PatternQuery.Proofs.Profile.Read
import PatternQuery.Proofs.Toml.Lines

/-!
# The profile file is read back

What is written to the profile file is read from it again (`StoredProfiles.ofText?_text`), provided that
the profiles ascend by their names, as the book keeps them, and that every page limit is in the range of
what is read.

The writing is a list of lines, and the proof follows them: the line of a setting
(`ProfileSettings.toList_text`), the table of a profile (`StoredProfiles.reads_tableText`), the tables one
after another (`reads_tables`), the file (`reads_text`). What is then looked up in the document is read
off its entries.
-/

namespace PatternQuery

open Toml

namespace ProfileSettings

/-- A line of the table of a profile: a setting, with the text and the value of it. -/
structure Line where
  name : String
  text : List Char
  value : Toml

/-- The line of a setting, if it is set. -/
def settingLine {α : Type} (name : String) (text : α → List Char) (value : α → Toml)
    (setting : Option α) : List Line :=
  setting.toList.map fun a => ⟨name, text a, value a⟩

/-- The lines of the settings that are set. -/
def lines (s : ProfileSettings) : List Line :=
  settingLine "default_optional" (fun b => (boolText b).toList) .bool s.defaultOptional ++
  settingLine "apply_rbac" (fun b => (boolText b).toList) .bool s.applyRBAC ++
  settingLine "page_limit" (fun n : Nat => (toString n).toList) (fun n => .int n) s.pageLimit ++
  settingLine "pagination_strategy" (fun t => (quoted t).toList) .str s.strategy ++
  settingLine "include_hidden" (fun b => (boolText b).toList) .bool s.includeHidden

/-- The entries of the table of a profile. -/
def entries (s : ProfileSettings) : List (String × Toml) := s.lines.map fun l => (l.name, l.value)

theorem toList_line {α : Type} {name : String} (hkey : key name = name) (write : α → String)
    (value : α → Toml) (setting : Option α) :
    (line name (setting.map write)).toList.flatMap String.toList =
      (settingLine name (fun a => (write a).toList) value setting).flatMap fun l =>
        entryLine l.name l.text := by
  cases setting with
  | none => rfl
  | some a => simp [line, settingLine, entryLine, hkey]

theorem toList_text (s : ProfileSettings) :
    s.text.toList = s.lines.flatMap fun l => entryLine l.name l.text := by
  rw [text, String.toList_join, List.filterMap_eq_flatMap_toList, lines]
  simp only [List.flatMap_cons, List.flatMap_nil, List.flatMap_append, List.append_nil, id,
    List.append_assoc]
  rw [toList_line (by decide) boolText .bool s.defaultOptional,
    toList_line (by decide) boolText .bool s.applyRBAC,
    toList_line (by decide) toString (fun n : Nat => .int n) s.pageLimit,
    toList_line (by decide) quoted .str s.strategy,
    toList_line (by decide) boolText .bool s.includeHidden]

theorem readsAs_boolText (b : Bool) : ReadsAs (boolText b).toList (.bool b) := by
  cases b with
  | true => exact readsAs_true
  | false => exact readsAs_false

/-- Every text is read as its value, if the page limit is in range. -/
theorem readsAs_lines {s : ProfileSettings} (h : s.InRange) :
    ∀ l ∈ s.lines, ReadsAs l.text l.value := by
  have hline {α : Type} {name : String} {text : α → List Char} {value : α → Toml}
      {setting : Option α} (hreads : ∀ a, setting = some a → ReadsAs (text a) (value a)) :
      ∀ l ∈ settingLine name text value setting, ReadsAs l.text l.value := by
    intro l hl
    obtain ⟨a, ha, rfl⟩ := List.mem_map.mp hl
    exact hreads a (Option.mem_toList.mp ha)
  unfold lines
  simp only [List.forall_mem_append]
  refine ⟨⟨⟨⟨hline ?_, hline ?_⟩, hline ?_⟩, hline ?_⟩, hline ?_⟩
  · exact fun b _ => readsAs_boolText b
  · exact fun b _ => readsAs_boolText b
  · exact fun n hn => readsAs_nat (lt_trans (h n hn) (by decide))
  · exact fun t _ => readsAs_quoted t
  · exact fun b _ => readsAs_boolText b

/-- No setting is written twice. -/
theorem nodup_lines (s : ProfileSettings) : (s.lines.map (·.name)).Nodup := by
  have hsub {α : Type} (name : String) (text : α → List Char) (value : α → Toml)
      (setting : Option α) :
      ((settingLine name text value setting).map (·.name)).Sublist [name] := by
    cases setting with
    | none => exact List.nil_sublist _
    | some a => exact List.Sublist.refl _
  have hnames : ["default_optional", "apply_rbac", "page_limit", "pagination_strategy",
      "include_hidden"].Nodup := by decide
  refine hnames.sublist ?_
  unfold lines
  simp only [List.map_append]
  exact ((((hsub ..).append (hsub ..)).append (hsub ..)).append (hsub ..)).append (hsub ..)

theorem lookup_settingLine {α : Type} (name : String) (text : α → List Char) (value : α → Toml)
    (setting : Option α) (key : String) :
    ((settingLine name text value setting).map fun l => (l.name, l.value)).lookup key =
      if key = name then setting.map value else none := by
  cases setting with
  | none => simp [settingLine]
  | some a =>
    by_cases hkey : key = name
    · simp [settingLine, hkey]
    · simp [settingLine, hkey, List.lookup_cons, beq_false_of_ne hkey]

theorem readSetting_eq {α : Type} {entries : List (String × Toml)} {name : String}
    {read : Toml → Option α} {value : α → Toml} {setting : Option α}
    (h : entries.lookup name = setting.map value)
    (hread : ∀ a, setting = some a → read (value a) = some a) :
    readSetting entries name read = some setting := by
  rw [readSetting, h]
  cases setting with
  | none => rfl
  | some a =>
    show (read (value a)).map some = some (some a)
    rw [hread a rfl]
    rfl

/-- **The settings are read back from their entries,** if the page limit is in range. -/
theorem ofEntries?_entries {s : ProfileSettings} (h : s.InRange) : ofEntries? s.entries = some s := by
  have hoptional : s.entries.lookup "default_optional" = s.defaultOptional.map .bool := by
    simp [entries, lines, List.lookup_append, lookup_settingLine]
  have hrbac : s.entries.lookup "apply_rbac" = s.applyRBAC.map .bool := by
    simp [entries, lines, List.lookup_append, lookup_settingLine]
  have hlimit : s.entries.lookup "page_limit" = s.pageLimit.map fun n : Nat => .int n := by
    simp [entries, lines, List.lookup_append, lookup_settingLine]
  have hstrategy : s.entries.lookup "pagination_strategy" = s.strategy.map .str := by
    simp [entries, lines, List.lookup_append, lookup_settingLine]
  have hhidden : s.entries.lookup "include_hidden" = s.includeHidden.map .bool := by
    simp [entries, lines, List.lookup_append, lookup_settingLine]
  rw [ofEntries?, readSetting_eq hoptional fun _ _ => rfl, readSetting_eq hrbac fun _ _ => rfl,
    readSetting_eq hlimit, readSetting_eq hstrategy fun _ _ => rfl,
    readSetting_eq hhidden fun _ _ => rfl]
  · rfl
  · intro n hn
    simp [natBelow?, h n hn]

end ProfileSettings

namespace StoredProfiles

variable {front tables result : Entries} {path : List String} {rest : List Char} {name : String}

/-! ### The lines of the file -/

/-- The table of a profile while the file is read. -/
def tableDraft (s : ProfileSettings) : Draft :=
  .table .header (s.entries.map fun (name, v) => (name, .value v))

/-- The document with tables of profiles. The table around them is implied by the first. -/
def documentOf (front : Entries) : Entries → Entries
  | [] => front
  | e :: tables => front ++ [("profiles", .table .implied (e :: tables))]

theorem documentOf_concat (front tables : Entries) (e : String × Draft) :
    documentOf front (tables ++ [e]) = front ++ [("profiles", .table .implied (tables ++ [e]))] := by
  cases tables with
  | nil => rfl
  | cons e' tables => rfl

/-- The header of a table makes the table. -/
theorem within_openTable (hfront : "profiles" ∉ front.map (·.1)) (hname : name ∉ tables.map (·.1)) :
    Entries.within (Entries.openTable name) ["profiles"] (documentOf front tables) =
      some (documentOf front (tables ++ [(name, .table .header [])])) := by
  rw [documentOf_concat]
  cases tables with
  | nil =>
    rw [documentOf, Entries.within_new hfront, Entries.within, Entries.openTable_new (by simp)]
    rfl
  | cons e tables =>
    rw [documentOf, Entries.within_concat hfront, Entries.within, Entries.openTable_new hname]
    rfl

/-- **The settings of a profile are read.** -/
theorem reads_lines (hfront : "profiles" ∉ front.map (·.1)) (hname : name ∉ tables.map (·.1))
    {lines : List ProfileSettings.Line} (hlines : ∀ l ∈ lines, ReadsAs l.text l.value)
    {entries : Entries} (hnodup : (entries.map (·.1) ++ lines.map (·.name)).Nodup)
    (h : Reads (documentOf front (tables ++ [(name, .table .header
      (entries ++ lines.map fun l => (l.name, .value l.value)))])) ["profiles", name] rest result) :
    Reads (documentOf front (tables ++ [(name, .table .header entries)])) ["profiles", name]
      ((lines.flatMap fun l => entryLine l.name l.text) ++ rest) result := by
  induction lines generalizing entries with
  | nil => simpa using h
  | cons l lines ih =>
    have hfresh : l.name ∉ entries.map (·.1) := fun hmem =>
      (List.nodup_append.mp hnodup).2.2 _ hmem _ List.mem_cons_self rfl
    have hstep : Entries.within (Entries.addPath [l.name] l.value) ["profiles", name]
        (documentOf front (tables ++ [(name, .table .header entries)])) = some (documentOf front
          (tables ++ [(name, .table .header (entries ++ [(l.name, .value l.value)]))])) := by
      rw [documentOf_concat, documentOf_concat, Entries.within_concat hfront,
        Entries.within_concat hname, Entries.within, Entries.addPath_new hfresh]
      rfl
    rw [List.flatMap_cons, List.append_assoc]
    refine reads_entryLine (hlines l List.mem_cons_self) hstep
      (ih (fun l' hl' => hlines l' (List.mem_cons_of_mem _ hl')) ?_ ?_)
    · simpa using hnodup
    · simpa using h

theorem toList_tableText (name : String) (s : ProfileSettings) :
    (tableText name s).toList =
      headerLine "profiles" name ++ s.lines.flatMap fun l => entryLine l.name l.text := by
  have hkey : key "profiles" = "profiles" := by decide
  rw [tableText, String.toList_append, s.toList_text]
  simp [headerLine, hkey]

/-- **The table of a profile is read.** -/
theorem reads_tableText (hfront : "profiles" ∉ front.map (·.1)) (hname : name ∉ tables.map (·.1))
    {s : ProfileSettings} (hs : s.InRange)
    (h : Reads (documentOf front (tables ++ [(name, tableDraft s)])) ["profiles", name] rest result) :
    Reads (documentOf front tables) path ((tableText name s).toList ++ rest) result := by
  rw [toList_tableText, List.append_assoc]
  refine reads_headerLine (within_openTable hfront hname)
    (reads_lines hfront hname (ProfileSettings.readsAs_lines hs) ?_ ?_)
  · exact s.nodup_lines
  · have hentries : s.entries.map (fun (name, v) => (name, Draft.value v)) =
        s.lines.map fun l => (l.name, Draft.value l.value) := by
      rw [ProfileSettings.entries, List.map_map]
      rfl
    rw [tableDraft, hentries] at h
    exact h

/-- **The tables behind the first are read,** each with an empty line in front. -/
theorem reads_tables (hfront : "profiles" ∉ front.map (·.1))
    {settings : List (String × ProfileSettings)} (hs : ∀ e ∈ settings, e.2.InRange)
    (hnodup : (tables.map (·.1) ++ settings.map (·.1)).Nodup) :
    Reads (documentOf front tables) path
      (settings.flatMap fun e => '\n' :: (tableText e.1 e.2).toList)
      (documentOf front (tables ++ settings.map fun e => (e.1, tableDraft e.2))) := by
  induction settings generalizing tables path with
  | nil =>
    rw [List.map_nil, List.append_nil]
    exact reads_nil
  | cons e settings ih =>
    have hfresh : e.1 ∉ tables.map (·.1) := fun hmem =>
      (List.nodup_append.mp hnodup).2.2 _ hmem _ List.mem_cons_self rfl
    have ih := @ih (tables ++ [(e.1, tableDraft e.2)]) ["profiles", e.1]
      (fun e' he' => hs e' (List.mem_cons_of_mem _ he')) (by simpa using hnodup)
    rw [List.append_assoc] at ih
    rw [List.flatMap_cons, List.cons_append]
    exact reads_break (reads_tableText hfront hfresh (hs e List.mem_cons_self) ih)

/-! ### The whole file -/

/-- The entries in front of the tables. -/
def frontOf (defaultName : Option String) : Entries :=
  defaultName.toList.map fun name => ("default_profile", .value (.str name))

/-- The document that the profile file holds. -/
def document (s : StoredProfiles) : Entries :=
  if s.settings.isEmpty then frontOf s.defaultName ++ [("profiles", .table .header [])]
  else documentOf (frontOf s.defaultName) (s.settings.map fun e => (e.1, tableDraft e.2))

theorem toList_intercalate_cons (t : String) (ts : List String) :
    ("\n".intercalate (t :: ts)).toList = t.toList ++ ts.flatMap fun u => '\n' :: u.toList := by
  rw [String.toList_intercalate]
  induction ts generalizing t with
  | nil => simp
  | cons u ts ih =>
    rw [List.map_cons, List.map_cons, List.intercalate_cons_cons, ← List.map_cons, ih]
    simp

theorem toList_startLine (name : String) : ("default_profile = " ++ quoted name ++ "\n").toList =
    entryLine "default_profile" (quoted name).toList := by
  have hkey : key "default_profile" = "default_profile" := by decide
  simp [entryLine, hkey]

theorem toList_topHeader : "[profiles]\n".toList = topHeaderLine "profiles" := by decide

theorem profiles_not_mem_frontOf (defaultName : Option String) :
    "profiles" ∉ (frontOf defaultName).map (·.1) := by
  cases defaultName with
  | none => simp [frontOf]
  | some name => simp [frontOf]

/-- The first table has no empty line in front. -/
theorem reads_firstTable (hfront : "profiles" ∉ front.map (·.1)) {e : String × ProfileSettings}
    {settings : List (String × ProfileSettings)} (hs : ∀ e' ∈ e :: settings, e'.2.InRange)
    (hnodup : ((e :: settings).map (·.1)).Nodup) :
    Reads front path ((tableText e.1 e.2).toList ++
      settings.flatMap fun e => '\n' :: (tableText e.1 e.2).toList)
      (documentOf front ((e :: settings).map fun e => (e.1, tableDraft e.2))) := by
  have hrest : Reads (documentOf front [(e.1, tableDraft e.2)]) ["profiles", e.1]
      (settings.flatMap fun e => '\n' :: (tableText e.1 e.2).toList)
      (documentOf front ([(e.1, tableDraft e.2)] ++ settings.map fun e => (e.1, tableDraft e.2))) :=
    reads_tables hfront (fun e' he' => hs e' (List.mem_cons_of_mem _ he')) hnodup
  exact @reads_tableText front [] _ path _ e.1 hfront List.not_mem_nil e.2
    (hs e List.mem_cons_self) hrest

/-- The line of the default profile. -/
def startLines (defaultName : Option String) : List String :=
  defaultName.toList.map fun name => "default_profile = " ++ quoted name ++ "\n"

theorem text_nil (defaultName : Option String) : text ⟨defaultName, []⟩ =
    "\n".intercalate (startLines defaultName ++ ["[profiles]\n"]) := rfl

theorem text_cons (defaultName : Option String) (e : String × ProfileSettings)
    (settings : List (String × ProfileSettings)) : text ⟨defaultName, e :: settings⟩ =
    "\n".intercalate (startLines defaultName ++
      (e :: settings).map fun e => tableText e.1 e.2) := rfl

/-- **The file is read** into its document. -/
theorem reads_text {s : StoredProfiles} (hs : s.InRange) (hnodup : (s.settings.map (·.1)).Nodup) :
    Reads [] [] s.text.toList s.document := by
  obtain ⟨defaultName, settings⟩ := s
  have hfront := profiles_not_mem_frontOf defaultName
  cases defaultName with
  | none =>
    cases settings with
    | nil =>
      rw [text_nil, startLines, Option.toList_none, List.map_nil, List.nil_append,
        toList_intercalate_cons, toList_topHeader]
      exact reads_topHeaderLine (Entries.openTable_new hfront) reads_nil
    | cons e settings =>
      rw [text_cons, startLines, Option.toList_none, List.map_nil, List.nil_append, List.map_cons,
        toList_intercalate_cons, List.flatMap_map]
      exact reads_firstTable hfront hs hnodup
  | some name =>
    have hstart : Entries.within (Entries.addPath ["default_profile"] (.str name)) [] [] =
        some (frontOf (some name)) := Entries.addPath_new (by simp)
    cases settings with
    | nil =>
      have htop : Reads (frontOf (some name)) [] (topHeaderLine "profiles" ++ [])
          (frontOf (some name) ++ [("profiles", .table .header [])]) :=
        reads_topHeaderLine (Entries.openTable_new hfront) reads_nil
      rw [text_nil, startLines, Option.toList_some, List.map_singleton, List.singleton_append,
        toList_intercalate_cons, toList_startLine, List.flatMap_cons, List.flatMap_nil,
        List.cons_append, toList_topHeader]
      exact reads_entryLine (readsAs_quoted name) hstart (reads_break htop)
    | cons e settings =>
      have htables : Reads (documentOf (frontOf (some name)) []) []
          ((e :: settings).flatMap fun e => '\n' :: (tableText e.1 e.2).toList)
          (documentOf (frontOf (some name)) ([] ++
            (e :: settings).map fun e => (e.1, tableDraft e.2))) := reads_tables hfront hs hnodup
      rw [text_cons, startLines, Option.toList_some, List.map_singleton, List.singleton_append,
        toList_intercalate_cons, toList_startLine, List.flatMap_map]
      exact reads_entryLine (readsAs_quoted name) hstart htables

/-! ### From the document to the profiles -/

theorem finish_tableDraft (s : ProfileSettings) : (tableDraft s).finish = .table s.entries := by
  rw [tableDraft, Draft.finish, finishEntries_eq_map, List.map_map]
  congr 1
  refine (List.map_congr_left fun e _ => ?_).trans (List.map_id _)
  simp only [Function.comp, Draft.finish, id]

/-- The entries of the document: the default profile, if there is one, and the table of profiles. -/
theorem finishEntries_document (s : StoredProfiles) : finishEntries s.document =
    (s.defaultName.toList.map fun name => ("default_profile", Toml.str name)) ++
      [("profiles", .table (s.settings.map fun e => (e.1, .table e.2.entries)))] := by
  have hfront : finishEntries (frontOf s.defaultName) =
      s.defaultName.toList.map fun name => ("default_profile", Toml.str name) := by
    rw [finishEntries_eq_map, frontOf, List.map_map]
    refine List.map_congr_left fun name _ => ?_
    simp only [Function.comp, Draft.finish]
  have htables (settings : List (String × ProfileSettings)) :
      finishEntries (settings.map fun e => (e.1, tableDraft e.2)) =
        settings.map fun e => (e.1, .table e.2.entries) := by
    rw [finishEntries_eq_map, List.map_map]
    refine List.map_congr_left fun e _ => ?_
    simp only [Function.comp, finish_tableDraft]
  obtain ⟨defaultName, settings⟩ := s
  rw [← hfront]
  cases settings with
  | nil =>
    show finishEntries (frontOf defaultName ++ [("profiles", .table .header [])]) = _
    rw [finishEntries_append]
    simp only [finishEntries, Draft.finish]
    rfl
  | cons e settings =>
    show finishEntries (frontOf defaultName ++
      [("profiles", .table .implied ((e :: settings).map fun e => (e.1, tableDraft e.2)))]) = _
    rw [finishEntries_append]
    simp only [finishEntries, Draft.finish, htables]

/-- Profiles in ascending order are read in this order. -/
theorem settingsOfToml?_map {settings : List (String × ProfileSettings)}
    (hs : ∀ e ∈ settings, e.2.InRange) (hsorted : Ordered.Sorted compare settings) :
    settingsOfToml? (settings.map fun e => (e.1, .table e.2.entries)) = some settings := by
  -- The run of insertions, each at the end.
  have hrun (front settings : List (String × ProfileSettings)) (hs : ∀ e ∈ settings, e.2.InRange)
      (hsorted : Ordered.Sorted compare (front ++ settings)) :
      (settings.map fun e => (e.1, Toml.table e.2.entries)).foldlM (fun settings entry =>
        (ProfileSettings.ofToml? entry.2).bind fun s =>
          some (Ordered.insert compare entry.1 s settings)) front = some (front ++ settings) := by
    induction settings generalizing front with
    | nil => rw [List.append_nil]; rfl
    | cons e settings ih =>
      have hread : ProfileSettings.ofToml? (.table e.2.entries) = some e.2 :=
        ProfileSettings.ofEntries?_entries (hs e List.mem_cons_self)
      have hlast : Ordered.insert compare e.1 e.2 front = front ++ [e] :=
        Ordered.alter_of_forall_lt fun e' he' =>
          (List.pairwise_append.mp hsorted).2.2 e' he' e List.mem_cons_self
      rw [List.map_cons, List.foldlM_cons, hread, Option.bind_some, hlast]
      rw [List.append_cons] at hsorted
      rw [List.append_cons front e settings]
      exact ih _ (fun e' he' => hs e' (List.mem_cons_of_mem _ he')) hsorted
  exact hrun [] settings hs hsorted

/-- The file starts with the default profile or with a header, and not with a mark. -/
theorem head?_text (s : StoredProfiles) :
    s.text.toList.head? = some 'd' ∨ s.text.toList.head? = some '[' := by
  obtain ⟨defaultName, settings⟩ := s
  cases defaultName with
  | none =>
    refine .inr ?_
    cases settings with
    | nil =>
      rw [text_nil, startLines, Option.toList_none, List.map_nil, List.nil_append,
        toList_intercalate_cons, toList_topHeader]
      rfl
    | cons e settings =>
      rw [text_cons, startLines, Option.toList_none, List.map_nil, List.nil_append, List.map_cons,
        toList_intercalate_cons, toList_tableText]
      rfl
  | some name =>
    refine .inl ?_
    cases settings with
    | nil =>
      rw [text_nil, startLines, Option.toList_some, List.map_singleton, List.singleton_append,
        toList_intercalate_cons, toList_startLine]
      rfl
    | cons e settings =>
      rw [text_cons, startLines, Option.toList_some, List.map_singleton, List.singleton_append,
        toList_intercalate_cons, toList_startLine]
      rfl

/-- **The profile file is read back,** if its profiles ascend and their page limits are in range. -/
theorem ofText?_text {s : StoredProfiles} (hs : s.InRange)
    (hsorted : Ordered.Sorted compare s.settings) : ofText? s.text = some s := by
  have hmark : s.text.toList.head? ≠ some '\uFEFF' := by
    rcases s.head?_text with h | h <;> rw [h] <;> decide
  have hentries : Toml.ofText? s.text = some (finishEntries s.document) :=
    Toml.ofText?_of_reads hmark (reads_text hs hsorted.nodup)
  have hdefault : (finishEntries s.document).lookup "default_profile" = s.defaultName.map .str := by
    rw [finishEntries_document]
    cases s.defaultName with
    | none => rfl
    | some name => rfl
  have hprofiles : (finishEntries s.document).lookup "profiles" =
      some (.table (s.settings.map fun e => (e.1, .table e.2.entries))) := by
    rw [finishEntries_document]
    cases s.defaultName with
    | none => rfl
    | some name => rfl
  have hname : ProfileSettings.readSetting (finishEntries s.document) "default_profile" Toml.str? =
      some s.defaultName := ProfileSettings.readSetting_eq hdefault fun _ _ => rfl
  rw [ofText?, hentries]
  simp only [Option.bind_eq_bind, Option.bind_some, hprofiles, hname, Toml.entries?,
    settingsOfToml?_map hs hsorted]
  rfl

end StoredProfiles

/-- **The format in use is lawful.** -/
theorem ProfileFormat.lawful_toml : toml.Lawful where
  read_write _ hs hsorted := StoredProfiles.ofText?_text hs hsorted
  sorted_and_inRange _ _ h := StoredProfiles.sorted_and_inRange_of_ofText? h

end PatternQuery
