import PatternQuery.Command.Run
import PatternQuery.Proofs.Config.RoundTrip
import PatternQuery.Proofs.Profile.File

/-!
# Configurations of compiled graphs

A graph that compiles always gives a configuration that can be stored. What the compiler knows by
position, the check of a pattern finds again by key: keys are different for different nodes, and the walk
comes to a node before it comes to what is below it, so the hops pass (`Graph.check_of_compile`). They
even start from the very occurrences that were introduced, tags included, where the check compares keys
and schemas only (`Graph.source_introduced_of_compile`). Nothing is selected, and a profile that is in
force has a page limit that can be asked for, so the configuration is valid under every profile
(`Profile.InRange.valid_config`), and it is read back as it was written.

So nothing is left that could fail once the graph has compiled: the command that emits a configuration
fails where the command that shows the hops fails (`Invocation.attempt_emit_eq_error_iff`), and where it
does not, it is this configuration that it emits (`Invocation.attempt_emit_eq`).
-/

namespace PatternQuery

/-! ### The hops of a compiled graph -/

namespace Graph

variable {g : Graph} {d : Bool} {c : Compiled} {root : Node} {f : Forest Stem}

/-- An edge of a compiled tree starts from the occurrence of a node. -/
theorem exists_source_eq (h : (visitOrder root f).Nodup) {source target : Occurrence}
    {relation : String} {optional : Bool}
    (hmem : Hop.edge source relation target optional ∈ (Compiled.ofTree root f).hops) :
    ∃ u ∈ visitOrder root f, (Compiled.ofTree root f).occurrence u = source := by
  rw [hops_ofTree h] at hmem
  obtain heq | hmem := List.mem_cons.mp hmem
  · exact absurd heq (by simp)
  · obtain ⟨v, hv, heq⟩ := List.mem_map.mp hmem
    exact ⟨v.parent, parent_mem_visitOrder hv, (Hop.edge.inj heq).1⟩

/-- Where keys are equal, so are the occurrences of nodes. -/
theorem occurrence_eq_of_key_eq (h : (visitOrder root f).Nodup) {u v : String}
    (hu : u ∈ visitOrder root f) (hv : v ∈ visitOrder root f)
    (hkey : ((Compiled.ofTree root f).occurrence u).key = ((Compiled.ofTree root f).occurrence v).key) :
    (Compiled.ofTree root f).occurrence u = (Compiled.ofTree root f).occurrence v :=
  congrArg _ (List.inj_on_of_nodup_map (nodup_keys_ofTree h) hu hv hkey)

/-- **Edges start from what was introduced:** from the very occurrence, and not only from its key. -/
theorem source_introduced_of_compile (h : g.compile d = .ok c) {earlier later : Pattern}
    {source target : Occurrence} {relation : String} {optional : Bool}
    (hsplit : c.hops = earlier ++ .edge source relation target optional :: later) :
    ∃ hop ∈ earlier, hop.introduces = source := by
  -- The check finds an earlier hop by the key of the source only.
  obtain ⟨placed, hplace⟩ := Pattern.exists_place_of_check (check_of_compile h)
  obtain ⟨hop, hhop, hkey, -⟩ :=
    (Pattern.inOrder_of_place hplace).source_introduced _ _ _ _ _ _ hsplit
  refine ⟨hop, hhop, ?_⟩
  obtain ⟨root, f, rfl, -, -, hs, -⟩ := exists_tree_of_compile h (fun _ => none) .standard
  have hnd := hs.nodup_visitOrder
  -- What it introduces and the source both are occurrences of nodes, whose keys are different.
  have hedge : Hop.edge source relation target optional ∈ (Compiled.ofTree root f).hops :=
    hsplit ▸ List.mem_append_right _ List.mem_cons_self
  obtain ⟨v, hv, rfl⟩ := exists_source_eq hnd hedge
  have hintroduced : hop.introduces ∈ (visitOrder root f).map (Compiled.ofTree root f).occurrence := by
    rw [← map_introduces_ofTree hnd, hsplit]
    exact List.mem_map_of_mem (List.mem_append_left _ hhop)
  obtain ⟨u, hu, hueq⟩ := List.mem_map.mp hintroduced
  rw [← hueq] at hkey ⊢
  exact occurrence_eq_of_key_eq hnd hu hv hkey

end Graph

/-! ### Under a profile -/

namespace Profile

/-- The page that is asked for under a profile. -/
def page (p : Profile) : Pagination :=
  ⟨p.pageLimit.getD Pagination.standard.limit, Pagination.standard.offset,
    p.strategy.getD Pagination.standard.strategy⟩

/-- The configuration of a pattern under a profile, from which nothing is selected. -/
def config (p : Profile) (hops : Pattern) : Config :=
  ⟨.empty, hops, p.applyRBAC.getD false, p.page⟩

variable {p : Profile} {hops : Pattern}

theorem InRange.page_limit (hp : p.InRange) :
    p.page.limit ≠ 0 ∧ p.page.limit < Pagination.limitBound := by
  unfold page
  cases hlimit : p.pageLimit with
  | none => exact (by decide : Pagination.standard.limit ≠ 0 ∧
      Pagination.standard.limit < Pagination.limitBound)
  | some n => exact hp n hlimit

theorem InRange.valid_config (hp : p.InRange) (hcheck : hops.check = .ok ()) :
    (p.config hops).Valid :=
  ⟨hcheck, ColumnSet.ordered_empty, hp.page_limit.1,
    fun _ hmem => absurd hmem (by simp [config, ColumnSet.empty])⟩

theorem InRange.configOf_eq (hp : p.InRange) (hcheck : hops.check = .ok ()) :
    Action.configOf p hops = .ok (p.config hops) := by
  have hstart : Config.ofPattern hops = .ok ⟨.empty, hops, false, .standard⟩ := by
    refine Config.make_eq_ok_iff.mpr ⟨rfl, Config.Valid.check_eq ?_⟩
    exact inRange_blank.valid_config hcheck
  rw [Action.configOf, bind_of_eq_ok hstart]
  exact Config.make_eq_ok_iff.mpr ⟨rfl, (hp.valid_config hcheck).check_eq⟩

theorem InRange.load_config (hp : p.InRange) (hcheck : hops.check = .ok ()) :
    Config.load (p.config hops).toJson = .ok (p.config hops) ∧
    Config.load (p.config hops).toJson.sorted = .ok (p.config hops) := by
  have hoffset : Pagination.standard.offset < Pagination.offsetBound := by decide
  have hspelled : (p.config hops).parts.SpelledBy (p.config hops).toJson :=
    Config.spelledBy_toJson ⟨hp.page_limit.2, hoffset⟩
  exact ⟨(hp.valid_config hcheck).load_eq hspelled,
    (hp.valid_config hcheck).load_eq (Config.Parts.orderFree_spelledBy _ _ hspelled)⟩

end Profile

/-! ### The command -/

namespace Action

variable {s : Sources} {p : Profile} {input : String} {d : Bool} {e : CommandError}

/-- **The configuration is what is emitted** once the input has been read and compiled. -/
theorem compileReport_emit_eq {v : Json} {g : Graph} {c : Compiled} (hinput : s.json input = .ok v)
    (hgraph : Graph.ofJson v = .ok g) (hcompile : g.compile (d || p.defaultOptional.getD false) = .ok c)
    (hp : p.InRange) : compileReport s p input d true = .ok (.ofConfig (p.config c.hops)) := by
  unfold compileReport
  rw [bind_of_eq_ok hinput, bind_of_eq_ok (mapError_eq_ok_iff.mpr hgraph),
    bind_of_eq_ok (mapError_eq_ok_iff.mpr hcompile), hp.configOf_eq (Graph.check_of_compile hcompile)]
  rfl

/-- Under a profile that can be in force, emitting the configuration adds no failure. -/
theorem compileReport_eq_error_iff (hp : p.InRange) :
    compileReport s p input d true = .error e ↔ compileReport s p input d false = .error e := by
  unfold compileReport
  -- Reading the input, reading the graph and compiling it come first in both, one after another.
  rw [bind_eq_error_iff, bind_eq_error_iff]
  refine or_congr_right (exists_congr fun v => and_congr_right fun _ => ?_)
  rw [bind_eq_error_iff, bind_eq_error_iff]
  refine or_congr_right (exists_congr fun g => and_congr_right fun _ => ?_)
  rw [bind_eq_error_iff, bind_eq_error_iff]
  refine or_congr_right (exists_congr fun c => and_congr_right fun hc => ?_)
  have hcheck : c.hops.check = .ok () := Graph.check_of_compile (mapError_eq_ok_iff.mp hc)
  rw [hp.configOf_eq hcheck]
  change (Except.ok (Report.ofConfig (p.config c.hops)) : Except CommandError Report) = .error e ↔
    (Except.ok (Report.ofCompiled c) : Except CommandError Report) = .error e
  simp only [reduceCtorEq]

end Action

namespace Invocation

variable {s : Sources} {format : ProfileFormat} {options : CommonOptions} {b : ProfileBook} {p : Profile}
  {input : String} {d : Bool} {e : CommandError}

/-- **A command that emits the configuration shows it,** and ends well. -/
theorem attempt_emit_eq (hformat : format.Lawful)
    (hb : s.profiles format (options.config <|> s.profilePath) = .ok b)
    (hp : (b.active options.profile).map (·.getD .blank) = .ok p) {v : Json} {g : Graph} {c : Compiled}
    (hinput : s.json input = .ok v) (hgraph : Graph.ofJson v = .ok g)
    (hcompile : g.compile (d || p.defaultOptional.getD false) = .ok c) :
    attempt s format ⟨options, .compile input d true⟩ =
      .ok (.ofReport options 0 (.ofConfig (p.config c.hops))) := by
  have hrange := Sources.inRange_of_active hformat hb hp
  unfold attempt
  dsimp only
  -- The profile file is opened first, the profile in force is found in it, and the report comes last.
  rw [bind_of_eq_ok hb, bind_of_eq_ok (mapError_eq_ok_iff.mpr hp),
    Action.compileReport_emit_eq hinput hgraph hcompile hrange]
  rfl

/-- **A command that emits the configuration fails exactly where compiling fails,** with the same
error. -/
theorem attempt_emit_eq_error_iff (hformat : format.Lawful) :
    attempt s format ⟨options, .compile input d true⟩ = .error e ↔
      attempt s format ⟨options, .compile input d false⟩ = .error e := by
  unfold attempt
  dsimp only
  rw [bind_eq_error_iff, bind_eq_error_iff]
  refine or_congr_right (exists_congr fun b => and_congr_right fun hb => ?_)
  rw [bind_eq_error_iff, bind_eq_error_iff]
  refine or_congr_right (exists_congr fun p => and_congr_right fun hp => ?_)
  have hrange := Sources.inRange_of_active hformat hb (mapError_eq_ok_iff.mp hp)
  rw [bind_pure_eq_error_iff, bind_pure_eq_error_iff]
  exact Action.compileReport_eq_error_iff hrange

end Invocation

/-- A configuration that is emitted as JSON is emitted as it is stored. -/
theorem Outcome.ofReport_ofConfig {options : CommonOptions} (h : options.format = .json) (config : Config) :
    ofReport options 0 (.ofConfig config) = ⟨0, config.toJson.pretty ++ "\n", "", none⟩ := by
  rw [ofReport, h]
  rfl

/-- **A graph that compiles gives a configuration that can be stored.** Its hops pass the check of a
pattern, no key is introduced twice, and every edge starts from the very occurrence that an earlier hop
introduced. Under every profile that can be in force, be it one of the file or the blank one, they make
a configuration, which is loaded again as it was stored. When the command reads the graph, this is the
configuration that it emits, and as JSON it emits what is stored. It fails exactly where the command that
shows the hops fails. -/
theorem emits_of_compile {format : ProfileFormat} (hformat : format.Lawful) {g : Graph} {d : Bool}
    {c : Compiled} (h : g.compile d = .ok c) {s : Sources} {path : Option String} {b : ProfileBook}
    (hb : s.profiles format path = .ok b) :
    c.hops.check = .ok () ∧ (Pattern.keys c.hops).Nodup ∧
    (∀ earlier source relation target optional later,
      c.hops = earlier ++ .edge source relation target optional :: later →
        ∃ hop ∈ earlier, hop.introduces = source) ∧
    (∀ p ∈ Profile.blank :: b.index.map (·.2), ∃ config,
      Action.configOf p c.hops = .ok config ∧
      config = ⟨.empty, c.hops, p.applyRBAC.getD false,
        ⟨p.pageLimit.getD 50, 0, p.strategy.getD .offset⟩⟩ ∧
      Config.load config.toJson = .ok config ∧ Config.load config.toJson.sorted = .ok config) ∧
    (∀ options p input v defaultOptional, (options.config <|> s.profilePath) = path →
      (b.active options.profile).map (·.getD .blank) = .ok p →
      s.json input = .ok v → Graph.ofJson v = .ok g →
      (defaultOptional || p.defaultOptional.getD false) = d → ∃ config,
        Action.configOf p c.hops = .ok config ∧
        config = ⟨.empty, c.hops, p.applyRBAC.getD false,
          ⟨p.pageLimit.getD 50, 0, p.strategy.getD .offset⟩⟩ ∧
        Invocation.attempt s format ⟨options, .compile input defaultOptional true⟩ =
          .ok (.ofReport options 0 (.ofConfig config)) ∧
        (options.format = .json → Outcome.ofReport options 0 (.ofConfig config) =
          ⟨0, config.toJson.pretty ++ "\n", "", none⟩) ∧
        Config.load config.toJson = .ok config) ∧
    ∀ options input defaultOptional e,
      Invocation.attempt s format ⟨options, .compile input defaultOptional true⟩ = .error e ↔
        Invocation.attempt s format ⟨options, .compile input defaultOptional false⟩ = .error e := by
  have hcheck := Graph.check_of_compile h
  obtain ⟨placed, hplace⟩ := Pattern.exists_place_of_check hcheck
  refine ⟨hcheck, (Pattern.inOrder_of_place hplace).nodup_keys,
    fun _ _ _ _ _ _ => Graph.source_introduced_of_compile h, fun p hp => ?_, ?_,
    fun _ _ _ _ => Invocation.attempt_emit_eq_error_iff hformat⟩
  · -- A profile of the file has passed its check, and the blank one has nothing to check.
    have hrange : p.InRange := by
      obtain rfl | hp := List.mem_cons.mp hp
      · exact Profile.inRange_blank
      · obtain ⟨entry, hentry, rfl⟩ := List.mem_map.mp hp
        exact Sources.inRange_of_profiles hformat hb entry hentry
    obtain ⟨hload, hsorted⟩ := hrange.load_config hcheck
    exact ⟨p.config c.hops, hrange.configOf_eq hcheck, rfl, hload, hsorted⟩
  · rintro options p input v defaultOptional rfl hp hinput hgraph rfl
    have hrange := Sources.inRange_of_active hformat hb hp
    exact ⟨p.config c.hops, hrange.configOf_eq hcheck, rfl,
      Invocation.attempt_emit_eq hformat hb hp hinput hgraph h,
      fun hjson => Outcome.ofReport_ofConfig hjson _, (hrange.load_config hcheck).1⟩

/-- A node with an optional edge to another. -/
def optionalEdge : Graph :=
  ⟨[⟨"a", "A", none, .origin, false⟩, ⟨"b", "B", none, .origin, false⟩],
    [⟨"a", "b", "r", some true⟩]⟩

/-- What `optionalEdge` compiles to. -/
def optionalEdgeCompiled : Compiled :=
  ⟨[.root ⟨"A", none⟩, .edge ⟨"A", none⟩ "r" ⟨"B", none⟩ true],
    [("a", ⟨"A", none⟩), ("b", ⟨"B", none⟩)]⟩

theorem compile_optionalEdge : optionalEdge.compile false = .ok optionalEdgeCompiled := by cbv

/-- A file of one profile, and `optionalEdge` on the standard input. -/
def profiledSources : Sources where
  stdin :=
    "\x7b\"edges\":[\x7b\"optional\":true,\"relation\":\"r\",\"source\":\"a\",\"target\":\"b\"\x7d]," ++
    "\"nodes\":[\x7b\"id\":\"a\",\"schemaId\":\"A\"\x7d,\x7b\"id\":\"b\",\"schemaId\":\"B\"\x7d]\x7d"
  file path :=
    if path = "cli.toml" then
      .ok "[profiles.p]\npage_limit = 20\npagination_strategy = \"Cursor\"\n"
    else .error .missing
  profilePath := none

/-- What the file of `profiledSources` is read into. -/
def profiledBook : ProfileBook :=
  ⟨⟨none, [("p", ⟨none, none, some 20, some "Cursor", none⟩)]⟩,
    [("p", ⟨none, none, some 20, some .cursor, none⟩)]⟩

theorem profiles_profiledSources :
    profiledSources.profiles .toml (some "cli.toml") = .ok profiledBook := by cbv

/-- The standard input of `profiledSources` as a value. -/
def optionalEdgeInput : Json :=
  .obj [("edges", .arr [.obj [("optional", .bool true), ("relation", .str "r"),
      ("source", .str "a"), ("target", .str "b")]]),
    ("nodes", .arr [.obj [("id", .str "a"), ("schemaId", .str "A")],
      .obj [("id", .str "b"), ("schemaId", .str "B")]])]

theorem json_profiledSources : profiledSources.json "-" = .ok optionalEdgeInput := by cbv

theorem ofJson_optionalEdgeInput : Graph.ofJson optionalEdgeInput = .ok optionalEdge := by cbv

/-- The configuration of `optionalEdge`, whose page comes from the profile, in whatever case the strategy
is written there. -/
def optionalEdgeConfig : Config :=
  ⟨.empty, optionalEdgeCompiled.hops, false, ⟨20, 0, .cursor⟩⟩

/-- The command emits the configuration of its input under the profile that it is told to apply. -/
theorem emits_optionalEdge : ProfileFormat.toml.Lawful ∧
    optionalEdge.compile false = .ok optionalEdgeCompiled ∧
    profiledSources.profiles .toml (some "cli.toml") = .ok profiledBook ∧
    Invocation.attempt profiledSources .toml
      ⟨⟨some "cli.toml", some "p", .json, .auto, false⟩, .compile "-" false true⟩ =
      .ok ⟨0, optionalEdgeConfig.toJson.pretty ++ "\n", "", none⟩ ∧
    Config.load optionalEdgeConfig.toJson = .ok optionalEdgeConfig := by
  obtain ⟨-, -, -, -, hcommand, -⟩ :=
    emits_of_compile ProfileFormat.lawful_toml compile_optionalEdge profiles_profiledSources
  obtain ⟨config, -, rfl, hattempt, hshown, hload⟩ :=
    hcommand ⟨some "cli.toml", some "p", .json, .auto, false⟩
      ⟨none, none, some 20, some .cursor, none⟩ "-" optionalEdgeInput false rfl rfl json_profiledSources
      ofJson_optionalEdgeInput rfl
  rw [hshown rfl] at hattempt
  exact ⟨ProfileFormat.lawful_toml, compile_optionalEdge, profiles_profiledSources, hattempt, hload⟩

end PatternQuery
