import PatternQuery.Proofs.Config.Reading
import PatternQuery.Proofs.Config.Stored
import PatternQuery.Proofs.Pattern.Faults

/-!
# Why a stored configuration is refused

A value may spell the parts of a configuration, and the parts break a rule. Some rules are about a
single member, the columns or one hop, and are tested where the member is read
(`Config.Parts.MemberBreaks`). The others are about the configuration as a whole, and are tested when
the parts have been read (`Config.Parts.WholeBreaks`).

`Config.load` keeps the error of a configuration that is not valid. But it knows such an error only when
all members have been read: if a rule about a member is broken, the reading fails, and the error comes
out as a failure to read, with the text of the error and the code of every other such failure
(`Config.load_of_memberBreaks`). Only if no rule about a member is broken the error keeps its code
(`Config.load_of_not_memberBreaks`).
-/

namespace PatternQuery

open Json (ListOf)

namespace Config

/-! ### Rules -/

namespace Parts

/-- **A rule about a member is broken:** the columns are not a set of columns, or a hop is a half edge
hop. -/
inductive MemberBreaks (x : Parts) : ConfigError → Prop
  | columns {e : ColumnError} (h : e.Holds x.columns) : MemberBreaks x (.column e)
  | hop {part : Hop.Parts} {missing : String} (hpart : part ∈ x.hops) (h : part.Lacks missing) :
      MemberBreaks x (.pattern (.incompleteEdge missing))

/-- **A rule about the whole is broken:** the hops are complete but no pattern, no row is asked for, or
the hops are complete but do not introduce the occurrence of a column. -/
inductive WholeBreaks (x : Parts) : ConfigError → Prop
  | pattern {p : Pattern} {e : PatternError} (hp : p.MadeOf x.hops) (h : e.Holds p) :
      WholeBreaks x (.pattern e)
  | limit (h : x.pagination.limit = 0) : WholeBreaks x .zeroLimit
  | occurrence {p : Pattern} {column : Column} (hp : p.MadeOf x.hops) (hcolumn : column ∈ x.columns)
      (h : column.id.schema ∉ p.keys) : WholeBreaks x (.unknownOccurrence column.id)

/-- A rule is broken. -/
def Breaks (x : Parts) (e : ConfigError) : Prop := x.MemberBreaks e ∨ x.WholeBreaks e

variable {x : Parts} {v : Json} {e : ConfigError}

/-! ### Members -/

/-- **A member that cannot be read** breaks a rule, and the text of the failure is the text of the
rule. -/
theorem SpelledBy.exists_memberBreaks (h : x.SpelledBy v) {d : DecodeError}
    (hd : readRecord v = .error d) : ∃ e, x.MemberBreaks e ∧ d = .refused e.message := by
  obtain ⟨r, name, w, hw, hstep⟩ := Json.exists_step_error h.record (by decide) hd
  split at hstep
  · have hcolumns : ListOf Column.SpelledBy x.columns w := (hw ▸ h.columns).of_some
    rw [ColumnSet.ofJson_eq hcolumns] at hstep
    cases hs : ColumnSet.ofColumns x.columns with
    | ok s =>
      rw [hs] at hstep
      exact absurd hstep nofun
    | error e =>
      rw [hs] at hstep
      exact ⟨.column e, .columns (ColumnSet.holds_of_ofColumns hs), (Except.error.inj hstep).symm⟩
  · have hhops : ListOf Hop.Parts.SpelledBy x.hops w := (hw ▸ h.hops).of_some
    obtain ⟨p, -, heq⟩ | ⟨part, hpart, missing, hlacks, heq⟩ := Pattern.ofJson_cases hhops
    · rw [heq] at hstep
      exact absurd hstep nofun
    · rw [heq] at hstep
      exact ⟨_, .hop hpart hlacks, (Except.error.inj hstep).symm⟩
  · -- From here on nothing is put together while reading, so what is spelled is read.
    have hrbac : Json.IsBool x.applyRBAC w := (hw ▸ h.applyRBAC).of_some
    rw [hrbac.toBool_eq] at hstep
    exact absurd hstep nofun
  · have hpagination : Pagination.SpelledBy x.pagination w := (hw ▸ h.pagination).of_some
    rw [hpagination.ofJson_eq] at hstep
    exact absurd hstep nofun
  · exact absurd hstep nofun

/-- If the members can be read, the columns can be taken in and the hops are complete. -/
theorem SpelledBy.exists_of_readRecord (h : x.SpelledBy v) {r : Record} (hr : readRecord v = .ok r) :
    (∃ s, ColumnSet.ofColumns x.columns = .ok s) ∧ ∃ p : Pattern, p.MadeOf x.hops := by
  constructor
  · cases hfield : v.field memberNames "columns" with
    | none =>
      have hnil : x.columns = [] := (hfield ▸ h.columns).eq_of_none
      exact ⟨.empty, hnil ▸ ColumnSet.ordered_empty.ofColumns_columns⟩
    | some w =>
      have hcolumns : ListOf Column.SpelledBy x.columns w := (hfield ▸ h.columns).of_some
      obtain ⟨_, _, hstep⟩ := Json.exists_step_ok h.record (by decide) hr hfield
      obtain ⟨s, hs, -⟩ := bind_eq_ok_iff.mp hstep
      rw [ColumnSet.ofJson_eq hcolumns, mapError_eq_ok_iff] at hs
      exact ⟨s, hs⟩
  · obtain ⟨w, hfield⟩ := Option.isSome_iff_exists.mp h.hops.isSome
    have hhops : ListOf Hop.Parts.SpelledBy x.hops w := (hfield ▸ h.hops).of_some
    obtain ⟨_, _, hstep⟩ := Json.exists_step_ok h.record (by decide) hr hfield
    obtain ⟨p, hp, -⟩ := bind_eq_ok_iff.mp hstep
    obtain ⟨p', hmade, -⟩ | ⟨_, _, _, _, herror⟩ := Pattern.ofJson_cases hhops
    · exact ⟨p', hmade⟩
    · exact absurd (hp.symm.trans herror) nofun

/-- Columns that are taken in and hops that are complete break no rule about members. -/
theorem not_memberBreaks {s : ColumnSet} {p : Pattern} (hs : ColumnSet.ofColumns x.columns = .ok s)
    (hp : p.MadeOf x.hops) : ¬ x.MemberBreaks e := by
  rintro (hholds | ⟨hpart, hlacks⟩)
  · exact ColumnSet.exists_ofColumns_iff.mp ⟨s, hs⟩ _ hholds
  · exact hp.not_lacks hpart _ hlacks

/-! ### The whole -/

section Whole

variable {s : ColumnSet} {p : Pattern}

theorem mem_columns_iff (hs : ColumnSet.ofColumns x.columns = .ok s) {column : Column} :
    column ∈ s.columns ↔ column ∈ x.columns := by
  rw [(ColumnSet.ofColumns_eq_ok_iff.mp hs).1]
  exact (List.mergeSort_perm _ _).mem_iff

theorem wholeBreaks_of_check (hs : ColumnSet.ofColumns x.columns = .ok s) (hp : p.MadeOf x.hops)
    (h : check ⟨s, p, x.applyRBAC, x.pagination⟩ = .error e) : x.WholeBreaks e := by
  have hcolumns : s.checkInvariants = .ok () :=
    (ColumnSet.ofColumns_eq_ok_iff.mp hs).2.checkInvariants_eq
  unfold check at h
  obtain h | ⟨-, h⟩ := check_bind_eq_error_iff.mp h
  · obtain ⟨e', he', rfl⟩ := mapError_eq_error_iff.mp h
    exact .pattern hp (Pattern.holds_of_check he')
  obtain h | ⟨-, h⟩ := check_bind_eq_error_iff.mp h
  · -- The columns passed this test when they were taken in.
    obtain ⟨e', he', -⟩ := mapError_eq_error_iff.mp h
    exact absurd (hcolumns.symm.trans he') nofun
  dsimp only at h
  split_ifs at h with hlimit
  · obtain rfl := Except.error.inj h
    exact .limit hlimit
  · split at h
    · next column hcolumn =>
      obtain rfl := Except.error.inj h
      have hmem : column ∈ x.columns := (mem_columns_iff hs).mp (List.mem_of_find?_eq_some hcolumn)
      have hkeys : (occurrences ⟨s, p, x.applyRBAC, x.pagination⟩).map Occurrence.key = p.keys :=
        List.map_map
      have hunknown := List.find?_some hcolumn
      rw [hkeys] at hunknown
      exact .occurrence hp hmem (by simpa using hunknown)
    · exact absurd h nofun

theorem not_wholeBreaks_of_check (hs : ColumnSet.ofColumns x.columns = .ok s) (hp : p.MadeOf x.hops)
    (h : check ⟨s, p, x.applyRBAC, x.pagination⟩ = .ok ()) : ¬ x.WholeBreaks e := by
  obtain ⟨hcheck, -, hlimit, hintroduced⟩ := check_eq_ok_iff.mp h
  -- The hops make one pattern only, so the rules speak of the pattern that was checked.
  rintro (⟨hp', hholds⟩ | hzero | ⟨hp', hcolumn, hnot⟩)
  · obtain rfl := hp.unique hp'
    exact Pattern.not_holds_of_check hcheck hholds
  · exact hlimit hzero
  · obtain rfl := hp.unique hp'
    exact hnot (hintroduced _ ((mem_columns_iff hs).mpr hcolumn))

end Whole

end Parts

/-! ### Loading -/

section Loading

variable {x : Parts} {v : Json} {e : ConfigError}

/-- **A rule about a member is broken:** the error comes out as a failure to read. -/
theorem load_of_memberBreaks (h : x.SpelledBy v) (he : x.MemberBreaks e) :
    ∃ e, x.MemberBreaks e ∧ load v = .error (.serialization (.refused e.message)) := by
  cases hr : readRecord v with
  | ok r =>
    obtain ⟨⟨s, hs⟩, p, hp⟩ := h.exists_of_readRecord hr
    exact absurd he (Parts.not_memberBreaks hs hp)
  | error d =>
    obtain ⟨e', he', rfl⟩ := h.exists_memberBreaks hr
    exact ⟨e', he', load_of_error hr⟩

/-- **No rule about a member is broken:** the parts are read, and make a configuration or break a rule
about the whole. -/
theorem load_of_not_memberBreaks (h : x.SpelledBy v) (hnone : ∀ e, ¬ x.MemberBreaks e) :
    ((∃ c, load v = .ok c) ∧ ∀ e, ¬ x.WholeBreaks e) ∨
      ∃ e, x.WholeBreaks e ∧ load v = .error (.config e) := by
  cases hr : readRecord v with
  | error d =>
    obtain ⟨e', he', -⟩ := h.exists_memberBreaks hr
    exact absurd he' (hnone e')
  | ok r =>
    obtain ⟨⟨s, hs⟩, p, hp⟩ := h.exists_of_readRecord hr
    rw [load_of_readRecord (h.readRecord_eq hs hp)]
    dsimp only
    cases hmake : make s p x.applyRBAC x.pagination with
    | ok c =>
      obtain ⟨rfl, hcheck⟩ := make_eq_ok_iff.mp hmake
      exact .inl ⟨⟨_, rfl⟩, fun e => Parts.not_wholeBreaks_of_check hs hp hcheck⟩
    | error e =>
      obtain hcheck | ⟨-, hok⟩ := check_bind_eq_error_iff.mp hmake
      · exact .inr ⟨e, Parts.wholeBreaks_of_check hs hp hcheck, rfl⟩
      · exact absurd hok nofun

end Loading

end Config

theorem ConfigError.code_ne_serialization (e : ConfigError) : e.code ≠ "Serialization" := by
  cases e with
  | pattern e => cases e <;> simp [code, PatternError.code]
  | column e => cases e <;> simp [code, ColumnError.code]
  | zeroLimit => simp [code]
  | unknownOccurrence id => simp [code]

/-- **Which error a stored configuration is refused with.** Where a value spells the parts of a
configuration, it is loaded iff they break no rule. If a rule about a member is broken, the value is
refused as one that cannot be read, with the text of such an error but not with its code. If only rules
about the whole are broken, it is refused with the code and the text of one of these. -/
theorem load_of_spelledBy (x : Config.Parts) (v : Json) (h : x.SpelledBy v) :
    ((∃ c, Config.load v = .ok c) ↔ ∀ e, ¬ x.Breaks e) ∧
    ((∃ e, x.MemberBreaks e) → ∃ e y, x.MemberBreaks e ∧ Config.load v = .error y ∧
      y.code = "Serialization" ∧ y.message = "serialization error: " ++ e.message) ∧
    ((∀ e, ¬ x.MemberBreaks e) → (∃ e, x.WholeBreaks e) → ∃ e y, x.WholeBreaks e ∧
      Config.load v = .error y ∧ y.code = e.code ∧ y.code ≠ "Serialization" ∧
      y.message = e.message) := by
  refine ⟨⟨?_, fun hnone => ?_⟩, ?_, ?_⟩
  · rintro ⟨c, hc⟩
    have hmember (e : ConfigError) : ¬ x.MemberBreaks e := fun he => by
      obtain ⟨e', -, herror⟩ := Config.load_of_memberBreaks h he
      exact absurd (hc.symm.trans herror) nofun
    obtain ⟨-, hwhole⟩ | ⟨e', -, herror⟩ := Config.load_of_not_memberBreaks h hmember
    · exact fun e he => he.elim (hmember e) (hwhole e)
    · exact absurd (hc.symm.trans herror) nofun
  · obtain ⟨hc, -⟩ | ⟨e, he, -⟩ := Config.load_of_not_memberBreaks h fun e he => hnone e (.inl he)
    · exact hc
    · exact absurd (.inr he) (hnone e)
  · rintro ⟨e, he⟩
    obtain ⟨e', he', herror⟩ := Config.load_of_memberBreaks h he
    exact ⟨e', _, he', herror, rfl, rfl⟩
  · rintro hnone ⟨e, he⟩
    obtain ⟨-, hwhole⟩ | ⟨e', he', herror⟩ := Config.load_of_not_memberBreaks h hnone
    · exact absurd he (hwhole e)
    · exact ⟨e', _, he', herror, rfl, e'.code_ne_serialization, rfl⟩

/-- A hop with a target, but without a relation. -/
def halfEdge : Config.Parts :=
  ⟨[], [⟨⟨"A", none⟩, some ⟨"B", none⟩, none, none⟩], false, .standard⟩

/-- The same as it is stored. -/
def storedHalfEdge : Json :=
  .obj [("patterns", .arr [.obj [("from", .obj [("schemaId", .str "A")]),
    ("to", .obj [("schemaId", .str "B")])]])]

theorem memberBreaks_halfEdge : halfEdge.MemberBreaks (.pattern (.incompleteEdge "edge")) :=
  .hop List.mem_cons_self (.inl ⟨rfl, rfl, rfl⟩)

theorem spelledBy_storedHalfEdge : halfEdge.SpelledBy storedHalfEdge := by
  have hoccurrence (schema : String) :
      Occurrence.SpelledBy ⟨schema, none⟩ (.obj [("schemaId", .str schema)]) :=
    Occurrence.spelledBy_toJson ⟨schema, none⟩
  have hpart : Hop.Parts.SpelledBy ⟨⟨"A", none⟩, some ⟨"B", none⟩, none, none⟩
      (.obj [("from", .obj [("schemaId", .str "A")]), ("to", .obj [("schemaId", .str "B")])]) :=
    ⟨by simp [Json.IsRecord], ⟨hoccurrence "A"⟩, .given (hoccurrence "B"), .missing, .missing⟩
  exact ⟨by simp [storedHalfEdge, Json.IsRecord], .missing, ⟨⟨.cons hpart .nil⟩⟩, .missing, .missing⟩

theorem load_storedHalfEdge : halfEdge.SpelledBy storedHalfEdge ∧
    ∃ e y, halfEdge.MemberBreaks e ∧ Config.load storedHalfEdge = .error y ∧
      y.code = "Serialization" ∧ y.message = "serialization error: " ++ e.message := by
  obtain ⟨-, hmember, -⟩ := load_of_spelledBy halfEdge storedHalfEdge spelledBy_storedHalfEdge
  exact ⟨spelledBy_storedHalfEdge, hmember ⟨_, memberBreaks_halfEdge⟩⟩

/-- **Not every error of a stored configuration keeps its code.** -/
theorem not_code_of_load : ¬ ∀ (x : Config.Parts) (v : Json), x.SpelledBy v → (∃ e, x.Breaks e) →
    ∃ e y, x.Breaks e ∧ Config.load v = .error y ∧ y.code = e.code := by
  intro hkeeps
  obtain ⟨e, y, -, hload, hcode⟩ :=
    hkeeps halfEdge storedHalfEdge spelledBy_storedHalfEdge ⟨_, .inl memberBreaks_halfEdge⟩
  obtain ⟨e', -, hserialization⟩ :=
    Config.load_of_memberBreaks spelledBy_storedHalfEdge memberBreaks_halfEdge
  obtain rfl := Except.error.inj (hload.symm.trans hserialization)
  exact e.code_ne_serialization hcode.symm

end PatternQuery
