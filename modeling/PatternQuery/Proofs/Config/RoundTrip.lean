import PatternQuery.Config.Execution
import PatternQuery.Proofs.Config.Normal
import PatternQuery.Proofs.Config.Reading
import PatternQuery.Proofs.Config.Stored

/-!
# Configurations are read back as they were written

What is written for a valid configuration, as its stored form or as the body of a request, spells the
parts of the configuration, in whatever order the members come to stand (`Config.spelledBy_members`,
`Config.Parts.orderFree_spelledBy`). The columns of a valid configuration stand in the order of display,
so they are taken in as they are, and the parts make the same configuration again
(`Config.Valid.load_eq`).

Limits and offsets are bounded where they are read, and so is what was read (`Config.inRange_of_load`).
So a configuration that was read can always be written and read again.
-/

namespace PatternQuery

theorem Json.lt_of_toNatBelow {limit n : Nat} {v : Json} (h : v.toNatBelow limit = .ok n) :
    n < limit := by
  cases v with
  | int i =>
    rw [toNatBelow] at h
    split_ifs at h with hrange
    obtain rfl := Except.ok.inj h
    omega
  | _ => exact absurd h (by simp [toNatBelow])

theorem Pagination.inRange_of_ofJson {p : Pagination} {v : Json} (h : ofJson v = .ok p) :
    p.InRange := by
  obtain ⟨d, hd, hp⟩ := bind_eq_ok_iff.mp h
  -- The invariant of the draft: every member that writes a number has read it below its bound.
  have hdraft : (∀ n, d.limit = some n → n < limitBound) ∧ d.offset < offsetBound := by
    refine Json.toRecord_induction (P := fun d : Draft => (∀ n, d.limit = some n → n < limitBound) ∧
      d.offset < offsetBound) ⟨by simp, by decide⟩ (fun d name v d' hd hstep => ?_) hd
    obtain ⟨hlimit, hoffset⟩ := hd
    split at hstep
    · obtain ⟨n, hn, hd'⟩ := bind_eq_ok_iff.mp hstep
      obtain rfl := Except.ok.inj hd'
      refine ⟨fun m hm => ?_, hoffset⟩
      obtain rfl := Option.some.inj hm
      exact Json.lt_of_toNatBelow hn
    · obtain ⟨n, hn, hd'⟩ := bind_eq_ok_iff.mp hstep
      obtain rfl := Except.ok.inj hd'
      exact ⟨hlimit, Json.lt_of_toNatBelow hn⟩
    · obtain ⟨strategy, -, hd'⟩ := bind_eq_ok_iff.mp hstep
      obtain rfl := Except.ok.inj hd'
      exact ⟨hlimit, hoffset⟩
    · obtain rfl := Except.ok.inj hstep
      exact ⟨hlimit, hoffset⟩
  obtain ⟨limit, hlimit, hp⟩ := bind_eq_ok_iff.mp hp
  obtain rfl := Except.ok.inj hp
  refine ⟨?_, hdraft.2⟩
  cases hsome : d.limit with
  | none => exact absurd hlimit (by simp [hsome, Json.required])
  | some n =>
    rw [hsome] at hlimit
    obtain rfl : n = limit := Except.ok.inj hlimit
    exact hdraft.1 n hsome

namespace Config

variable {c : Config} {v : Json}

/-- **A value that spells a valid configuration** is read as this configuration. -/
theorem Valid.load_eq (hc : c.Valid) (hv : c.parts.SpelledBy v) : load v = .ok c := by
  have hcolumns : ColumnSet.ofColumns c.parts.columns = .ok c.columns :=
    hc.columns_ordered.ofColumns_columns
  have hhops : c.pattern.MadeOf c.parts.hops := c.pattern.madeOf_parts
  have hmake : make c.columns c.pattern c.applyRBAC c.pagination = .ok c :=
    make_eq_ok_iff.mpr ⟨rfl, hc.check_eq⟩
  rw [load_of_readRecord (hv.readRecord_eq hcolumns hhops)]
  exact congrArg (Except.mapError QueryError.config) hmake

theorem spelledBy_toJson (hrange : c.pagination.InRange) : c.parts.SpelledBy c.toJson :=
  spelledBy_members hrange List.nodup_nil (by simp)

theorem spelledBy_request (hrange : c.pagination.InRange) (flatten : Bool) :
    c.parts.SpelledBy (QueryRequest.mk c flatten).toJson :=
  spelledBy_members hrange (List.nodup_singleton _) (by simp [Parts.memberNames])

theorem inRange_of_load (h : load v = .ok c) : c.pagination.InRange := by
  cases hr : readRecord v with
  | error e =>
    rw [load_of_error hr] at h
    exact absurd h (by simp)
  | ok r =>
    -- Only the page has a range, and only its own member changes it.
    have hrange : r.pagination.InRange := by
      refine Json.toRecord_induction (P := fun r : Record => r.pagination.InRange)
        ⟨by decide, by decide⟩ (fun r name v r' hr hstep => ?_) hr
      split at hstep
      · obtain ⟨columns, -, hr'⟩ := bind_eq_ok_iff.mp hstep
        obtain rfl := Except.ok.inj hr'
        exact hr
      · obtain ⟨pattern, -, hr'⟩ := bind_eq_ok_iff.mp hstep
        obtain rfl := Except.ok.inj hr'
        exact hr
      · obtain ⟨applyRBAC, -, hr'⟩ := bind_eq_ok_iff.mp hstep
        obtain rfl := Except.ok.inj hr'
        exact hr
      · obtain ⟨pagination, hpagination, hr'⟩ := bind_eq_ok_iff.mp hstep
        obtain rfl := Except.ok.inj hr'
        exact Pagination.inRange_of_ofJson hpagination
      · obtain rfl := Except.ok.inj hstep
        exact hr
    rw [load_of_readRecord hr] at h
    cases hpattern : r.pattern with
    | none =>
      rw [hpattern] at h
      exact absurd h (by simp)
    | some p =>
      rw [hpattern] at h
      obtain ⟨rfl, -⟩ := make_eq_ok_iff.mp (mapError_eq_ok_iff.mp h)
      exact hrange

end Config

/-- **Stored configurations are read back as they were.** Both ways of reading get a valid configuration
back from its stored form and from every request that carries it, with the members of objects in any
order, and they accept the same values. What they accept can be stored and read again. -/
theorem load_toJson (c : Config) (hvalid : c.Valid) (hrange : c.pagination.InRange) (flatten : Bool) :
    (∀ v ∈ [c.toJson, (QueryRequest.mk c flatten).toJson],
      Config.ofJson v = .ok c ∧ Config.load v = .ok c ∧
        Config.ofJson v.sorted = .ok c ∧ Config.load v.sorted = .ok c) ∧
    ∀ (v : Json) (d : Config), (Config.ofJson v = .ok d ↔ Config.load v = .ok d) ∧
      (Config.load v = .ok d → d.Valid ∧ d.pagination.InRange ∧
        Config.load d.toJson = .ok d ∧ Config.load d.toJson.sorted = .ok d) := by
  refine ⟨fun v hv => ?_, fun v d => ⟨Config.ofJson_eq_ok_iff, fun h => ?_⟩⟩
  · have hspelled : c.parts.SpelledBy v := by
      obtain rfl | hv := List.mem_cons.mp hv
      · exact Config.spelledBy_toJson hrange
      · obtain rfl := List.mem_singleton.mp hv
        exact Config.spelledBy_request hrange flatten
    have hload : Config.load v = .ok c := hvalid.load_eq hspelled
    have hsorted : Config.load v.sorted = .ok c :=
      hvalid.load_eq (Config.Parts.orderFree_spelledBy _ _ hspelled)
    exact ⟨Config.ofJson_eq_ok_iff.mpr hload, hload, Config.ofJson_eq_ok_iff.mpr hsorted, hsorted⟩
  · have hd : d.Valid := Config.valid_of_load h
    have hdrange : d.pagination.InRange := Config.inRange_of_load h
    have hspelled : d.parts.SpelledBy d.toJson := Config.spelledBy_toJson hdrange
    exact ⟨hd, hdrange, hd.load_eq hspelled,
      hd.load_eq (Config.Parts.orderFree_spelledBy _ _ hspelled)⟩

/-- Tags and places of grouping come back, and so does that they are not there. -/
theorem load_swappedConfig : swappedConfig.Valid ∧ swappedConfig.pagination.InRange ∧
    Config.ofJson swappedConfig.toJson = .ok swappedConfig ∧
    Config.load (QueryRequest.mk swappedConfig true).toJson.sorted = .ok swappedConfig := by
  have hrange : swappedConfig.pagination.InRange := ⟨by decide, by decide⟩
  obtain ⟨hread, -⟩ := load_toJson swappedConfig valid_swappedConfig hrange true
  obtain ⟨hstored, -⟩ := hread _ List.mem_cons_self
  obtain ⟨-, -, -, hrequest⟩ := hread _ (List.mem_cons_of_mem _ List.mem_cons_self)
  exact ⟨valid_swappedConfig, hrange, hstored, hrequest⟩

end PatternQuery
