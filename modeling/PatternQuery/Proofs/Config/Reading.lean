import PatternQuery.Proofs.Config.Valid

/-!
# The two ways of reading a configuration

`Config.load` and `Config.ofJson` read the same parts and make the same configuration of them. They
differ in what they say when one cannot be made: `load` keeps the error of the configuration
(`load_of_readRecord`), and `ofJson` keeps only its text (`ofJson_of_readRecord`). So they accept the
same values (`ofJson_eq_ok_iff`). What goes wrong before the parts are read is no error of a
configuration for either (`load_of_error`, `ofJson_of_error`).
-/

namespace PatternQuery.Config

variable {v : Json} {c : Config} {r : Record} {e : DecodeError}

theorem load_of_error (h : readRecord v = .error e) : load v = .error (.serialization e) := by
  unfold load
  rw [h]
  rfl

theorem load_of_readRecord (h : readRecord v = .ok r) : load v =
    match r.pattern with
    | none => .error (.serialization .malformed)
    | some p => (make r.columns p r.applyRBAC r.pagination).mapError .config := by
  unfold load
  rw [h]
  cases hpattern : r.pattern with
  | none => simp [hpattern, Json.required, bind, Except.bind]; rfl
  | some p =>
    cases hmake : make r.columns p r.applyRBAC r.pagination with
    | error e => simp [hpattern, hmake, Json.required, bind, Except.bind, pure, Except.pure]; rfl
    | ok c => simp [hpattern, hmake, Json.required, bind, Except.bind, pure, Except.pure]; rfl

theorem ofJson_of_error (h : readRecord v = .error e) : ofJson v = .error e := by
  unfold ofJson
  rw [h]
  rfl

theorem ofJson_of_readRecord (h : readRecord v = .ok r) : ofJson v =
    match r.pattern with
    | none => .error .malformed
    | some p => (make r.columns p r.applyRBAC r.pagination).mapError fun e => .refused e.message := by
  unfold ofJson
  rw [h]
  cases hpattern : r.pattern with
  | none => simp [hpattern, Json.required, bind, Except.bind]
  | some p =>
    cases hmake : make r.columns p r.applyRBAC r.pagination with
    | error e => simp [hpattern, hmake, Json.required, bind, Except.bind]; rfl
    | ok c => simp [hpattern, hmake, Json.required, bind, Except.bind]; rfl

/-- **Both ways of reading accept the same values,** and read the same configuration out of them. -/
theorem ofJson_eq_ok_iff : ofJson v = .ok c ↔ load v = .ok c := by
  cases hr : readRecord v with
  | error e =>
    rw [ofJson_of_error hr, load_of_error hr]
    simp
  | ok r =>
    rw [ofJson_of_readRecord hr, load_of_readRecord hr]
    cases r.pattern with
    | none => simp
    | some p => exact mapError_eq_ok_iff.trans mapError_eq_ok_iff.symm

end PatternQuery.Config
