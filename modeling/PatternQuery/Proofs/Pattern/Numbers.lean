import Mathlib.Order.Bounds.Defs
import PatternQuery.Proofs.Pattern.Naming

/-!
# The numbers of tags

What the naming of a walk is meant to do has no bound on its tries: a repeated schema has a counter,
which goes up with every try, and a number is tried until its tag is free (`Searches`). Every entry in
the log of the walk (`Entry`) holds the numbers that were tried for a node, so what has been tried and
what is taken before a node can be read off the log.

The main statement is `numbers_ofSchemas`: every search ends, and the number that is given is the least
one that has not been tried for the schema and whose tag is free. It has a step, `searches_freeNumber`,
where the bound on the tries turns out to be enough, and a run, `exists_log`, in which the counter of a
schema and the numbers in the log tell the same story (`tried_eq_range'`).
-/

namespace PatternQuery.Naming

variable {taken taken' : List String} {schema : String} {start number : Nat} {tries : List Nat}

/-! ### One search -/

/-- **The search for a free tag,** without a bound: `tries` are the numbers that are tried from `start`
on, all of them with a tag that is taken, but for the last one, which is the `number` that is found. -/
inductive Searches (taken : List String) (schema : String) : Nat → List Nat → Nat → Prop
  | found {number : Nat} : tag schema number ∉ taken → Searches taken schema number [number] number
  | next {start number : Nat} {tries : List Nat} : tag schema start ∈ taken →
    Searches taken schema (start + 1) tries number →
      Searches taken schema start (start :: tries) number

namespace Searches

theorem not_mem (h : Searches taken schema start tries number) : tag schema number ∉ taken := by
  induction h with
  | found hfree => exact hfree
  | next _ _ ih => exact ih

theorem le (h : Searches taken schema start tries number) : start ≤ number := by
  induction h with
  | found => exact Nat.le_refl _
  | next _ _ ih => omega

theorem length_tries (h : Searches taken schema start tries number) :
    start + tries.length = number + 1 := by
  induction h with
  | found => rfl
  | next _ _ ih =>
    rw [List.length_cons]
    omega

/-- The numbers are tried one after another. -/
theorem tries_eq (h : Searches taken schema start tries number) :
    tries = List.range' start tries.length := by
  induction h with
  | found => rfl
  | next _ _ ih => rw [List.length_cons, List.range'_succ, ← ih]

theorem mem_of_lt (h : Searches taken schema start tries number) {k : Nat} (hk : start ≤ k)
    (hlt : k < number) : tag schema k ∈ taken := by
  induction h with
  | found => omega
  | next htaken _ ih =>
    rcases Nat.eq_or_lt_of_le hk with rfl | hk
    · exact htaken
    · exact ih hk hlt

/-- Only what is taken counts, and not in which order. -/
theorem congr (h : Searches taken schema start tries number) (heq : ∀ t, t ∈ taken ↔ t ∈ taken') :
    Searches taken' schema start tries number := by
  induction h with
  | found hfree => exact .found (mt (heq _).mpr hfree)
  | next htaken _ ih => exact .next ((heq _).mp htaken) ih

end Searches

/-- **Every search ends:** one try more than there are taken keys is enough. -/
theorem searches_freeNumber {fuel : Nat} (hfuel : taken.length < fuel) : ∃ tries,
    Searches taken schema start tries (freeNumber taken schema fuel start) := by
  have hfree : tag schema (freeNumber taken schema fuel start) ∉ taken := tag_freeNumber_not_mem hfuel
  clear hfuel
  induction fuel generalizing start with
  | zero => exact ⟨[start], .found hfree⟩
  | succ fuel ih =>
    unfold freeNumber at hfree ⊢
    split_ifs at hfree ⊢ with hmem
    · obtain ⟨tries, htries⟩ := ih hfree
      exact ⟨start :: tries, .next (List.contains_iff_mem.mp hmem) htries⟩
    · exact ⟨[start], .found hfree⟩

/-! ### The log of a walk -/

/-- What is noted of a node of the walk. -/
structure Entry where
  occurrence : Occurrence
  /-- The numbers that were tried for its tag. -/
  tries : List Nat
  deriving Repr, DecidableEq

/-- The keys that are taken after a part of the walk: the ids of the schemas that occur once, and the
tags that were given. -/
def takenAfter (schemas : List String) (past : List Entry) : List String :=
  (schemas.filter fun s => schemas.count s == 1) ++ past.filterMap (·.occurrence.tag)

/-- The numbers that were tried for a schema. -/
def tried (past : List Entry) (schema : String) : List Nat :=
  (past.filter (·.occurrence.schema == schema)).flatMap (·.tries)

/-- The counter of a schema, which starts at one and goes up with every try. -/
def counter (past : List Entry) (schema : String) : Nat := (tried past schema).length + 1

/-- **A node is entered in the log** behind those that came before it: without a tag if its schema
occurs once, and otherwise with the tag that is found. -/
inductive Entered (schemas : List String) (past : List Entry) : Entry → Prop
  | once {schema : String} : schemas.count schema = 1 → Entered schemas past ⟨⟨schema, none⟩, []⟩
  | repeated {schema : String} {tries : List Nat} {number : Nat} : schemas.count schema ≠ 1 →
    Searches (takenAfter schemas past) schema (counter past schema) tries number →
      Entered schemas past ⟨⟨schema, some (tag schema number)⟩, tries⟩

/-- **The log of a walk:** its entries are made one behind the other. -/
inductive IsLog (schemas : List String) : List Entry → Prop
  | nil : IsLog schemas []
  | concat {past : List Entry} {entry : Entry} : IsLog schemas past → Entered schemas past entry →
    IsLog schemas (past ++ [entry])

variable {schemas rest : List String} {past log : List Entry} {entry : Entry}

theorem IsLog.entered (h : IsLog schemas log) {after : List Entry}
    (hsplit : log = past ++ entry :: after) : IsLog schemas past ∧ Entered schemas past entry := by
  induction h generalizing after with
  | nil => exact absurd hsplit (by simp)
  | @concat before last hbefore hlast ih =>
    rcases List.eq_nil_or_concat' after with rfl | ⟨after, last', rfl⟩
    · obtain ⟨rfl, heq⟩ := List.append_inj' hsplit rfl
      obtain rfl := List.singleton_inj.mp heq
      exact ⟨hbefore, hlast⟩
    · rw [← List.cons_append, ← List.append_assoc] at hsplit
      exact ih (List.append_inj' hsplit rfl).1

theorem tried_concat (past : List Entry) (entry : Entry) (schema : String) :
    tried (past ++ [entry]) schema =
      tried past schema ++ if entry.occurrence.schema = schema then entry.tries else [] := by
  unfold tried
  rw [List.filter_append, List.flatMap_append]
  by_cases h : entry.occurrence.schema = schema
  · simp [h]
  · simp [h]

theorem mem_takenAfter_concat {t : String} : t ∈ takenAfter schemas (past ++ [entry]) ↔
    t ∈ takenAfter schemas past ∨ entry.occurrence.tag = some t := by
  simp [takenAfter, or_assoc]

/-- The tries of one entry go on where those before it ended. -/
theorem Searches.tried_append (h : Searches taken schema (counter past schema) tries number) :
    (tried past schema ++ tries).length = number := by
  have hlength := h.length_tries
  rw [counter] at hlength
  rw [List.length_append]
  omega

/-- **The numbers that were tried for a schema** are those below its counter. -/
theorem IsLog.tried_eq_range' (h : IsLog schemas log) (schema : String) :
    tried log schema = List.range' 1 (tried log schema).length := by
  induction h with
  | nil => rfl
  | @concat past entry _ hentry ih =>
    rw [tried_concat]
    split_ifs with heq
    · cases hentry with
      | once => simpa using ih
      | @repeated _ tries number _ hsearch =>
        obtain rfl := heq
        calc tried past _ ++ tries
            = List.range' 1 (tried past _).length ++
                List.range' (1 + (tried past _).length) tries.length := by
              rw [← ih, Nat.add_comm 1, ← counter, ← hsearch.tries_eq]
          _ = _ := by rw [List.range'_append_1, List.length_append]
    · simpa using ih

/-! ### The run -/

/-- **The names of a walk have a log.** -/
theorem exists_log_nameFrom {repeated : String → Bool} {next : List (String × Nat)}
    (hrepeated : ∀ s, repeated s = true ↔ schemas.count s ≠ 1) (hpast : IsLog schemas past)
    (htaken : ∀ t, t ∈ taken ↔ t ∈ takenAfter schemas past)
    (hnext : ∀ s, (next.lookup s).getD 1 = counter past s) :
    ∃ log, IsLog schemas (past ++ log) ∧
      log.map (·.occurrence) = nameFrom repeated taken next rest := by
  induction rest generalizing past taken next with
  | nil => exact ⟨[], by rwa [List.append_nil], rfl⟩
  | cons schema rest ih =>
    unfold nameFrom
    split_ifs with hr
    · set number := freeNumber taken schema (taken.length + 1) ((next.lookup schema).getD 1)
      obtain ⟨tries, hsearch⟩ : ∃ tries,
          Searches taken schema ((next.lookup schema).getD 1) tries number :=
        searches_freeNumber (Nat.lt_succ_self _)
      rw [hnext] at hsearch
      have hsearch := hsearch.congr htaken
      have hentered := Entered.repeated ((hrepeated schema).mp hr) hsearch
      have htaken' (t : String) : t ∈ tag schema number :: taken ↔ t ∈ takenAfter schemas
          (past ++ [⟨⟨schema, some (tag schema number)⟩, tries⟩]) := by
        rw [mem_takenAfter_concat, List.mem_cons, htaken, or_comm, Option.some_inj, eq_comm]
      have hnext' (s : String) : (((schema, number + 1) :: next).lookup s).getD 1 =
          counter (past ++ [⟨⟨schema, some (tag schema number)⟩, tries⟩]) s := by
        rw [counter, tried_concat, List.lookup_cons]
        by_cases hs : s = schema
        · subst hs
          rw [if_pos rfl, hsearch.tried_append, beq_self_eq_true]
          rfl
        · rw [beq_false_of_ne hs, if_neg (Ne.symm hs), List.append_nil]
          exact hnext s
      obtain ⟨log, hlog, hmap⟩ := ih (hpast.concat hentered) htaken' hnext'
      rw [List.append_assoc] at hlog
      exact ⟨_, hlog, congrArg _ hmap⟩
    · have hone : schemas.count schema = 1 := by
        rw [hrepeated] at hr
        omega
      have htaken' (t : String) : t ∈ taken ↔
          t ∈ takenAfter schemas (past ++ [⟨⟨schema, none⟩, []⟩]) := by
        simp [mem_takenAfter_concat, htaken]
      have hnext' (s : String) : (next.lookup s).getD 1 =
          counter (past ++ [⟨⟨schema, none⟩, []⟩]) s := by
        simp [counter, tried_concat, hnext]
      obtain ⟨log, hlog, hmap⟩ := ih (hpast.concat (.once hone)) htaken' hnext'
      rw [List.append_assoc] at hlog
      exact ⟨_, hlog, congrArg _ hmap⟩

theorem exists_log (schemas : List String) :
    ∃ log, IsLog schemas log ∧ log.map (·.occurrence) = ofSchemas schemas := by
  refine exists_log_nameFrom (fun s => bne_iff_ne) IsLog.nil (fun t => ?_) fun s => rfl
  rw [takenAfter, List.filterMap_nil, List.append_nil]

/-- **What a log says of the numbering.** -/
structure Numbers (schemas : List String) (log : List Entry) : Prop where
  /-- The nodes are those of the walk, each once. -/
  schemas_eq : log.map (·.occurrence.schema) = schemas
  nodup_keys : (log.map (·.occurrence.key)).Nodup
  /-- A schema that occurs once needs no tag. -/
  tag_of_once : ∀ past entry after, log = past ++ entry :: after →
    schemas.count entry.occurrence.schema = 1 → entry.occurrence.tag = none ∧ entry.tries = []
  /-- The search for the tag of a repeated schema ends, at the least number behind all that were tried
  for the schema whose tag is not taken. -/
  tag_of_repeated : ∀ past entry after, log = past ++ entry :: after →
    schemas.count entry.occurrence.schema ≠ 1 → ∃ number,
      entry.occurrence.tag = some (tag entry.occurrence.schema number) ∧
      Searches (takenAfter schemas past) entry.occurrence.schema
        (counter past entry.occurrence.schema) entry.tries number ∧
      IsLeast {n | 1 ≤ n ∧ (∀ k ∈ tried past entry.occurrence.schema, k < n) ∧
        tag entry.occurrence.schema n ∉ takenAfter schemas past} number

theorem IsLog.isLeast (hpast : IsLog schemas past)
    (h : Searches (takenAfter schemas past) schema (counter past schema) tries number) :
    IsLeast {n | 1 ≤ n ∧ (∀ k ∈ tried past schema, k < n) ∧
      tag schema n ∉ takenAfter schemas past} number := by
  have hle := h.le
  have hmem (k : Nat) : k ∈ tried past schema ↔ 1 ≤ k ∧ k < counter past schema := by
    rw [hpast.tried_eq_range', List.mem_range'_1, counter, Nat.add_comm 1]
  refine ⟨⟨?_, fun k hk => ?_, h.not_mem⟩, fun n hn => ?_⟩
  · rw [counter] at hle
    omega
  · exact Nat.lt_of_lt_of_le ((hmem k).mp hk).2 hle
  · obtain ⟨hone, htried, hfree⟩ := hn
    -- A number below the counter has been tried, and one between the counter and the number is taken.
    by_contra hlt
    refine hfree (h.mem_of_lt ?_ (by omega))
    by_contra hbelow
    exact absurd (htried n ((hmem n).mpr ⟨hone, by omega⟩)) (by omega)

/-- **The naming of a walk ends, and numbers its nodes minimally.** -/
theorem numbers_ofSchemas (schemas : List String) :
    ∃ log : List Entry, log.map (·.occurrence) = ofSchemas schemas ∧ Numbers schemas log := by
  obtain ⟨log, hlog, hmap⟩ := exists_log schemas
  refine ⟨log, hmap, ?_, ?_, ?_, ?_⟩
  · rw [← map_schema_ofSchemas schemas, ← hmap, List.map_map]
    rfl
  · have := nodup_keys_ofSchemas schemas
    rwa [← hmap, List.map_map] at this
  · intro past entry after hsplit hone
    obtain ⟨-, hentered⟩ := hlog.entered hsplit
    cases hentered with
    | once => exact ⟨rfl, rfl⟩
    | repeated hne => exact absurd hone hne
  · intro past entry after hsplit hne
    obtain ⟨hpast, hentered⟩ := hlog.entered hsplit
    cases hentered with
    | once hone => exact absurd hone hne
    | @repeated _ _ number _ hsearch => exact ⟨number, rfl, hsearch, hpast.isLeast hsearch⟩

/-- The number two is tried for the second `Tag`, and passed over for the third one. -/
example : ofSchemas ["Tag", "Tag", "Tag#2", "Tag"] = [⟨"Tag", some "Tag"⟩, ⟨"Tag", some "Tag#3"⟩,
    ⟨"Tag#2", none⟩, ⟨"Tag", some "Tag#4"⟩] := by decide

end PatternQuery.Naming
