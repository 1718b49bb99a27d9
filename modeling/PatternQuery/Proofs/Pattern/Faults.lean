import PatternQuery.Proofs.Pattern.Introduction

/-!
# What is wrong with a list of hops

`PatternError.Holds` says what an error means of the hops alone: which hop it points at, and which rule
that hop breaks. The error of `Pattern.check` holds (`Pattern.holds_of_check`), because the placements
that the check looks at carry the keys and schemas of the hops before (`Pattern.Places`); and of a list
that passes the check no error holds (`Pattern.not_holds_of_check`), because such a list is in order.

The hop that an error points at is the first that breaks a rule (`Pattern.linked_take_of_check`): what
stands before it is linked, and with it the list is no longer linked. So the check decides whether a list
is a rooted tree in the order of introduction, and where it stops being one
(`Pattern.check_decides_inOrder`).
-/

namespace PatternQuery

/-- **What an error says of a list of hops.** An incomplete edge is no matter of hops, but of the
records from which they are read. -/
def PatternError.Holds (p : Pattern) : PatternError → Prop
  | missingRoot => ∀ hop ∈ p, hop.isRoot = false
  | multipleRoots count => count = p.countP Hop.isRoot ∧ 2 ≤ count
  | incompleteEdge _ => False
  | blankRelation i => ∃ source relation target optional,
      p[i]? = some (.edge source relation target optional) ∧ Text.isBlank relation = true
  | unknownSource i key => ∃ source relation target optional,
      p[i]? = some (.edge source relation target optional) ∧ source.key = key ∧
        key ∉ Pattern.keys (p.take i)
  | duplicateOccurrence i key => ∃ hop, p[i]? = some hop ∧ hop.introduces.key = key ∧
      key ∈ Pattern.keys (p.take i)
  | schemaMismatch i key expected found => ∃ source relation target optional,
      p[i]? = some (.edge source relation target optional) ∧ source.key = key ∧
        source.schema = found ∧ expected ≠ found ∧
        ∃ hop ∈ p.take i, hop.introduces.key = key ∧ hop.introduces.schema = expected

/-- The position of the hop that an error points at. The number of root hops is a matter of the whole
list. -/
def PatternError.hop? : PatternError → Option Nat
  | missingRoot | multipleRoots _ | incompleteEdge _ => none
  | blankRelation i | unknownSource i _ | duplicateOccurrence i _ | schemaMismatch i .. => some i

namespace Pattern

variable {p earlier rest : Pattern} {placed : List Placement} {hop : Hop} {q : Placement}
  {e : PatternError} {i : Nat}

/-! ### The error of the check -/

theorem Places.introducer?_eq_none_iff (h : Places p placed) {key : String} :
    introducer? placed key = none ↔ key ∉ keys p := by
  rw [Pattern.introducer?_eq_none_iff, h.keys_eq]

theorem Places.exists_hop_of_introducer? (h : Places p placed) {key : String} {i : Nat}
    (hi : introducer? placed key = some (q, i)) :
    ∃ hop ∈ p, hop.introduces.key = key ∧ hop.introduces.schema = q.occurrence.schema := by
  obtain ⟨hget, hkey⟩ := getElem?_of_introducer? hi
  have hmem : q.occurrence ∈ p.map Hop.introduces :=
    h.occurrences_eq ▸ List.mem_map_of_mem (List.mem_of_getElem? hget)
  obtain ⟨hop, hhop, hintro⟩ := List.mem_map.mp hmem
  exact ⟨hop, hhop, by rw [hintro, hkey], by rw [hintro]⟩

theorem holds_of_checkRoots (h : checkRoots p = .error e) : e.Holds p := by
  unfold checkRoots at h
  split at h
  · next hcount =>
    obtain rfl := Except.error.inj h
    intro hop hhop
    simpa using List.countP_eq_zero.mp hcount hop hhop
  · exact absurd h (by simp)
  · next hzero hone =>
    obtain rfl := Except.error.inj h
    refine ⟨rfl, ?_⟩
    have h0 : p.countP Hop.isRoot ≠ 0 := hzero
    have h1 : p.countP Hop.isRoot ≠ 1 := hone
    omega

/-- Why an edge hop cannot be placed, apart from the key of its target. -/
theorem placeEdge_eq_error_cases {source target : Occurrence} {relation : String} {optional : Bool}
    (h : placeEdge placed source relation target optional = .error e) :
    (Text.isBlank relation = true ∧ e = .blankRelation placed.length) ∨
      (introducer? placed source.key = none ∧ e = .unknownSource placed.length source.key) ∨
      ∃ found position, introducer? placed source.key = some (found, position) ∧
        found.occurrence.schema ≠ source.schema ∧
        e = .schemaMismatch placed.length source.key found.occurrence.schema source.schema := by
  unfold placeEdge at h
  split_ifs at h with hblank
  · exact .inl ⟨hblank, (Except.error.inj h).symm⟩
  · split at h
    · next hnone => exact .inr (.inl ⟨hnone, (Except.error.inj h).symm⟩)
    · next found position hfound =>
      split_ifs at h with hschema
      exact .inr (.inr ⟨found, position, hfound, hschema, (Except.error.inj h).symm⟩)

/-- Why a hop cannot be placed. A key that is there already is the last thing that is tested, for root
hops and edge hops alike. -/
theorem placeHop_eq_error_cases (h : placeHop placed hop = .error e) :
    (∃ source relation target optional, hop = .edge source relation target optional ∧
        placeEdge placed source relation target optional = .error e) ∨
      ∃ found, introducer? placed hop.introduces.key = some found ∧
        e = .duplicateOccurrence placed.length hop.introduces.key := by
  cases hop with
  | root o =>
    rcases bind_eq_error_iff.mp h with h | ⟨q, hq, h⟩
    · exact absurd h (by simp)
    · obtain rfl := Except.ok.inj hq
      dsimp only at h
      split at h
      · next found hfound => exact .inr ⟨found, hfound, (Except.error.inj h).symm⟩
      · exact absurd h (by simp)
  | edge source relation target optional =>
    rcases bind_eq_error_iff.mp h with h | ⟨q, hq, h⟩
    · exact .inl ⟨source, relation, target, optional, rfl, h⟩
    · obtain ⟨-, found, position, -, -, rfl⟩ := placeEdge_eq_ok_iff.mp hq
      dsimp only at h
      split at h
      · next found hfound => exact .inr ⟨found, hfound, (Except.error.inj h).symm⟩
      · exact absurd h (by simp)

/-- **One step:** the error of a hop that cannot be placed holds of the list in which it stands. -/
theorem Places.holds_of_placeHop (h : Places earlier placed) (he : placeHop placed hop = .error e) :
    e.Holds (earlier ++ hop :: rest) := by
  have hat : (earlier ++ hop :: rest)[placed.length]? = some hop := by
    rw [h.length_eq, List.getElem?_append_right le_rfl, Nat.sub_self, List.getElem?_cons_zero]
  have htake : (earlier ++ hop :: rest).take placed.length = earlier := by
    rw [h.length_eq, List.take_left]
  obtain ⟨source, relation, target, optional, rfl, hedge⟩ | ⟨found, hfound, rfl⟩ :=
    placeHop_eq_error_cases he
  · obtain ⟨hblank, rfl⟩ | ⟨hnone, rfl⟩ | ⟨found, position, hfound, hschema, rfl⟩ :=
      placeEdge_eq_error_cases hedge
    · exact ⟨source, relation, target, optional, hat, hblank⟩
    · refine ⟨source, relation, target, optional, hat, rfl, ?_⟩
      rw [htake]
      exact h.introducer?_eq_none_iff.mp hnone
    · refine ⟨source, relation, target, optional, hat, rfl, rfl, hschema, ?_⟩
      rw [htake]
      exact h.exists_hop_of_introducer? hfound
  · have hmem : hop.introduces.key ∈ keys earlier := by
      by_contra hnot
      rw [h.introducer?_eq_none_iff.mpr hnot] at hfound
      exact absurd hfound (by simp)
    exact ⟨hop, hat, rfl, htake.symm ▸ hmem⟩

/-- **A run:** so does the error of a list of hops, the first of which that cannot be placed has it. -/
theorem Places.holds_of_placeAll (h : Places earlier placed) (he : placeAll placed rest = .error e) :
    e.Holds (earlier ++ rest) := by
  induction rest generalizing earlier placed with
  | nil => exact absurd he (by simp [placeAll])
  | cons hop rest ih =>
    obtain he | ⟨q, hq, he⟩ := bind_eq_error_iff.mp he
    · exact h.holds_of_placeHop he
    · have hrest := ih (h.concat hq) he
      rwa [List.append_assoc] at hrest

/-- The error of a hop points at it. -/
theorem hop?_of_placeHop (he : placeHop placed hop = .error e) : e.hop? = some placed.length := by
  obtain ⟨source, relation, target, optional, rfl, hedge⟩ | ⟨found, hfound, rfl⟩ :=
    placeHop_eq_error_cases he
  · obtain ⟨-, rfl⟩ | ⟨-, rfl⟩ | ⟨found, position, -, -, rfl⟩ := placeEdge_eq_error_cases hedge
    all_goals rfl
  · rfl

theorem holds_of_check (h : check p = .error e) : e.Holds p := by
  obtain h | ⟨_, -, h⟩ := bind_eq_error_iff.mp h
  · obtain h | ⟨-, h⟩ := check_bind_eq_error_iff.mp h
    · exact holds_of_checkRoots h
    · exact places_nil.holds_of_placeAll h
  · exact absurd h (by simp [pure, Except.pure])

/-! ### Lists that pass the check -/

/-- The list is put together of what stands before a hop, the hop, and what stands behind it. -/
theorem eq_take_append_of_getElem? {i : Nat} (h : p[i]? = some hop) :
    p = p.take i ++ hop :: p.drop (i + 1) := by
  obtain ⟨hi, rfl⟩ := List.getElem?_eq_some_iff.mp h
  rw [List.getElem_cons_drop, List.take_append_drop]

/-- Where hops are linked, there is no hop for an error to point at. -/
theorem Linked.not_holds (h : Linked p) (hi : e.hop? = some i) : ¬ e.Holds p := by
  cases e with
  | missingRoot | multipleRoots | incompleteEdge => exact absurd hi (by simp [PatternError.hop?])
  | blankRelation i =>
    rintro ⟨source, relation, target, optional, hat, hblank⟩
    have hnamed := h.relation_named _ _ _ _ (List.mem_of_getElem? hat)
    exact absurd (hnamed.symm.trans hblank) (by decide)
  | unknownSource i key =>
    rintro ⟨source, relation, target, optional, hat, rfl, hnot⟩
    have hsource := h.source_introduced _ _ _ _ _ _ (eq_take_append_of_getElem? hat)
    exact hnot hsource.key_mem
  | duplicateOccurrence i key =>
    rintro ⟨hop, hat, rfl, hmem⟩
    have hnodup := h.nodup_keys
    rw [eq_take_append_of_getElem? hat, keys_append, List.nodup_append] at hnodup
    exact hnodup.2.2 _ hmem _ List.mem_cons_self rfl
  | schemaMismatch i key expected found =>
    rintro ⟨source, relation, target, optional, hat, rfl, rfl, hne, hop, hhop, hkey, hschema⟩
    obtain ⟨hop', hhop', hkey', hschema'⟩ :=
      h.source_introduced _ _ _ _ _ _ (eq_take_append_of_getElem? hat)
    -- The key belongs to one hop only, so both schemas are the schema of that hop.
    have hsame : hop = hop' := List.inj_on_of_nodup_map h.nodup_keys (List.mem_of_mem_take hhop)
      (List.mem_of_mem_take hhop') (hkey.trans hkey'.symm)
    exact hne (by rw [← hschema, hsame, hschema'])

theorem InOrder.not_holds (h : InOrder p) : ¬ e.Holds p := by
  obtain ⟨o, rest, hp, hrest⟩ := h.root_first
  cases e with
  | missingRoot =>
    intro hnone
    have := hnone (.root o) (hp ▸ List.mem_cons_self)
    exact absurd this (by simp [Hop.isRoot])
  | multipleRoots count =>
    rintro ⟨rfl, hcount⟩
    have hzero : rest.countP Hop.isRoot = 0 :=
      List.countP_eq_zero.mpr fun hop hhop => by simp [hrest hop hhop]
    rw [hp, List.countP_cons_of_pos rfl, hzero] at hcount
    omega
  | incompleteEdge missing => exact id
  | blankRelation | unknownSource | duplicateOccurrence | schemaMismatch =>
    exact h.toLinked.not_holds rfl

/-! ### The first hop that breaks a rule -/

theorem hop?_of_checkRoots (h : checkRoots p = .error e) : e.hop? = none := by
  unfold checkRoots at h
  split at h
  · obtain rfl := Except.error.inj h
    rfl
  · exact absurd h (by simp)
  · obtain rfl := Except.error.inj h
    rfl

/-- **A run:** the hops before the one at which placing stops are linked, and with it they are not. -/
theorem Places.linked_take_of_placeAll (h : Places earlier placed)
    (he : placeAll placed rest = .error e) (hi : e.hop? = some i) :
    Linked ((earlier ++ rest).take i) ∧ ¬ Linked ((earlier ++ rest).take (i + 1)) := by
  induction rest generalizing earlier placed with
  | nil => exact absurd he (by simp [placeAll])
  | cons hop rest ih =>
    obtain he | ⟨q, hq, he⟩ := bind_eq_error_iff.mp he
    · obtain rfl : earlier.length = i :=
        h.length_eq ▸ Option.some.inj ((hop?_of_placeHop he).symm.trans hi)
      have htake : (earlier ++ hop :: rest).take (earlier.length + 1) = earlier ++ [hop] := by
        rw [List.take_length_add_append, List.take_succ_cons, List.take_zero]
      rw [List.take_left, htake]
      exact ⟨h.toLinked, fun hlinked => hlinked.not_holds hi (h.holds_of_placeHop he)⟩
    · have hrest := ih (h.concat hq) he
      rwa [List.append_assoc] at hrest

theorem linked_take_of_check (h : check p = .error e) (hi : e.hop? = some i) :
    Linked (p.take i) ∧ ¬ Linked (p.take (i + 1)) := by
  obtain h | ⟨_, -, h⟩ := bind_eq_error_iff.mp h
  · obtain h | ⟨-, h⟩ := check_bind_eq_error_iff.mp h
    · exact absurd ((hop?_of_checkRoots h).symm.trans hi) (by simp)
    · exact places_nil.linked_take_of_placeAll h hi
  · exact absurd h (by simp [pure, Except.pure])

/-! ### What the check decides -/

theorem not_holds_of_check (h : check p = .ok ()) : ¬ e.Holds p := by
  obtain ⟨placed, hplace⟩ := exists_place_of_check h
  exact (inOrder_of_place hplace).not_holds

theorem check_eq_ok_iff_not_holds : check p = .ok () ↔ ∀ e : PatternError, ¬ e.Holds p := by
  refine ⟨fun h e => not_holds_of_check h, fun h => ?_⟩
  cases hcheck : check p with
  | ok u => rfl
  | error e => exact absurd (holds_of_check hcheck) (h e)

theorem check_eq_ok_iff_inOrder : check p = .ok () ↔ InOrder p := by
  constructor
  · intro h
    obtain ⟨placed, hplace⟩ := exists_place_of_check h
    exact inOrder_of_place hplace
  · exact fun h => check_eq_ok_iff_not_holds.mpr fun e => h.not_holds

/-- **The check accepts the rooted trees in the order of introduction, and nothing else.** When it
fails, the error says something true of the list, and the hop it points at is the first at which the
hops are no longer linked. -/
theorem check_decides_inOrder (p : Pattern) :
    (p.check = .ok () ↔ p.InOrder) ∧
      ∀ e, p.check = .error e → e.Holds p ∧
        ∀ i, e.hop? = some i → Linked (p.take i) ∧ ¬ Linked (p.take (i + 1)) :=
  ⟨check_eq_ok_iff_inOrder,
    fun _ he => ⟨holds_of_check he, fun _ hi => linked_take_of_check he hi⟩⟩

/-- A key that is introduced under one schema and used under another, in front of a hop without a
relation. -/
def mismatchedSource : Pattern :=
  [.root ⟨"Person", some "boss"⟩,
    .edge ⟨"Person", some "boss"⟩ "owns" ⟨"Car", none⟩ false,
    .edge ⟨"Company", some "boss"⟩ "hires" ⟨"Person", none⟩ true,
    .edge ⟨"Car", none⟩ " " ⟨"Wheel", none⟩ false]

/-- The third hop is named, and the two before it are linked. -/
theorem check_decides_mismatchedSource :
    mismatchedSource.check = .error (.schemaMismatch 2 "boss" "Person" "Company") ∧
      ¬ mismatchedSource.InOrder ∧
      (PatternError.schemaMismatch 2 "boss" "Person" "Company").Holds mismatchedSource ∧
      Linked (mismatchedSource.take 2) ∧ ¬ Linked (mismatchedSource.take 3) := by
  have herror : mismatchedSource.check = .error (.schemaMismatch 2 "boss" "Person" "Company") := by
    cbv
  obtain ⟨hiff, hfail⟩ := check_decides_inOrder mismatchedSource
  obtain ⟨hholds, hfirst⟩ := hfail _ herror
  refine ⟨herror, fun hp => ?_, hholds, hfirst 2 rfl⟩
  exact absurd (herror.symm.trans (hiff.mpr hp)) (by simp)

end Pattern

end PatternQuery
