import Mathlib.Data.List.Nodup
import PatternQuery.Pattern.Placement
import PatternQuery.Proofs.Graph.Checks

/-!
# Patterns in the order of introduction

`Pattern.InOrder` says in words of the hops alone what a pattern is: a root hop, then edge hops that
start from what an earlier hop introduced, and no key introduced twice. Every list that can be placed
is in order (`inOrder_of_place`).

What the placing adds are positions. `Pattern.Places` is the invariant that carries both: one hop
more keeps it (`Places.concat`), and so does a whole list (`Places.append`). Once the keys are known
to be different, the position of a source is where its key stands among the keys, so the edges that
lead to the placements are read off the hops (`Hop.incoming?`).
-/

namespace PatternQuery

/-- The keys of the occurrences that the hops introduce, in order. -/
def Pattern.keys (p : Pattern) : List String := p.map (·.introduces.key)

/-- The edge that leads to what a hop introduces, in a pattern with the given keys. -/
def Hop.incoming? (keys : List String) : Hop → Option Incoming
  | .root _ => none
  | .edge source relation _ optional => some ⟨keys.idxOf source.key, relation, optional⟩

namespace Pattern

variable {p earlier rest : Pattern} {placed placed' : List Placement} {hop : Hop} {q : Placement}

/-- The occurrence from which an edge hop starts is introduced by an earlier hop. -/
def Introduced (earlier : Pattern) (o : Occurrence) : Prop :=
  ∃ hop ∈ earlier, hop.introduces.key = o.key ∧ hop.introduces.schema = o.schema

/-- Edge hops follow relations that are not blank from what was introduced before, and no key is
introduced twice. -/
structure Linked (p : Pattern) : Prop where
  nodup_keys : (keys p).Nodup
  relation_named : ∀ source relation target optional,
    Hop.edge source relation target optional ∈ p → Text.isBlank relation = false
  source_introduced : ∀ earlier source relation target optional later,
    p = earlier ++ .edge source relation target optional :: later → Introduced earlier source

/-- **A rooted tree in the order of introduction:** hops that are linked, the first of them the only
root hop. -/
structure InOrder (p : Pattern) : Prop extends Linked p where
  root_first : ∃ o rest, p = .root o :: rest ∧ ∀ hop ∈ rest, hop.isRoot = false

theorem keys_append (p p' : Pattern) : keys (p ++ p') = keys p ++ keys p' := List.map_append

theorem keys_concat (p : Pattern) (hop : Hop) : keys (p ++ [hop]) = keys p ++ [hop.introduces.key] :=
  keys_append p [hop]

theorem Introduced.key_mem {o : Occurrence} (h : Introduced earlier o) : o.key ∈ keys earlier := by
  obtain ⟨hop, hmem, hkey, -⟩ := h
  exact hkey ▸ List.mem_map_of_mem (f := (·.introduces.key)) hmem

theorem Linked.source_key_mem (h : Linked p) {source target : Occurrence} {relation : String}
    {optional : Bool} (hmem : Hop.edge source relation target optional ∈ p) :
    source.key ∈ keys p := by
  obtain ⟨earlier, later, rfl⟩ := List.append_of_mem hmem
  rw [keys_append]
  exact List.mem_append_left _ (h.source_introduced _ _ _ _ _ _ rfl).key_mem

/-- The key of a source stands before the key of the target. -/
theorem Linked.idxOf_source_lt (h : Linked p) {source target : Occurrence} {relation : String}
    {optional : Bool} (hmem : Hop.edge source relation target optional ∈ p) :
    (keys p).idxOf source.key < (keys p).idxOf target.key := by
  obtain ⟨earlier, later, rfl⟩ := List.append_of_mem hmem
  have hsource : source.key ∈ keys earlier := (h.source_introduced _ _ _ _ _ _ rfl).key_mem
  have htarget : target.key ∉ keys earlier := by
    have hnodup := h.nodup_keys
    rw [keys_append, List.nodup_append] at hnodup
    exact fun hearlier => hnodup.2.2 _ hearlier _ List.mem_cons_self rfl
  rw [keys_append, List.idxOf_append_of_mem hsource, List.idxOf_append_of_notMem htarget]
  have := List.idxOf_lt_length_of_mem hsource
  omega

/-! ### Looking up a key -/

theorem introducer?_eq_none_iff {key : String} :
    introducer? placed key = none ↔ key ∉ placed.map (·.occurrence.key) := by
  rw [introducer?, List.find?_eq_none]
  constructor
  · intro h hmem
    obtain ⟨q, hq, rfl⟩ := List.mem_map.mp hmem
    obtain ⟨i, hi, rfl⟩ := List.mem_iff_getElem.mp hq
    have hentry : (placed[i], i) ∈ placed.zipIdx :=
      List.mem_zipIdx_iff_getElem?.mpr (List.getElem?_eq_getElem hi)
    exact h _ hentry (beq_self_eq_true _)
  · rintro h ⟨q, i⟩ hq hkey
    have hq : q ∈ placed := List.fst_mem_of_mem_zipIdx hq
    have hkey : q.occurrence.key = key := by simpa using hkey
    exact h (hkey ▸ List.mem_map_of_mem (f := (·.occurrence.key)) hq)

theorem getElem?_of_introducer? {key : String} {i : Nat}
    (h : introducer? placed key = some (q, i)) :
    placed[i]? = some q ∧ q.occurrence.key = key := by
  have hentry : (q, i) ∈ placed.zipIdx := List.mem_of_find?_eq_some h
  have hkey := List.find?_some h
  exact ⟨List.mem_zipIdx_iff_getElem?.mp hentry, by simpa using hkey⟩

/-! ### One hop -/

theorem placeHop_root_eq_ok_iff {o : Occurrence} :
    placeHop placed (.root o) = .ok q ↔
      o.key ∉ placed.map (·.occurrence.key) ∧ q = ⟨o, none, 0⟩ := by
  rw [← introducer?_eq_none_iff]
  simp only [placeHop]
  rw [bind_eq_ok_iff]
  constructor
  · rintro ⟨q', hq', h⟩
    obtain rfl := Except.ok.inj hq'
    split at h
    · exact absurd h (by simp)
    · next hnone => exact ⟨hnone, (Except.ok.inj h).symm⟩
  · rintro ⟨hnone, rfl⟩
    exact ⟨_, rfl, by rw [hnone]⟩

theorem placeEdge_eq_ok_iff {source target : Occurrence} {relation : String} {optional : Bool} :
    placeEdge placed source relation target optional = .ok q ↔
      Text.isBlank relation = false ∧ ∃ found position,
        introducer? placed source.key = some (found, position) ∧
        found.occurrence.schema = source.schema ∧
        q = ⟨target, some ⟨position, relation, optional⟩, found.depth + 1⟩ := by
  unfold placeEdge
  by_cases hblank : Text.isBlank relation = true
  · rw [if_pos hblank]
    simp [hblank]
  · rw [if_neg hblank]
    simp only [Bool.not_eq_true] at hblank
    cases introducer? placed source.key with
    | none => simp
    | some entry =>
      obtain ⟨found, position⟩ := entry
      by_cases hschema : found.occurrence.schema = source.schema
      · simp [hblank, hschema, eq_comm]
      · simp [hschema]

theorem placeHop_edge_eq_ok_iff {source target : Occurrence} {relation : String}
    {optional : Bool} :
    placeHop placed (.edge source relation target optional) = .ok q ↔
      placeEdge placed source relation target optional = .ok q ∧
        target.key ∉ placed.map (·.occurrence.key) := by
  rw [← introducer?_eq_none_iff]
  simp only [placeHop]
  rw [bind_eq_ok_iff]
  constructor
  · rintro ⟨q', hq', h⟩
    obtain ⟨-, found, position, -, -, hq⟩ := placeEdge_eq_ok_iff.mp hq'
    have htarget : q'.occurrence = target := by rw [hq]
    rw [htarget] at h
    split at h
    · exact absurd h (by simp)
    · next hnone => exact ⟨Except.ok.inj h ▸ hq', hnone⟩
  · rintro ⟨hq, hnone⟩
    obtain ⟨-, found, position, -, -, hq'⟩ := placeEdge_eq_ok_iff.mp hq
    have htarget : q.occurrence = target := by rw [hq']
    exact ⟨q, hq, by rw [htarget, hnone]⟩

/-! ### The invariant -/

/-- **The hops of `p` are placed as `placed`.** -/
structure Places (p : Pattern) (placed : List Placement) : Prop extends Linked p where
  occurrences_eq : placed.map (·.occurrence) = p.map Hop.introduces
  incoming_eq : placed.map (·.incoming) = p.map (Hop.incoming? (keys p))

theorem places_nil : Places [] [] :=
  ⟨⟨List.nodup_nil, by simp, by simp⟩, rfl, rfl⟩

/-- One hop more keeps the links, if its key is fresh and its source has been introduced. -/
theorem Linked.concat (h : Linked p) (hfresh : hop.introduces.key ∉ keys p)
    (hedge : ∀ source relation target optional, hop = .edge source relation target optional →
      Text.isBlank relation = false ∧ Introduced p source) : Linked (p ++ [hop]) := by
  refine ⟨?_, ?_, ?_⟩
  · rw [keys_concat, List.nodup_append]
    refine ⟨h.nodup_keys, List.nodup_singleton _, fun key hkey key' hkey' => ?_⟩
    rw [List.mem_singleton.mp hkey']
    rintro rfl
    exact hfresh hkey
  · intro source relation target optional hmem
    rcases List.mem_append.mp hmem with hmem | hmem
    · exact h.relation_named _ _ _ _ hmem
    · exact (hedge _ _ _ _ (List.mem_singleton.mp hmem).symm).1
  · intro earlier source relation target optional later heq
    -- The hop in question is the new one, or one of those before it.
    rcases List.eq_nil_or_concat' later with rfl | ⟨later, last, rfl⟩
    · obtain ⟨rfl, hlast⟩ := List.append_inj' heq rfl
      exact (hedge _ _ _ _ (List.cons.inj hlast).1).2
    · rw [← List.cons_append, ← List.append_assoc] at heq
      obtain ⟨rfl, -⟩ := List.append_inj' heq rfl
      exact h.source_introduced _ _ _ _ _ _ rfl

namespace Places

theorem keys_eq (h : Places p placed) : placed.map (·.occurrence.key) = keys p := by
  have := congrArg (List.map Occurrence.key) h.occurrences_eq
  rwa [List.map_map, List.map_map] at this

theorem length_eq (h : Places p placed) : placed.length = p.length := by
  have := congrArg List.length h.occurrences_eq
  rwa [List.length_map, List.length_map] at this

/-- A key that is looked up stands among the keys where its placement stands. -/
theorem introduced_of_introducer? (h : Places p placed) {o : Occurrence} {i : Nat}
    (hi : introducer? placed o.key = some (q, i)) (hschema : q.occurrence.schema = o.schema) :
    Introduced p o ∧ i = (keys p).idxOf o.key := by
  obtain ⟨hget, hkey⟩ := getElem?_of_introducer? hi
  obtain ⟨hlt, rfl⟩ := List.getElem?_eq_some_iff.mp hget
  have hmem : placed[i].occurrence ∈ p.map Hop.introduces :=
    h.occurrences_eq ▸ List.mem_map_of_mem (f := (·.occurrence)) (List.getElem_mem hlt)
  obtain ⟨hop, hhop, hintro⟩ := List.mem_map.mp hmem
  refine ⟨⟨hop, hhop, by rw [hintro, hkey], by rw [hintro, hschema]⟩, ?_⟩
  have hlt' : i < (placed.map (·.occurrence.key)).length := by simpa using hlt
  have hat : (placed.map (·.occurrence.key))[i] = o.key := by rw [List.getElem_map, hkey]
  rw [← h.keys_eq, ← hat]
  exact ((h.keys_eq ▸ h.nodup_keys).idxOf_getElem i hlt').symm

/-- The edges that lead to earlier placements do not change when a hop is added. -/
theorem incoming_concat (h : Places p placed) (hop : Hop) :
    placed.map (·.incoming) = p.map (Hop.incoming? (keys (p ++ [hop]))) := by
  rw [h.incoming_eq]
  refine List.map_congr_left fun hop' hmem => ?_
  cases hop' with
  | root o => rfl
  | edge source relation target optional =>
    obtain ⟨earlier, later, rfl⟩ := List.append_of_mem hmem
    have hsource : source.key ∈ keys (earlier ++ .edge source relation target optional :: later) := by
      rw [keys_append]
      have := h.source_introduced _ _ _ _ _ _ rfl
      exact List.mem_append_left _ this.key_mem
    simp only [Hop.incoming?, keys_concat, List.idxOf_append_of_mem hsource]

/-- A placement with the occurrence of a hop, and with the edge that leads to it, keeps the
invariant. -/
theorem concat_of_linked (h : Places p placed) (hlinked : Linked (p ++ [hop]))
    (hq : q.occurrence = hop.introduces) (hin : q.incoming = hop.incoming? (keys p)) :
    Places (p ++ [hop]) (placed ++ [q]) := by
  refine ⟨hlinked, by simp [h.occurrences_eq, hq], ?_⟩
  have hlast : hop.incoming? (keys (p ++ [hop])) = hop.incoming? (keys p) := by
    cases hop with
    | root o => rfl
    | edge source relation target optional =>
      have hsource := hlinked.source_introduced p _ _ _ _ [] rfl
      simp only [Hop.incoming?, keys_concat, List.idxOf_append_of_mem hsource.key_mem]
  rw [List.map_append, List.map_append, ← h.incoming_concat, List.map_singleton,
    List.map_singleton, hlast, hin]

/-- **One step:** a hop that can be placed keeps the invariant. -/
theorem concat (h : Places p placed) (hq : placeHop placed hop = .ok q) :
    Places (p ++ [hop]) (placed ++ [q]) := by
  cases hop with
  | root o =>
    obtain ⟨hfresh, rfl⟩ := placeHop_root_eq_ok_iff.mp hq
    rw [h.keys_eq] at hfresh
    exact h.concat_of_linked (h.toLinked.concat hfresh (by simp)) rfl rfl
  | edge source relation target optional =>
    obtain ⟨hedge, hfresh⟩ := placeHop_edge_eq_ok_iff.mp hq
    obtain ⟨hblank, found, position, hfound, hschema, rfl⟩ := placeEdge_eq_ok_iff.mp hedge
    obtain ⟨hsource, rfl⟩ := h.introduced_of_introducer? hfound hschema
    rw [h.keys_eq] at hfresh
    refine h.concat_of_linked (h.toLinked.concat hfresh fun s r t o heq => ?_) rfl rfl
    obtain ⟨rfl, rfl, -, -⟩ := Hop.edge.inj heq
    exact ⟨hblank, hsource⟩

/-- **A run:** so does a list of hops. -/
theorem append (h : Places p placed) (hall : placeAll placed rest = .ok placed') :
    Places (p ++ rest) placed' := by
  induction rest generalizing p placed with
  | nil =>
    obtain rfl := Except.ok.inj hall
    rwa [List.append_nil]
  | cons hop rest ih =>
    obtain ⟨q, hq, hrest⟩ := bind_eq_ok_iff.mp hall
    have := ih (h.concat hq) hrest
    rwa [List.append_assoc] at this

/-- The first hop has no earlier one to start from. -/
theorem isRoot_head (h : Places (hop :: rest) placed) : hop.isRoot = true := by
  cases hop with
  | root o => rfl
  | edge source relation target optional =>
    obtain ⟨hop', hmem, -⟩ := h.source_introduced [] _ _ _ _ _ rfl
    exact absurd hmem (by simp)

end Places

/-! ### A whole pattern -/

theorem checkRoots_eq_ok_iff : checkRoots p = .ok () ↔ p.countP Hop.isRoot = 1 := by
  unfold checkRoots
  split
  · next h => simp [h]
  · next h => simp [h]
  · next h =>
    constructor
    · intro heq
      exact absurd heq (by simp)
    · intro hone
      exact absurd hone h

theorem places_of_place (h : place p = .ok placed) : Places p placed := by
  obtain ⟨-, hall⟩ := check_bind_eq_ok_iff.mp h
  exact places_nil.append hall

/-- **What can be placed is in order.** -/
theorem inOrder_of_place (h : place p = .ok placed) : InOrder p := by
  have hplaces := places_of_place h
  obtain ⟨hroots, -⟩ := check_bind_eq_ok_iff.mp h
  rw [checkRoots_eq_ok_iff] at hroots
  refine ⟨hplaces.toLinked, ?_⟩
  cases p with
  | nil => exact absurd hroots (by simp)
  | cons hop rest =>
    have hfirst := hplaces.isRoot_head
    rw [List.countP_cons_of_pos hfirst] at hroots
    have hrest : rest.countP Hop.isRoot = 0 := by omega
    cases hop with
    | root o =>
      refine ⟨o, rest, rfl, fun hop' hmem => ?_⟩
      simpa using List.countP_eq_zero.mp hrest hop' hmem
    | edge => exact absurd hfirst (by simp [Hop.isRoot])

theorem exists_place_of_check (h : check p = .ok ()) : ∃ placed, place p = .ok placed := by
  obtain ⟨placed, hplace, -⟩ := bind_eq_ok_iff.mp h
  exact ⟨placed, hplace⟩

end Pattern

end PatternQuery
