import Mathlib
import PatternQuery.Proofs.Graph.Compiled

/-!
# Keys and schema ids

A node of a compiled graph is bound to a key, which is the id of its schema or a numbered tag. Such a
tag may look like the id of another schema. It is never the id of a schema that has one node, because
those ids are taken before the naming begins, and never the id of a schema that the walk has met
(`schema_eq_or_repeated_of_key_eq`). What is left is a repeated schema whose first node comes later;
its id can be given away (`not_schema_eq_of_key_eq`).
-/

namespace PatternQuery.Graph

variable {g : Graph} {d : Bool} {root : Node} {f : Forest Stem}

/-- The walk meets the schemas of the nodes, as often as there are nodes of them. -/
theorem Spans.visitSchemas_perm (h : g.Spans d root f) :
    (visitSchemas root f).Perm (g.nodes.map (·.schema)) := by
  have hids : g.ids.map g.schemaOf = g.nodes.map (·.schema) := by
    rw [ids, List.map_map]
    exact List.map_congr_left fun n hn => schemaOf_id h.nodup_ids hn
  rw [h.visitSchemas_eq, ← hids]
  exact h.visitOrder_perm.map g.schemaOf

/-- A node's occurrence is named where the walk meets the node. -/
theorem getElem?_ofSchemas_idxOf (h : (visitOrder root f).Nodup) {u : String}
    (hu : u ∈ visitOrder root f) :
    (Naming.ofSchemas (visitSchemas root f))[(visitOrder root f).idxOf u]? =
      some ((Compiled.ofTree root f).occurrence u) := by
  rw [← map_occurrence_ofTree h, List.getElem?_map, List.getElem?_idxOf hu]
  rfl

/-- The hops up to that of a node introduce what the walk meets before the node. -/
theorem exists_hops_split (h : (visitOrder root f).Nodup) {u : String}
    (hu : u ∈ visitOrder root f) :
    ∃ earlier hop later, (Compiled.ofTree root f).hops = earlier ++ hop :: later ∧
      hop.introduces = (Compiled.ofTree root f).occurrence u ∧
      earlier.map (·.introduces.schema) =
        (visitSchemas root f).take ((visitOrder root f).idxOf u) := by
  set c := Compiled.ofTree root f
  set i := (visitOrder root f).idxOf u
  have hintro : c.hops.map Hop.introduces = (visitOrder root f).map c.occurrence :=
    map_introduces_ofTree h
  have hlt : i < c.hops.length := by
    have hlen := congrArg List.length hintro
    rw [List.length_map, List.length_map] at hlen
    exact hlen ▸ List.idxOf_lt_length_of_mem hu
  refine ⟨c.hops.take i, c.hops[i], c.hops.drop (i + 1), ?_, ?_, ?_⟩
  · rw [List.getElem_cons_drop, List.take_append_drop]
  · have hget := congrArg (·[i]?) hintro
    simp only [List.getElem?_map, i, List.getElem?_idxOf hu, List.getElem?_eq_getElem hlt] at hget
    exact Option.some.inj hget
  · have hschemas := congrArg (List.map Occurrence.schema) hintro
    rw [List.map_map, List.map_map] at hschemas
    rw [List.map_take]
    exact congrArg (List.take i) (hschemas.trans (map_schema_occurrence h))

/-- **When a key is the id of another schema.** A node whose key is the schema id of some node has
that schema itself, unless both schemas have several nodes and the node comes before all nodes of the
other schema. -/
theorem schema_eq_or_repeated_of_key_eq {c : Compiled} (h : g.compile d = .ok c) {u v : Node}
    (hu : u ∈ g.nodes) (hv : v ∈ g.nodes) :
    ∃ o, c.binding? u.id = some o ∧ o.schema = u.schema ∧ (o.key = v.schema →
      u.schema = v.schema ∨
        2 ≤ (g.nodes.map (·.schema)).count u.schema ∧
        2 ≤ (g.nodes.map (·.schema)).count v.schema ∧
        ∃ earlier hop later, c.hops = earlier ++ hop :: later ∧ hop.introduces = o ∧
          ∀ hop' ∈ earlier, hop'.introduces.schema ≠ v.schema) := by
  obtain ⟨root, hroot, hreach, rfl⟩ := compile_eq_ok_iff.mp h
  have hs := (hroot.spans_below hreach (d := d)).canonical Stem.compare
  have hnd := hs.nodup_visitOrder
  have humem := hs.visitOrder_perm.mem_iff.mpr (List.mem_map_of_mem (f := (·.id)) hu)
  have hschema := hs.schema_occurrence hu
  set o := (Compiled.ofTree root ((g.below d root).canonical Stem.compare)).occurrence u.id
  refine ⟨o, binding?_ofTree hnd humem, hschema, fun hkey => ?_⟩
  by_cases heq : u.schema = v.schema
  · exact .inl heq
  · -- The key is not the id of the schema of `u`, so it is a numbered tag.
    have hne : o.key ≠ o.schema := by
      rw [hkey, hschema]
      exact fun h => heq h.symm
    obtain ⟨hucount, hvcount, hbefore⟩ :=
      Naming.key_fresh_ofSchemas (getElem?_ofSchemas_idxOf hnd humem) hne
    rw [hschema, hs.visitSchemas_perm.count_eq] at hucount
    rw [hkey, hs.visitSchemas_perm.count_eq] at hvcount
    rw [hkey] at hbefore
    -- Each of the two schemas has a node, `u` or `v`, and not just one, so it has two.
    have hupos : 0 < (g.nodes.map (·.schema)).count u.schema :=
      List.count_pos_iff.mpr (List.mem_map_of_mem hu)
    have hvpos : 0 < (g.nodes.map (·.schema)).count v.schema :=
      List.count_pos_iff.mpr (List.mem_map_of_mem hv)
    obtain ⟨earlier, hop, later, hhops, hintro, hearlier⟩ := exists_hops_split hnd humem
    refine .inr ⟨by omega, by omega, earlier, hop, later, hhops, hintro, fun hop' hmem heq' => ?_⟩
    rw [← hearlier, ← heq'] at hbefore
    exact hbefore (List.mem_map_of_mem (f := (·.introduces.schema)) hmem)

/-- Two nodes of schema `X` and, below them, two of a schema with the id `X#2`. -/
def numberedSchema : Graph :=
  ⟨[⟨"a", "X", none, .origin, false⟩, ⟨"b", "X", none, .origin, false⟩,
    ⟨"c", "X#2", none, .origin, false⟩, ⟨"d", "X#2", none, .origin, false⟩],
    [⟨"a", "b", "r", none⟩, ⟨"b", "c", "r", none⟩, ⟨"b", "d", "r", none⟩]⟩

/-- What `numberedSchema` compiles to: the second node of schema `X` gets the tag `X#2`, and the nodes
of the other schema get others. -/
def numberedCompiled : Compiled :=
  ⟨[.root ⟨"X", some "X"⟩,
    .edge ⟨"X", some "X"⟩ "r" ⟨"X", some "X#2"⟩ false,
    .edge ⟨"X", some "X#2"⟩ "r" ⟨"X#2", some "X#2#2"⟩ false,
    .edge ⟨"X", some "X#2"⟩ "r" ⟨"X#2", some "X#2#3"⟩ false],
    [("a", ⟨"X", some "X"⟩), ("b", ⟨"X", some "X#2"⟩), ("c", ⟨"X#2", some "X#2#2"⟩),
      ("d", ⟨"X#2", some "X#2#3"⟩)]⟩

theorem compile_numberedSchema : numberedSchema.compile false = .ok numberedCompiled := by cbv

/-- Here the exception applies: both schemas have two nodes, and `b` comes before those of schema
`X#2`. -/
theorem key_eq_numberedSchema : numberedSchema.compile false = .ok numberedCompiled ∧
    2 ≤ (numberedSchema.nodes.map (·.schema)).count "X" ∧
    2 ≤ (numberedSchema.nodes.map (·.schema)).count "X#2" ∧
    ∃ earlier hop later, numberedCompiled.hops = earlier ++ hop :: later ∧
      hop.introduces = ⟨"X", some "X#2"⟩ ∧
      ∀ hop' ∈ earlier, hop'.introduces.schema ≠ "X#2" := by
  obtain ⟨o, ho, -, hkey⟩ := schema_eq_or_repeated_of_key_eq compile_numberedSchema
    (u := ⟨"b", "X", none, .origin, false⟩) (v := ⟨"c", "X#2", none, .origin, false⟩)
    (by simp [numberedSchema]) (by simp [numberedSchema])
  obtain rfl : ⟨"X", some "X#2"⟩ = o := Option.some.inj ho
  rcases hkey rfl with heq | hexception
  · exact absurd heq (by decide)
  · exact ⟨compile_numberedSchema, hexception⟩

/-- **A key can be the id of another schema in the graph.** -/
theorem not_schema_eq_of_key_eq :
    ¬ ∀ (g : Graph) (d : Bool) (c : Compiled), g.compile d = .ok c →
      ∀ u ∈ g.nodes, ∀ v ∈ g.nodes, ∀ o, c.binding? u.id = some o → o.key = v.schema →
        u.schema = v.schema := by
  intro hall
  have heq : "X" = "X#2" := hall numberedSchema false _ compile_numberedSchema
    ⟨"b", "X", none, .origin, false⟩ (by simp [numberedSchema])
    ⟨"c", "X#2", none, .origin, false⟩ (by simp [numberedSchema])
    ⟨"X", some "X#2"⟩ (by rfl) rfl
  exact absurd heq (by decide)

end PatternQuery.Graph
