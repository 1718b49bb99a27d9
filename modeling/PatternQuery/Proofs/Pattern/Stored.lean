import PatternQuery.Pattern.Basic
import PatternQuery.Proofs.Json.Record

/-!
# Stored patterns

Which JSON values spell an occurrence, and which spell the parts of a hop. The parts of a hop need not
make a hop: a record may have a target without a relation, or a relation without a target. So reading
a value that spells parts is `Hop.ofRecord` applied to them, with the text of its error
(`Hop.Parts.SpelledBy.ofJson_eq`), and reading a list of such values does this for one after another.

What is written for a hop spells the parts of the hop.
-/

namespace PatternQuery

open Json (Given Nullable ListOf OrderFree)

/-! ### Occurrences -/

namespace Occurrence

/-- The members of an occurrence, in the order in which an array gives them. -/
abbrev memberNames : List String := ["schemaId", "alias"]

/-- **A value that spells an occurrence.** -/
structure SpelledBy (o : Occurrence) (v : Json) : Prop where
  record : v.IsRecord memberNames
  schema : Given Json.IsStr o.schema (v.field memberNames "schemaId")
  tag : Nullable Json.IsStr o.tag (v.field memberNames "alias")

variable {o : Occurrence} {v : Json}

/-- What an occurrence record holds when the members in `has` have been read. -/
def draft (o : Occurrence) (has : String → Bool) : Draft :=
  ⟨bif has "schemaId" then some o.schema else none, bif has "alias" then o.tag else none⟩

theorem SpelledBy.ofJson_eq (h : o.SpelledBy v) : ofJson v = .ok o := by
  refine (bind_of_eq_ok (Json.toRecord_eq_ok o.draft h.record (by decide) rfl
    fun has name w hw => ?_)).trans ?_
  · split
    · have hschema : Json.IsStr o.schema w := (hw ▸ h.schema).of_some
      rw [hschema.toStr_eq]
      rfl
    · have htag : Nullable Json.IsStr o.tag (some w) := hw ▸ h.tag
      rw [htag.toOptionOf_eq (fun _ _ => Json.IsStr.toStr_eq) Json.not_isStr_null]
      rfl
    · next hschema htag =>
      simp only [draft, eq_false hschema, eq_false htag, decide_false, Bool.false_or]
      rfl
  · dsimp only [draft]
    rw [Json.required_of_given h.schema, h.tag.cond_eq]
    rfl

theorem not_spelledBy_null (o : Occurrence) : ¬ o.SpelledBy .null := fun h => h.record

theorem orderFree_spelledBy : OrderFree SpelledBy := fun o v h => by
  refine ⟨h.record.sorted, ?_, ?_⟩
  · rw [h.record.field_sorted]
    exact h.schema.sorted Json.orderFree_isStr
  · rw [h.record.field_sorted]
    exact h.tag.sorted Json.orderFree_isStr

theorem spelledBy_toJson (o : Occurrence) : o.SpelledBy o.toJson := by
  obtain ⟨schema, tag⟩ := o
  cases tag with
  | none => exact ⟨by simp [toJson, Json.IsRecord], ⟨rfl⟩, .missing⟩
  | some tag => exact ⟨by simp [toJson, Json.IsRecord], ⟨rfl⟩, .given rfl⟩

end Occurrence

/-! ### Hops -/

namespace Hop

/-- What a hop record says. -/
structure Parts where
  source : Occurrence
  target : Option Occurrence
  relation : Option String
  optional : Option Bool
  deriving Repr, DecidableEq

namespace Parts

/-- The hop that the parts make. -/
def hop (x : Parts) : Except PatternError Hop := ofRecord x.source x.target x.relation x.optional

/-- The members of a hop, in the order in which an array gives them. -/
abbrev memberNames : List String := ["from", "to", "edge", "optional"]

/-- **A value that spells the parts of a hop.** -/
structure SpelledBy (x : Parts) (v : Json) : Prop where
  record : v.IsRecord memberNames
  source : Given Occurrence.SpelledBy x.source (v.field memberNames "from")
  target : Nullable Occurrence.SpelledBy x.target (v.field memberNames "to")
  relation : Nullable Json.IsStr x.relation (v.field memberNames "edge")
  optional : Nullable Json.IsBool x.optional (v.field memberNames "optional")

/-- **A half edge hop:** it has a target or a relation, and the other is missing. -/
def Lacks (x : Parts) (missing : String) : Prop :=
  x.target.isSome ∧ x.relation = none ∧ missing = "edge" ∨
    x.target = none ∧ x.relation.isSome ∧ missing = "to"

variable {x : Parts} {v : Json}

theorem hop_eq_error_iff {e : PatternError} :
    x.hop = .error e ↔ ∃ missing, e = .incompleteEdge missing ∧ x.Lacks missing := by
  obtain ⟨source, target, relation, optional⟩ := x
  cases target <;> cases relation <;> simp [hop, ofRecord, Lacks, eq_comm]

/-- What a hop record holds when the members in `has` have been read. -/
def draft (x : Parts) (has : String → Bool) : Draft :=
  ⟨bif has "from" then some x.source else none, bif has "to" then x.target else none,
    bif has "edge" then x.relation else none, bif has "optional" then x.optional else none⟩

/-- **Reading a value that spells parts** makes a hop of the parts, or fails with the text of the
error. -/
theorem SpelledBy.ofJson_eq (h : x.SpelledBy v) :
    ofJson v = x.hop.mapError fun e => .refused e.message := by
  refine (bind_of_eq_ok (Json.toRecord_eq_ok x.draft h.record (by decide) rfl
    fun has name w hw => ?_)).trans ?_
  · split
    · have hsource : Occurrence.SpelledBy x.source w := (hw ▸ h.source).of_some
      rw [hsource.ofJson_eq]
      rfl
    · have htarget : Nullable Occurrence.SpelledBy x.target (some w) := hw ▸ h.target
      rw [htarget.toOptionOf_eq (fun _ _ => Occurrence.SpelledBy.ofJson_eq)
        Occurrence.not_spelledBy_null]
      rfl
    · have hrelation : Nullable Json.IsStr x.relation (some w) := hw ▸ h.relation
      rw [hrelation.toOptionOf_eq (fun _ _ => Json.IsStr.toStr_eq) Json.not_isStr_null]
      rfl
    · have hoptional : Nullable Json.IsBool x.optional (some w) := hw ▸ h.optional
      rw [hoptional.toOptionOf_eq (fun _ _ => Json.IsBool.toBool_eq) Json.not_isBool_null]
      rfl
    · next hfrom hto hedge hoptional =>
      simp only [draft, eq_false hfrom, eq_false hto, eq_false hedge, eq_false hoptional,
        decide_false, Bool.false_or]
      rfl
  · dsimp only [draft]
    rw [Json.required_of_given h.source, h.target.cond_eq, h.relation.cond_eq, h.optional.cond_eq]
    refine (bind_of_eq_ok rfl).trans ?_
    unfold Parts.hop
    cases ofRecord x.source x.target x.relation x.optional <;> rfl

theorem orderFree_spelledBy : OrderFree SpelledBy := fun x v h => by
  refine ⟨h.record.sorted, ?_, ?_, ?_, ?_⟩
  · rw [h.record.field_sorted]
    exact h.source.sorted Occurrence.orderFree_spelledBy
  · rw [h.record.field_sorted]
    exact h.target.sorted Occurrence.orderFree_spelledBy
  · rw [h.record.field_sorted]
    exact h.relation.sorted Json.orderFree_isStr
  · rw [h.record.field_sorted]
    exact h.optional.sorted Json.orderFree_isBool

end Parts

/-- What is written for a hop. -/
def parts : Hop → Parts
  | root o => ⟨o, none, none, none⟩
  | edge s r t o => ⟨s, some t, some r, some o⟩

theorem hop_parts (h : Hop) : h.parts.hop = .ok h := by
  cases h <;> rfl

theorem spelledBy_toJson (h : Hop) : h.parts.SpelledBy h.toJson := by
  cases h with
  | root o =>
    have hrecord : Json.IsRecord Parts.memberNames (root o).toJson := by simp [toJson, Json.IsRecord]
    exact ⟨hrecord, ⟨o.spelledBy_toJson⟩, .missing, .missing, .missing⟩
  | edge s r t o =>
    have hrecord : Json.IsRecord Parts.memberNames (edge s r t o).toJson := by
      simp [toJson, Json.IsRecord]
    exact ⟨hrecord, ⟨s.spelledBy_toJson⟩, .given t.spelledBy_toJson, .given rfl, .given rfl⟩

end Hop

/-! ### Patterns -/

namespace Pattern

variable {parts : List Hop.Parts} {p : Pattern} {v : Json}

/-- **All hops are complete,** and `p` is what they make. -/
def MadeOf (p : Pattern) (parts : List Hop.Parts) : Prop :=
  parts.map Hop.Parts.hop = p.map Except.ok

theorem madeOf_parts (p : Pattern) : p.MadeOf (p.map Hop.parts) := by
  rw [MadeOf, List.map_map]
  exact List.map_congr_left fun hop _ => hop.hop_parts

/-- **Reading a list of hops** stops at the first half edge hop. -/
theorem ofJson_cases (h : ListOf Hop.Parts.SpelledBy parts v) :
    (∃ p : Pattern, p.MadeOf parts ∧ ofJson v = .ok p) ∨
    ∃ x ∈ parts, ∃ missing, x.Lacks missing ∧
      ofJson v = .error (.refused (PatternError.incompleteEdge missing).message) := by
  have hread : ofJson v = parts.mapM fun x => x.hop.mapError fun e => .refused e.message :=
    h.toListOf_eq fun _ _ => Hop.Parts.SpelledBy.ofJson_eq
  rw [hread]
  clear h hread
  induction parts with
  | nil => exact .inl ⟨[], rfl, rfl⟩
  | cons x parts ih =>
    rw [List.mapM_cons]
    cases hx : x.hop with
    | error e =>
      obtain ⟨missing, rfl, hlacks⟩ := Hop.Parts.hop_eq_error_iff.mp hx
      exact .inr ⟨x, List.mem_cons_self, missing, hlacks, rfl⟩
    | ok hop =>
      obtain ⟨p, hp, heq⟩ | ⟨x', hx', missing, hlacks, heq⟩ := ih
      · refine .inl ⟨hop :: p, congrArg₂ List.cons hx hp, ?_⟩
        rw [heq]
        rfl
      · refine .inr ⟨x', List.mem_cons_of_mem _ hx', missing, hlacks, ?_⟩
        rw [heq]
        rfl

theorem MadeOf.not_lacks (hp : p.MadeOf parts) {x : Hop.Parts} (hx : x ∈ parts) (missing : String) :
    ¬ x.Lacks missing := by
  intro hlacks
  have herror : x.hop = .error (.incompleteEdge missing) :=
    Hop.Parts.hop_eq_error_iff.mpr ⟨missing, rfl, hlacks⟩
  have hmem : x.hop ∈ p.map Except.ok := hp ▸ List.mem_map_of_mem hx
  obtain ⟨hop, -, hhop⟩ := List.mem_map.mp hmem
  exact absurd (hhop.trans herror) (by simp)

theorem MadeOf.unique {p' : Pattern} (hp : p.MadeOf parts) (hp' : p'.MadeOf parts) : p = p' :=
  List.map_injective_iff.mpr (fun _ _ => Except.ok.inj) (hp.symm.trans hp')

theorem MadeOf.ofJson_eq (hp : p.MadeOf parts) (h : ListOf Hop.Parts.SpelledBy parts v) :
    ofJson v = .ok p := by
  obtain ⟨p', hp', heq⟩ | ⟨x, hx, missing, hlacks, -⟩ := ofJson_cases h
  · rw [heq, hp.unique hp']
  · exact absurd hlacks (hp.not_lacks hx missing)

theorem spelledBy_toJson (p : Pattern) :
    ListOf Hop.Parts.SpelledBy (p.map Hop.parts) p.toJson := by
  refine ⟨List.forall₂_map_left_iff.mpr (List.forall₂_map_right_iff.mpr ?_)⟩
  exact List.forall₂_same.mpr fun hop _ => hop.spelledBy_toJson

end Pattern

end PatternQuery
