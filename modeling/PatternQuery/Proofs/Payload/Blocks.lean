import Mathlib.Data.List.Basic
import PatternQuery.Payload.Block

/-!
# Reading blocks

Which values are blocks is said of the values themselves (`Json.IsBlock`), and so is which rows a block has
and which blocks stand below a row: the objects among the entries of `data`, and the blocks among the
entries of `children`. Blocks are read by functions that recurse through one another; each of them is
given by one equation over the list that it walks (`Block.ofJson?_eq_some_iff`, `Block.childrenOf_eq`).

A step down names a row and a block below it, both by position. Steps lead to the same places in a value
and in the block that is read from it (`Block.child?_eq`).
-/

namespace PatternQuery

/-- Where every item has an image, the images stand where their items stand. -/
theorem getElem?_filterMap_of_isSome {α β : Type} {f : α → Option β} {l : List α}
    (h : ∀ a ∈ l, (f a).isSome) (i : Nat) : (l.filterMap f)[i]? = l[i]?.bind f := by
  induction l generalizing i with
  | nil => rfl
  | cons a l ih =>
    obtain ⟨b, hb⟩ := Option.isSome_iff_exists.mp (h a List.mem_cons_self)
    rw [List.filterMap_cons_some hb]
    cases i with
    | zero => rw [List.getElem?_cons_zero, List.getElem?_cons_zero, Option.bind_some, hb]
    | succ i =>
      rw [List.getElem?_cons_succ, List.getElem?_cons_succ]
      exact ih (fun a ha => h a (List.mem_cons_of_mem _ ha)) i

namespace Json

/-- **A value that is a block:** an object with a string `schema` and an array `data`. -/
structure IsBlock (v : Json) (requested : String) (items : List Json) : Prop where
  schema : v.get? "schema" = some (.str requested)
  data : v.get? "data" = some (.arr items)

/-- Whether a value is a block. -/
def isBlock (v : Json) : Bool :=
  ((v.get? "schema").bind str?).isSome && ((v.get? "data").bind items?).isSome

/-- The rows of a block: the objects among its entries. -/
def rowObjects (items : List Json) : List (List (String × Json)) := items.filterMap members?

/-- The blocks below a row: those among the entries of its member `children`. -/
def childBlocks (members : List (String × Json)) : List Json :=
  (((members.lookup "children").bind items?).getD []).filter isBlock

/-- The block that a step leads to. -/
def childBlock? (v : Json) (row child : Nat) : Option Json := do
  let items ← (v.get? "data").bind items?
  let members ← (rowObjects items)[row]?
  (childBlocks members)[child]?

/-- The block at the end of a way down. -/
def blockAt? (v : Json) (way : List (Nat × Nat)) : Option Json :=
  way.foldlM (fun v step => v.childBlock? step.1 step.2) v

variable {v : Json} {requested : String} {items : List Json}

theorem str?_eq_some_iff {s : String} : v.str? = some s ↔ v = .str s := by
  cases v <;> simp [str?]

theorem items?_eq_some_iff : v.items? = some items ↔ v = .arr items := by
  cases v <;> simp [items?]

/-- The test for blocks finds the blocks. -/
theorem isBlock_iff : v.isBlock = true ↔ ∃ requested items, v.IsBlock requested items := by
  rw [isBlock, Bool.and_eq_true, Option.isSome_iff_exists, Option.isSome_iff_exists]
  constructor
  · rintro ⟨⟨requested, hschema⟩, ⟨items, hdata⟩⟩
    obtain ⟨w, hw, hstr⟩ := Option.bind_eq_some_iff.mp hschema
    obtain ⟨w', hw', harr⟩ := Option.bind_eq_some_iff.mp hdata
    exact ⟨requested, items, str?_eq_some_iff.mp hstr ▸ hw, items?_eq_some_iff.mp harr ▸ hw'⟩
  · rintro ⟨requested, items, hschema, hdata⟩
    rw [hschema, hdata]
    exact ⟨⟨requested, rfl⟩, ⟨items, rfl⟩⟩

theorem rowObjects_cons (v : Json) (rest : List Json) :
    rowObjects (v :: rest) = v.members?.toList ++ rowObjects rest := by
  rw [rowObjects, List.filterMap_cons]
  cases v.members? <;> rfl

theorem IsBlock.childBlock?_eq (h : v.IsBlock requested items) (row child : Nat) :
    v.childBlock? row child = (rowObjects items)[row]?.bind fun members =>
      (childBlocks members)[child]? := by
  rw [childBlock?, h.data]
  rfl

theorem isBlock_of_childBlock? {w : Json} {row child : Nat} (h : v.childBlock? row child = some w) :
    w.isBlock = true := by
  obtain ⟨items, -, h⟩ := Option.bind_eq_some_iff.mp h
  obtain ⟨members, -, h⟩ := Option.bind_eq_some_iff.mp h
  exact (List.mem_filter.mp (List.mem_of_getElem? h)).2

end Json

namespace BlockRow

/-- The row of an object. -/
def ofMembers (members : List (String × Json)) : BlockRow := .mk members (Block.childrenOf members)

end BlockRow

namespace Block

variable {v : Json} {b : Block} {requested : String} {items : List Json}

/-- The block that a step leads to. -/
def child? (b : Block) (row child : Nat) : Option Block :=
  b.rows[row]?.bind (·.children[child]?)

/-! ### Equations of the readers -/

theorem ofData?_eq (requested : String) (members : List (String × Json)) :
    ofData? requested members = (members.lookup "data").bind (ofEntries? requested) := by
  induction members with
  | nil => rw [ofData?, List.lookup_nil, Option.bind_none]
  | cons member rest ih =>
    obtain ⟨name, v⟩ := member
    rw [ofData?, List.lookup_cons]
    by_cases hname : name = "data"
    · rw [if_pos hname, hname, beq_self_eq_true, Option.bind_some]
    · rw [if_neg hname, beq_eq_false_iff_ne.mpr (Ne.symm hname), ih]

theorem rowsOf_eq (items : List Json) :
    rowsOf items = (Json.rowObjects items).map BlockRow.ofMembers := by
  induction items with
  | nil => rfl
  | cons v rest ih =>
    rw [rowsOf, ih]
    cases v <;> rfl

theorem blockItems_eq (items : List Json) : blockItems items = items.filterMap ofJson? := by
  induction items with
  | nil => rfl
  | cons v rest ih =>
    rw [blockItems, ih]
    cases hv : ofJson? v with
    | none => rw [List.filterMap_cons_none hv]
    | some b => rw [List.filterMap_cons_some hv]

theorem ofJson?_eq (v : Json) : ofJson? v = ((v.get? "schema").bind Json.str?).bind fun requested =>
    ((v.get? "data").bind Json.items?).map fun items =>
      .mk requested items.length ((Json.rowObjects items).map BlockRow.ofMembers) := by
  have hentries (requested : String) (w : Json) : ofEntries? requested w = w.items?.map fun items =>
      .mk requested items.length ((Json.rowObjects items).map BlockRow.ofMembers) := by
    cases w with
    | arr items => rw [ofEntries?, rowsOf_eq, Json.items?, Option.map_some]
    | _ => rfl
  cases v with
  | obj members =>
    rw [ofJson?, Json.get?, Json.get?]
    cases (members.lookup "schema").bind Json.str? with
    | none => rfl
    | some requested =>
      dsimp only
      rw [Option.bind_some, ofData?_eq, Option.map_bind]
      exact Option.bind_congr fun w _ => hentries requested w
  | _ => rfl

/-- **A value is read as a block iff it is one.** Its rows are the objects among its entries. -/
theorem ofJson?_eq_some_iff : ofJson? v = some b ↔ ∃ requested items, v.IsBlock requested items ∧
    b = .mk requested items.length ((Json.rowObjects items).map BlockRow.ofMembers) := by
  rw [ofJson?_eq]
  constructor
  · intro h
    obtain ⟨requested, hrequested, h⟩ := Option.bind_eq_some_iff.mp h
    obtain ⟨items, hitems, rfl⟩ := Option.map_eq_some_iff.mp h
    obtain ⟨w, hschema, hw⟩ := Option.bind_eq_some_iff.mp hrequested
    obtain ⟨w', hdata, hw'⟩ := Option.bind_eq_some_iff.mp hitems
    rw [Json.str?_eq_some_iff.mp hw] at hschema
    rw [Json.items?_eq_some_iff.mp hw'] at hdata
    exact ⟨requested, items, ⟨hschema, hdata⟩, rfl⟩
  · rintro ⟨requested, items, ⟨hschema, hdata⟩, rfl⟩
    rw [hschema, hdata]
    rfl

theorem isSome_ofJson? (v : Json) : (ofJson? v).isSome = v.isBlock := by
  rw [Bool.eq_iff_iff, Json.isBlock_iff, Option.isSome_iff_exists]
  constructor
  · rintro ⟨b, hb⟩
    obtain ⟨requested, items, hv, -⟩ := ofJson?_eq_some_iff.mp hb
    exact ⟨requested, items, hv⟩
  · rintro ⟨requested, items, hv⟩
    exact ⟨_, ofJson?_eq_some_iff.mpr ⟨requested, items, hv, rfl⟩⟩

/-- The blocks below a row are read from those in the value. -/
theorem childrenOf_eq (members : List (String × Json)) :
    childrenOf members = (Json.childBlocks members).filterMap ofJson? := by
  -- The reader walks through the members as a look-up does.
  have hlookup : childrenOf members = ((members.lookup "children").map blocksOf).getD [] := by
    induction members with
    | nil => rfl
    | cons member rest ih =>
      obtain ⟨name, v⟩ := member
      rw [childrenOf, List.lookup_cons, childrenMember]
      by_cases hname : name = "children"
      · rw [if_pos hname, hname, beq_self_eq_true, Option.map_some, Option.getD_some]
      · rw [if_neg hname, beq_eq_false_iff_ne.mpr (Ne.symm hname), ih]
  -- What is not a block is dropped by the reader in any case.
  have hfilter (items : List Json) : blockItems items = (items.filter Json.isBlock).filterMap ofJson? := by
    rw [blockItems_eq, List.filterMap_filter]
    refine List.filterMap_congr fun v _ => ?_
    rw [← isSome_ofJson?]
    cases ofJson? v <;> rfl
  rw [hlookup, Json.childBlocks]
  cases members.lookup "children" with
  | none => rfl
  | some v =>
    rw [Option.map_some, Option.getD_some, Option.bind_some]
    cases v with
    | arr items => exact hfilter items
    | _ => rfl

theorem isSome_of_mem_childBlocks {members : List (String × Json)} {w : Json}
    (h : w ∈ Json.childBlocks members) : (ofJson? w).isSome :=
  (isSome_ofJson? w).trans (List.mem_filter.mp h).2

theorem length_childrenOf (members : List (String × Json)) :
    (childrenOf members).length = (Json.childBlocks members).length := by
  rw [childrenOf_eq]
  exact List.filterMap_length_eq_length.mpr fun _ hw => isSome_of_mem_childBlocks hw

/-! ### Steps down -/

/-- **A step leads to the block that is read from where it leads in the value.** -/
theorem child?_eq (h : ofJson? v = some b) (row child : Nat) :
    b.child? row child = (v.childBlock? row child).bind ofJson? := by
  obtain ⟨requested, items, hv, rfl⟩ := ofJson?_eq_some_iff.mp h
  rw [child?, rows, List.getElem?_map, hv.childBlock?_eq]
  cases (Json.rowObjects items)[row]? with
  | none => rfl
  | some members =>
    rw [Option.map_some, Option.bind_some, Option.bind_some,
      ← getElem?_filterMap_of_isSome fun _ => isSome_of_mem_childBlocks, ← childrenOf_eq]
    rfl

end Block

end PatternQuery
