import Mathlib.Logic.Relation
import PatternQuery.Proofs.Forest.Walk

/-!
# Breadth-first search without marks

`walk` goes through forests, which are finite, so it ends. A search is given the children of every node
instead, and does not note which nodes it has been to, so it may go on forever. `Searches` says of a
search that it ends, and what it has listed then.

* `searches_walk`: on a forest that has the given children below every label, the search ends, and
  lists what the walk lists;
* `Searches.exists_of_perm`: other orders of the children change the order of the list only. The reason
  is `searches_append_iff`, by which a search goes through one level after another;
* `Searches.mem_or_exists_parent`: what is listed was in the queue, or is the child of an earlier node;
* `not_searches_of_cycle`: from above a cycle the search never ends.
-/

namespace PatternQuery

section Search

variable {α : Type} {children children' : α → List α} {queue queue' order order' : List α} {u v : α}

/-- **The search of a queue ends with a list:** the first node of the queue is listed and its children
go to the end of the queue, until the queue is empty. -/
inductive Searches (children : α → List α) : List α → List α → Prop
  | nil : Searches children [] []
  | cons {u : α} {queue order : List α} :
    Searches children (queue ++ children u) order → Searches children (u :: queue) (u :: order)

theorem searches_nil_iff : Searches children [] order ↔ order = [] := by
  constructor
  · rintro ⟨⟩
    rfl
  · rintro rfl
    exact .nil

theorem searches_cons_iff : Searches children (u :: queue) order ↔
    ∃ later, order = u :: later ∧ Searches children (queue ++ children u) later := by
  constructor
  · rintro ⟨⟩
    exact ⟨_, rfl, ‹_›⟩
  · rintro ⟨later, rfl, h⟩
    exact .cons h

/-- **The front of the queue is listed first,** and what is below it comes behind the rest of the
queue. -/
theorem searches_append_iff (queue queue' : List α) : Searches children (queue ++ queue') order ↔
    ∃ later, order = queue ++ later ∧ Searches children (queue' ++ queue.flatMap children) later := by
  induction queue generalizing queue' order with
  | nil => simp
  | cons u queue ih =>
    simp only [List.cons_append, searches_cons_iff, List.append_assoc, ih, List.flatMap_cons]
    constructor
    · rintro ⟨_, rfl, later, rfl, h⟩
      exact ⟨later, rfl, h⟩
    · rintro ⟨later, rfl, h⟩
      exact ⟨_, rfl, later, rfl, h⟩

/-- So the search goes level after level. -/
theorem searches_iff_flatMap : Searches children queue order ↔
    ∃ later, order = queue ++ later ∧ Searches children (queue.flatMap children) later := by
  simpa using searches_append_iff queue []

namespace Searches

theorem unique (h : Searches children queue order) (h' : Searches children queue order') :
    order = order' := by
  induction h generalizing order' with
  | nil => rw [searches_nil_iff.mp h']
  | cons _ ih =>
    obtain ⟨later, rfl, hlater⟩ := searches_cons_iff.mp h'
    rw [ih hlater]

/-- **The order of the children does not matter** for what is listed, nor for whether the search ends. -/
theorem exists_of_perm (h : Searches children queue order) (hqueue : queue'.Perm queue)
    (hchildren : ∀ u ∈ order, (children' u).Perm (children u)) :
    ∃ order', Searches children' queue' order' ∧ order'.Perm order := by
  -- The levels agree up to order. Every level but the last takes something off the list.
  induction hn : order.length using Nat.strong_induction_on generalizing queue queue' order with
  | _ n ih =>
  obtain ⟨later, rfl, hlater⟩ := searches_iff_flatMap.mp h
  by_cases hnil : queue = []
  · subst hnil
    obtain rfl := hqueue.eq_nil
    obtain rfl := searches_nil_iff.mp hlater
    exact ⟨[], .nil, .refl _⟩
  · have hlevel : (queue'.flatMap children').Perm (queue.flatMap children) :=
      (hqueue.flatMap_right children').trans
        (List.Perm.flatMap_left queue fun u hu => hchildren u (List.mem_append_left _ hu))
    have hpos := List.length_pos_iff.mpr hnil
    rw [List.length_append] at hn
    obtain ⟨later', hlater', hperm⟩ := ih later.length (by omega) hlater hlevel
      (fun u hu => hchildren u (List.mem_append_right _ hu)) rfl
    exact ⟨queue' ++ later', searches_iff_flatMap.mpr ⟨later', rfl, hlater'⟩, hqueue.append hperm⟩

/-- **Where a listed node comes from:** it was in the queue, or is a child of a node that is listed
before. -/
theorem mem_or_exists_parent (h : Searches children queue order) {before after : List α}
    (horder : order = before ++ u :: after) : u ∈ queue ∨ ∃ p ∈ before, u ∈ children p := by
  induction h generalizing before with
  | nil => simp at horder
  | @cons w queue order _ ih =>
    cases before with
    | nil =>
      obtain ⟨rfl, -⟩ := List.cons.inj horder
      exact .inl List.mem_cons_self
    | cons w' before =>
      obtain ⟨rfl, hrest⟩ := List.cons.inj horder
      obtain hu | ⟨p, hp, hu⟩ := ih hrest
      · obtain hu | hu := List.mem_append.mp hu
        · exact .inl (List.mem_cons_of_mem _ hu)
        · exact .inr ⟨w, List.mem_cons_self, hu⟩
      · exact .inr ⟨p, List.mem_cons_of_mem _ hp, hu⟩

end Searches

/-- **From above a cycle the search never ends:** there is always a node above the cycle in the queue. -/
theorem not_searches_of_cycle (hu : u ∈ queue)
    (huv : Relation.ReflTransGen (fun v w => w ∈ children v) u v)
    (hv : Relation.TransGen (fun v w => w ∈ children v) v v) : ¬ Searches children queue order := by
  intro h
  induction h generalizing u with
  | nil => exact List.not_mem_nil hu
  | cons _ ih =>
    obtain rfl | hu := List.mem_cons.mp hu
    · -- The node is taken off the queue, and its child on the way around the cycle comes in.
      obtain ⟨c, hc, hcv⟩ := Relation.TransGen.head'_iff.mp (hv.trans_right huv)
      exact ih (List.mem_append_right _ hc) hcv
    · exact ih (List.mem_append_left _ hu) huv

end Search

/-! ### Searching a forest -/

namespace Forest

variable {α : Type} {name : α → String} {children : String → List String}

/-- The names of the roots. -/
def rootNames (name : α → String) (f : Forest α) : List String := f.trees.map fun t => name t.1

@[simp]
theorem rootNames_cons (a : α) (below rest : Forest α) :
    (cons a below rest).rootNames name = name a :: rest.rootNames name := rfl

/-- Below every label are the children of its name. -/
def Follows (name : α → String) (children : String → List String) : Forest α → Prop
  | nil => True
  | cons a below rest => below.rootNames name = children (name a) ∧ below.Follows name children ∧
    rest.Follows name children

/-- Putting a tree in its place changes nothing below a label. -/
theorem follows_insertBy {cmp : α → α → Ordering} {a : α} {below f : Forest α} :
    (insertBy cmp a below f).Follows name children ↔ (cons a below f).Follows name children := by
  induction f with
  | nil => rfl
  | cons b below' rest _ ihr =>
    by_cases h : TreeLE cmp (a, below) (b, below')
    · rw [insertBy_of_le _ h]
    · rw [insertBy_of_not_le _ h, Follows, ihr]
      simp only [Follows]
      tauto

end Forest

variable {α : Type} {name : α → String} {children : String → List String}

/-- **The search lists what the walk lists:** its queue holds the roots that are left in the queue of the
walk. -/
theorem searches_walk {queue : List (String × Forest α)}
    (h : ∀ entry ∈ queue, entry.2.Follows name children) :
    Searches children (queue.flatMap fun entry => entry.2.rootNames name)
      ((walk name queue).map (name ·.label)) := by
  fun_induction walk name queue with
  | case1 => exact .nil
  | case2 parent queue ih => exact ih fun entry hentry => h entry (List.mem_cons_of_mem _ hentry)
  | case3 parent a below rest queue ih =>
    obtain ⟨hroots, hbelow, hrest⟩ := h _ List.mem_cons_self
    have ih := ih fun entry hentry => by
      simp only [List.cons_append, List.mem_cons, List.mem_append, List.not_mem_nil, or_false] at hentry
      obtain rfl | hentry | rfl := hentry
      · exact hrest
      · exact h entry (List.mem_cons_of_mem _ hentry)
      · exact hbelow
    simp only [List.cons_append, List.flatMap_cons, List.flatMap_append, List.flatMap_nil,
      List.append_nil, hroots] at ih
    rw [List.flatMap_cons, Forest.rootNames_cons, List.cons_append, List.map_cons]
    refine .cons ?_
    rwa [List.append_assoc]

end PatternQuery
