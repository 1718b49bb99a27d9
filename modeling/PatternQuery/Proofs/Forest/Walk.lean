import Mathlib.Data.List.Nodup
import Mathlib.Data.List.Perm.Basic
import PatternQuery.Proofs.Forest.Order

/-!
# The breadth-first walk

`walk` empties a queue of forests. What it lists is compared here with the depth-first list
`Forest.visits`, which is a structural recursion:

* `walk_perm`: the walk makes the visits of the queued forests, each once;
* `filter_parent_walk`: if no name occurs twice, the visits with one parent even come in the same
  order, so the walk keeps siblings in a row;
* `parentsFirst_walk`: a parent is visited before its children;
* `walk_map`: relabelling the forests relabels the walk.

All four are inductions along the walk; what one step does to the queue is that the forest below
the label moves from the front to the end.
-/

namespace PatternQuery

variable {α β : Type} {name : α → String}

namespace Forest

/-- The labels, depth first. -/
def labels : Forest α → List α
  | nil => []
  | cons a below rest => a :: (below.labels ++ rest.labels)

/-- The labels with the names of their parents, depth first; `parent` is the name that the roots
hang on. -/
def visits (name : α → String) (parent : String) : Forest α → List (Visit α)
  | nil => []
  | cons a below rest => ⟨parent, a⟩ :: (below.visits name (name a) ++ rest.visits name parent)

/-- The names of the labels. -/
def names (name : α → String) (f : Forest α) : List String := f.labels.map name

@[simp]
theorem names_nil : (nil : Forest α).names name = [] := rfl

@[simp]
theorem names_cons (a : α) (below rest : Forest α) :
    (cons a below rest).names name = name a :: (below.names name ++ rest.names name) := by
  simp [names, labels]

theorem length_labels (f : Forest α) : f.labels.length = f.size := by
  induction f with
  | nil => rfl
  | cons a below rest ihb ihr =>
    simp only [labels, size, List.length_cons, List.length_append, ihb, ihr]

theorem map_label_visits (name : α → String) (parent : String) (f : Forest α) :
    (f.visits name parent).map (·.label) = f.labels := by
  induction f generalizing parent with
  | nil => rfl
  | cons a below rest ihb ihr =>
    simp only [visits, labels, List.map_cons, List.map_append, ihb, ihr]

/-- A visit hangs on the given name or on a label of the forest. -/
theorem parent_mem_of_mem_visits {parent : String} {f : Forest α} {v : Visit α}
    (h : v ∈ f.visits name parent) : v.parent ∈ parent :: f.names name := by
  induction f generalizing parent with
  | nil => simp [visits] at h
  | cons a below rest ihb ihr =>
    simp only [visits, List.mem_cons, List.mem_append] at h
    rcases h with rfl | h | h
    · simp
    · have := ihb h
      simp only [names_cons, List.mem_cons, List.mem_append] at this ⊢
      tauto
    · have := ihr h
      simp only [names_cons, List.mem_cons, List.mem_append] at this ⊢
      tauto

theorem filter_parent_visits_eq_nil {parent u : String} {f : Forest α}
    (h : u ∉ parent :: f.names name) : (f.visits name parent).filter (·.parent == u) = [] := by
  refine List.filter_eq_nil_iff.mpr fun v hv => ?_
  rw [beq_iff_eq]
  rintro rfl
  exact h (parent_mem_of_mem_visits hv)

section Cons

variable {a : α} {below rest : Forest α} {parent u : String}

/-- The visits below the first root are told by their parents. -/
theorem filter_parent_visits_below (h : u ∉ parent :: rest.names name) :
    ((cons a below rest).visits name parent).filter (·.parent == u) =
      (below.visits name (name a)).filter (·.parent == u) := by
  have hu : parent ≠ u := by
    rintro rfl
    exact h List.mem_cons_self
  rw [visits, List.filter_cons_of_neg (by simpa using hu), List.filter_append,
    filter_parent_visits_eq_nil h, List.append_nil]

/-- So are those below the other roots. -/
theorem filter_parent_visits_rest (hu : parent ≠ u) (h : u ∉ name a :: below.names name) :
    ((cons a below rest).visits name parent).filter (·.parent == u) =
      (rest.visits name parent).filter (·.parent == u) := by
  rw [visits, List.filter_cons_of_neg (by simpa using hu), List.filter_append,
    filter_parent_visits_eq_nil h, List.nil_append]

/-- The roots are the visits on the given parent. -/
theorem filter_parent_visits_roots (h : parent ∉ name a :: below.names name) :
    ((cons a below rest).visits name parent).filter (·.parent == parent) =
      ⟨parent, a⟩ :: (rest.visits name parent).filter (·.parent == parent) := by
  rw [visits, List.filter_cons_of_pos (by simp), List.filter_append,
    filter_parent_visits_eq_nil h, List.nil_append]

end Cons

/-! ### Sorting and relabelling -/

variable {cmp : α → α → Ordering}

theorem visits_insertBy (name : α → String) (parent : String) (a : α) (below f : Forest α) :
    ((insertBy cmp a below f).visits name parent).Perm ((cons a below f).visits name parent) := by
  induction f with
  | nil => rfl
  | cons b below' rest _ ihr =>
    by_cases h : TreeLE cmp (a, below) (b, below')
    · rw [insertBy_of_le _ h]
    · rw [insertBy_of_not_le _ h]
      -- The tree with root `b` is passed over; the rest is the induction hypothesis.
      refine ((ihr.append_left _).cons _).trans ?_
      exact List.perm_append_comm_assoc (Visit.mk parent b :: below'.visits name (name b))
        (Visit.mk parent a :: below.visits name (name a)) _

/-- **Sorting moves visits around,** but makes no new ones and forgets none. -/
theorem visits_canonical (parent : String) (f : Forest α) :
    ((f.canonical cmp).visits name parent).Perm (f.visits name parent) := by
  induction f generalizing parent with
  | nil => rfl
  | cons a below rest ihb ihr =>
    exact (visits_insertBy name parent a _ _).trans (((ihb (name a)).append (ihr parent)).cons _)

theorem labels_canonical (f : Forest α) : (f.canonical cmp).labels.Perm f.labels := by
  induction f with
  | nil => rfl
  | cons a below rest ihb ihr =>
    have h : ((canonical cmp (cons a below rest)).visits (fun _ => "") "").Perm
        ((cons a (below.canonical cmp) (rest.canonical cmp)).visits (fun _ => "") "") :=
      visits_insertBy _ _ _ _ _
    have hlabels := h.map (·.label)
    rw [map_label_visits, map_label_visits] at hlabels
    exact hlabels.trans ((ihb.append ihr).cons _)

theorem labels_map (r : α → β) (f : Forest α) : (f.map r).labels = f.labels.map r := by
  induction f with
  | nil => rfl
  | cons a below rest ihb ihr => simp only [map, labels, ihb, ihr, List.map_cons, List.map_append]

/-- A forest is known by its outline and its names, if the labels are. -/
theorem eq_of_map_eq_of_names_eq (r : α → β) (name : α → String)
    (hr : ∀ a b, r a = r b → name a = name b → a = b) {f g : Forest α} (hm : f.map r = g.map r)
    (hn : f.names name = g.names name) : f = g := by
  induction f generalizing g with
  | nil => cases g with
    | nil => rfl
    | cons => simp [map] at hm
  | cons a below rest ihb ihr =>
    cases g with
    | nil => simp [map] at hm
    | cons b below' rest' =>
      simp only [map, cons.injEq] at hm
      simp only [names_cons, List.cons.injEq] at hn
      have hlen : (below.names name).length = (below'.names name).length := by
        have := congrArg (fun f => f.labels.length) hm.2.1
        simpa only [names, labels_map, List.length_map] using this
      obtain ⟨hb, hr'⟩ := List.append_inj hn.2 hlen
      rw [hr a b hm.1 hn.1, ihb hm.2.1 hb, ihr hm.2.2 hr']

end Forest

/-! ### The visits of a queue -/

/-- The visits that the forests of a queue have to offer. -/
def queueVisits (name : α → String) (queue : List (String × Forest α)) : List (Visit α) :=
  queue.flatMap fun (parent, f) => f.visits name parent

/-- The names of the parents and the labels of a queue. -/
def queueNames (name : α → String) (queue : List (String × Forest α)) : List String :=
  queue.flatMap fun (parent, f) => parent :: f.names name

@[simp]
theorem queueVisits_cons (parent : String) (f : Forest α) (queue : List (String × Forest α)) :
    queueVisits name ((parent, f) :: queue) = f.visits name parent ++ queueVisits name queue := rfl

@[simp]
theorem queueNames_cons (parent : String) (f : Forest α) (queue : List (String × Forest α)) :
    queueNames name ((parent, f) :: queue) =
      parent :: f.names name ++ queueNames name queue := rfl

@[simp]
theorem queueVisits_append (queue queue' : List (String × Forest α)) :
    queueVisits name (queue ++ queue') = queueVisits name queue ++ queueVisits name queue' :=
  List.flatMap_append

theorem parent_mem_of_mem_queueVisits {queue : List (String × Forest α)} {v : Visit α}
    (h : v ∈ queueVisits name queue) : v.parent ∈ queueNames name queue := by
  obtain ⟨⟨parent, f⟩, hf, hv⟩ := List.mem_flatMap.mp h
  exact List.mem_flatMap.mpr ⟨(parent, f), hf, Forest.parent_mem_of_mem_visits hv⟩

/-- One step of the walk keeps the names of the queue. -/
theorem queueNames_step (parent : String) (a : α) (below rest : Forest α)
    (queue : List (String × Forest α)) :
    (queueNames name ((parent, rest) :: queue ++ [(name a, below)])).Perm
      (queueNames name ((parent, .cons a below rest) :: queue)) := by
  have h : ((rest.names name ++ queueNames name queue) ++ (name a :: below.names name)).Perm
      ((name a :: below.names name) ++ (rest.names name ++ queueNames name queue)) :=
    List.perm_append_comm
  simpa [queueNames] using h

/-! ### What the walk lists -/

/-- **The walk makes the visits of its queue,** each once. -/
theorem walk_perm (name : α → String) (queue : List (String × Forest α)) :
    (walk name queue).Perm (queueVisits name queue) := by
  fun_induction walk name queue with
  | case1 => rfl
  | case2 parent queue ih => exact ih
  | case3 parent a below rest queue ih =>
    have h : ((rest.visits name parent ++ queueVisits name queue) ++
          below.visits name (name a)).Perm
        (below.visits name (name a) ++ (rest.visits name parent ++ queueVisits name queue)) :=
      List.perm_append_comm
    exact (ih.cons _).trans (by simpa [queueVisits, Forest.visits] using h)

theorem walk_singleton_perm (parent : String) (f : Forest α) :
    (walk name [(parent, f)]).Perm (f.visits name parent) := by
  simpa [queueVisits] using walk_perm name [(parent, f)]

/-- Of two lists without a common parent, the visits with one parent may be taken in either
order. -/
theorem filter_parent_append_comm {vs ws : List (Visit α)} (u : String)
    (h : ∀ v ∈ vs, ∀ w ∈ ws, v.parent ≠ w.parent) :
    (vs ++ ws).filter (·.parent == u) = (ws ++ vs).filter (·.parent == u) := by
  rw [List.filter_append, List.filter_append]
  by_cases hv : ∃ v ∈ vs, v.parent = u
  · obtain ⟨v, hv, rfl⟩ := hv
    have hw : ws.filter (·.parent == v.parent) = [] :=
      List.filter_eq_nil_iff.mpr fun w hw => by simpa using (h v hv w hw).symm
    rw [hw, List.append_nil, List.nil_append]
  · have hv : vs.filter (·.parent == u) = [] :=
      List.filter_eq_nil_iff.mpr fun v hm => by simpa using fun e => hv ⟨v, hm, e⟩
    rw [hv, List.append_nil, List.nil_append]

/-- **The walk keeps siblings in their order.** Breadth first or depth first, the visits with one
parent are the same list. -/
theorem filter_parent_walk (u : String) {queue : List (String × Forest α)}
    (h : (queueNames name queue).Nodup) :
    (walk name queue).filter (·.parent == u) =
      (queueVisits name queue).filter (·.parent == u) := by
  fun_induction walk name queue with
  | case1 => rfl
  | case2 parent queue ih => exact ih (h.sublist (List.sublist_cons_self _ _))
  | case3 parent a below rest queue ih =>
    have ih := ih ((queueNames_step parent a below rest queue).nodup_iff.mpr h)
    have hcomm : (below.visits name (name a) ++ queueVisits name ((parent, rest) :: queue)).filter
          (·.parent == u) =
        (queueVisits name ((parent, rest) :: queue) ++ below.visits name (name a)).filter
          (·.parent == u) := by
      refine filter_parent_append_comm u fun v hv w hw => ?_
      have hv := Forest.parent_mem_of_mem_visits hv
      have hw := parent_mem_of_mem_queueVisits hw
      intro e
      rw [e] at hv
      simp only [queueNames_cons, Forest.names_cons] at h hw
      grind
    -- What hangs below the label is last in the walk and first in the depth-first list.
    have hrest : (walk name ((parent, rest) :: queue ++ [(name a, below)])).filter
          (·.parent == u) =
        (below.visits name (name a) ++ (rest.visits name parent ++ queueVisits name queue)).filter
          (·.parent == u) := by
      rw [ih, ← queueVisits_cons, hcomm, queueVisits_append]
      simp only [queueVisits, List.flatMap_cons, List.flatMap_nil, List.append_nil]
    change _ = (⟨parent, a⟩ :: ((below.visits name (name a) ++ rest.visits name parent) ++
      queueVisits name queue)).filter _
    rw [List.filter_cons, List.filter_cons, List.append_assoc, hrest]

/-- Every visit hangs on a name that is known before it, and makes its own name known. -/
def ParentsFirst (name : α → String) (known : List String) : List (Visit α) → Prop
  | [] => True
  | v :: rest => v.parent ∈ known ∧ ParentsFirst name (known ++ [name v.label]) rest

/-- **The walk goes to a parent before its children.** -/
theorem parentsFirst_walk {known : List String} {queue : List (String × Forest α)}
    (h : ∀ entry ∈ queue, entry.1 ∈ known) : ParentsFirst name known (walk name queue) := by
  fun_induction walk name queue generalizing known with
  | case1 => trivial
  | case2 parent queue ih => exact ih fun entry he => h entry (List.mem_cons_of_mem _ he)
  | case3 parent a below rest queue ih =>
    have hp : parent ∈ known := h _ List.mem_cons_self
    refine ⟨hp, ih fun entry he => ?_⟩
    rcases List.mem_append.mp he with he | he
    · rcases List.mem_cons.mp he with rfl | he
      · exact List.mem_append_left _ hp
      · exact List.mem_append_left _ (h _ (List.mem_cons_of_mem _ he))
    · rw [List.mem_singleton.mp he]
      exact List.mem_append_right _ (List.mem_singleton.mpr rfl)

/-- **A relabelling of the forests relabels the walk.** -/
theorem walk_map {name' : β → String} {r : α → β} {ψ : String → String}
    (h : ∀ a, name' (r a) = ψ (name a)) (queue : List (String × Forest α)) :
    walk name' (queue.map fun (parent, f) => (ψ parent, f.map r)) =
      (walk name queue).map fun v => ⟨ψ v.parent, r v.label⟩ := by
  fun_induction walk name queue with
  | case1 => rw [List.map_nil, List.map_nil, walk]
  | case2 parent queue ih =>
    simp only [List.map_cons, Forest.map, walk]
    exact ih
  | case3 parent a below rest queue ih =>
    simp only [List.map_cons, Forest.map, walk, h]
    rw [← ih]
    simp only [List.cons_append, List.map_cons, List.map_append, List.map_nil]

end PatternQuery
