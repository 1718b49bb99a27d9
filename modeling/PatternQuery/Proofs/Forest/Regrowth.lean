import PatternQuery.Proofs.Forest.Walk

/-!
# Growing a forest from its walk

The walk lists labels with the names of their parents, and where no name occurs twice this is enough to
grow the forest again: `regrow` reads the visits from the last to the first, and gives below every name
what hung there (`regrow_walk`). So what is true of every level of a forest is true of what is grown
from its walk, below any name (`sorted_regrow_walk`).

The walk goes through the parents in the order in which it came to them (`pairwise_parents_walk`): the
names that wait in the queue and the labels that are yet to come are, one after another, a part of one
list without repetition, from which every step takes away the first.
-/

namespace PatternQuery

variable {α : Type} {name : α → String} {cmp : α → α → Ordering}

/-- What hangs below a name, when the visits with this name as their parent are trees that stand in a
row. The visits below a label come behind its own. -/
def regrow (name : α → String) : List (Visit α) → String → Forest α
  | [], _ => .nil
  | v :: rest, u =>
    if v.parent = u then .cons v.label (regrow name rest (name v.label)) (regrow name rest u)
    else regrow name rest u

theorem regrow_cons_of_eq {v : Visit α} {rest : List (Visit α)} {u : String} (h : v.parent = u) :
    regrow name (v :: rest) u =
      .cons v.label (regrow name rest (name v.label)) (regrow name rest u) :=
  if_pos h

theorem regrow_cons_of_ne {v : Visit α} {rest : List (Visit α)} {u : String} (h : v.parent ≠ u) :
    regrow name (v :: rest) u = regrow name rest u :=
  if_neg h

/-- Nothing hangs below a name that is no parent. -/
theorem regrow_eq_nil {vs : List (Visit α)} {u : String} (h : ∀ v ∈ vs, v.parent ≠ u) :
    regrow name vs u = .nil := by
  induction vs with
  | nil => rfl
  | cons v vs ih =>
    rw [regrow_cons_of_ne (h v List.mem_cons_self)]
    exact ih fun w hw => h w (List.mem_cons_of_mem _ hw)

theorem parent_mem_queueNames {queue : List (String × Forest α)} {v : Visit α}
    (h : v ∈ walk name queue) : v.parent ∈ queueNames name queue :=
  parent_mem_of_mem_queueVisits ((walk_perm name queue).mem_iff.mp h)

/-- **What was walked is grown again,** below the name of every entry of the queue. -/
theorem regrow_walk {queue : List (String × Forest α)} (h : (queueNames name queue).Nodup)
    {u : String} {f : Forest α} (hf : (u, f) ∈ queue) : regrow name (walk name queue) u = f := by
  fun_induction walk name queue generalizing u f with
  | case1 => exact absurd hf List.not_mem_nil
  | case2 parent queue ih =>
    obtain ⟨hparent, hqueue⟩ := List.nodup_cons.mp h
    obtain heq | hf := List.mem_cons.mp hf
    · obtain ⟨rfl, rfl⟩ := Prod.mk.inj heq
      refine regrow_eq_nil fun v hv hv' => hparent ?_
      exact hv' ▸ parent_mem_queueNames hv
    · exact ih hqueue hf
  | case3 parent a below rest queue ih =>
    have ih {u : String} {f : Forest α}
        (hf : (u, f) ∈ (parent, rest) :: queue ++ [(name a, below)]) :=
      ih ((queueNames_step parent a below rest queue).nodup_iff.mpr h) hf
    obtain heq | hf := List.mem_cons.mp hf
    · obtain ⟨rfl, rfl⟩ := Prod.mk.inj heq
      rw [regrow_cons_of_eq rfl, ih (f := below) (by simp), ih (f := rest) (by simp)]
    · -- The names of the other entries differ from the first.
      have hne : parent ≠ u := by
        rintro rfl
        have hmem : parent ∈ queueNames name queue :=
          List.mem_flatMap.mpr ⟨_, hf, List.mem_cons_self⟩
        exact (List.nodup_cons.mp h).1 (List.mem_append_right _ hmem)
      rw [regrow_cons_of_ne hne]
      exact ih (List.mem_append_left _ (List.mem_cons_of_mem _ hf))

/-- **Where all levels ascend,** they do so below any name. -/
theorem sorted_regrow_walk {queue : List (String × Forest α)} (h : (queueNames name queue).Nodup)
    (hsorted : ∀ entry ∈ queue, entry.2.Sorted cmp) (u : String) :
    (regrow name (walk name queue) u).Sorted cmp := by
  fun_induction walk name queue with
  | case1 => trivial
  | case2 parent queue ih =>
    exact ih (List.nodup_cons.mp h).2 fun entry he => hsorted entry (List.mem_cons_of_mem _ he)
  | case3 parent a below rest queue ih =>
    have hstep := (queueNames_step parent a below rest queue).nodup_iff.mpr h
    obtain ⟨hbelow, hrest, -⟩ := hsorted _ List.mem_cons_self
    by_cases hu : parent = u
    · -- Below the first name the first forest of the queue is grown, and this ascends.
      subst hu
      rw [regrow_cons_of_eq rfl, regrow_walk hstep (f := below) (by simp),
        regrow_walk hstep (f := rest) (by simp)]
      exact hsorted _ List.mem_cons_self
    · rw [regrow_cons_of_ne hu]
      refine ih hstep fun entry he => ?_
      obtain he | he := List.mem_append.mp he
      · obtain rfl | he := List.mem_cons.mp he
        · exact hrest
        · exact hsorted entry (List.mem_cons_of_mem _ he)
      · obtain rfl := List.mem_singleton.mp he
        exact hbelow

/-! ### The order of the parents -/

/-- The names in the order in which the walk makes use of them: those of the queue, and then those of
the labels that it comes to. -/
def walkNames (name : α → String) (queue : List (String × Forest α)) : List String :=
  queue.map (·.1) ++ (walk name queue).map (name ·.label)

theorem walkNames_nil (parent : String) (queue : List (String × Forest α)) :
    walkNames name ((parent, .nil) :: queue) = parent :: walkNames name queue := by
  rw [walkNames, walk]
  rfl

theorem walkNames_cons (parent : String) (a : α) (below rest : Forest α)
    (queue : List (String × Forest α)) :
    walkNames name ((parent, .cons a below rest) :: queue) =
      walkNames name ((parent, rest) :: queue ++ [(name a, below)]) := by
  rw [walkNames, walk]
  simp [walkNames]

theorem parent_mem_walkNames {queue : List (String × Forest α)} {v : Visit α}
    (h : v ∈ walk name queue) : v.parent ∈ walkNames name queue := by
  fun_induction walk name queue with
  | case1 => exact absurd h List.not_mem_nil
  | case2 parent queue ih =>
    rw [walkNames_nil]
    exact List.mem_cons_of_mem _ (ih h)
  | case3 parent a below rest queue ih =>
    rw [walkNames_cons]
    obtain rfl | h := List.mem_cons.mp h
    · exact List.mem_append_left _ List.mem_cons_self
    · exact ih h

/-- The first of some members in a row of a list without repetition stands before the others. -/
theorem idxOf_le_of_sublist {order later : List String} {u w : String} (h : (u :: later).Sublist order)
    (hnd : order.Nodup) (hw : w ∈ u :: later) : order.idxOf u ≤ order.idxOf w := by
  have hascend : order.Pairwise fun a b => order.idxOf a < order.idxOf b :=
    List.pairwise_iff_getElem.mpr fun i j hi hj hij => by
      rwa [hnd.idxOf_getElem i hi, hnd.idxOf_getElem j hj]
  obtain rfl | hw := List.mem_cons.mp hw
  · exact le_rfl
  · exact (List.rel_of_pairwise_cons (hascend.sublist h) hw).le

/-- **The walk takes the parents in order.** -/
theorem pairwise_parents_walk {order : List String} {queue : List (String × Forest α)}
    (h : (walkNames name queue).Sublist order) (hnd : order.Nodup) :
    ((walk name queue).map fun v => order.idxOf v.parent).Pairwise (· ≤ ·) := by
  fun_induction walk name queue with
  | case1 => exact List.Pairwise.nil
  | case2 parent queue ih =>
    rw [walkNames_nil] at h
    exact ih ((List.sublist_cons_self _ _).trans h)
  | case3 parent a below rest queue ih =>
    rw [walkNames_cons] at h
    refine List.pairwise_cons.mpr ⟨fun i hi => ?_, ih h⟩
    obtain ⟨v, hv, rfl⟩ := List.mem_map.mp hi
    exact idxOf_le_of_sublist h hnd (parent_mem_walkNames hv)

end PatternQuery
