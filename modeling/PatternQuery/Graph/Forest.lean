/-!
# Ordered forests

An ordered forest of labelled trees, written as a chain: a first tree, given by its label and the
forest below it, followed by the rest of the forest. Children of a node and trees of a forest are
the same kind of thing, so one recursion serves for both.

`Forest.sortBy` sorts the trees of a forest. Trees are compared by their labels and then, level by
level, by the forests below them, and trees that compare equal keep their order. `walk` lists the
labels breadth first.
-/

namespace PatternQuery

/-- An ordered forest. -/
inductive Forest (α : Type) where
  | nil
  /-- A forest whose first tree has the label `label` and the trees of `below` under its root. -/
  | cons (label : α) (below rest : Forest α)
  deriving Repr, DecidableEq

namespace Forest

variable {α β : Type}

/-- The number of nodes. -/
def size : Forest α → Nat
  | nil => 0
  | cons _ below rest => below.size + rest.size + 1

/-- Replaces every label. -/
def map (f : α → β) : Forest α → Forest β
  | nil => nil
  | cons a below rest => cons (f a) (below.map f) (rest.map f)

/-- The trees of a forest, each as its root label and the forest below it. -/
def trees : Forest α → List (α × Forest α)
  | nil => []
  | cons a below rest => (a, below) :: rest.trees

/-- Compares two forests as lists of trees: the first trees decide if they differ, first by their
labels and then by the forests below them, and a forest that ends sooner comes first. -/
def compareBy (cmp : α → α → Ordering) : Forest α → Forest α → Ordering
  | nil, nil => .eq
  | nil, cons .. => .lt
  | cons .., nil => .gt
  | cons a below rest, cons b below' rest' =>
    (cmp a b).then ((compareBy cmp below below').then (compareBy cmp rest rest'))

/-- Puts a tree in front of the first tree that is not smaller. -/
def insertBy (cmp : α → α → Ordering) (a : α) (below : Forest α) : Forest α → Forest α
  | nil => cons a below nil
  | cons b below' rest =>
    if ((cmp a b).then (compareBy cmp below below')).isLE then cons a below (cons b below' rest)
    else cons b below' (insertBy cmp a below rest)

/-- **Sorts the trees of a forest,** the last tree first, so that trees which compare equal keep their
order. What is below the roots stays as it is. -/
def sortBy (cmp : α → α → Ordering) : Forest α → Forest α
  | nil => nil
  | cons a below rest => insertBy cmp a below (rest.sortBy cmp)

end Forest

/-- A label met on a walk, and what is known of its parent. -/
structure Visit (α : Type) where
  parent : String
  label : α
  deriving Repr, DecidableEq

/-- What is left to do on a walk: twice the labels that are left, and once the forests. -/
def pending {α : Type} : List (String × Forest α) → Nat
  | [] => 0
  | (_, f) :: queue => 2 * f.size + 1 + pending queue

theorem pending_concat {α : Type} (parent : String) (f : Forest α)
    (queue : List (String × Forest α)) :
    pending (queue ++ [(parent, f)]) = pending queue + (2 * f.size + 1) := by
  induction queue with
  | nil => simp [pending]
  | cons entry queue ih => simp only [List.cons_append, pending, ih]; omega

/-- **The breadth-first walk** over a queue of forests, each with the name of its parent. The trees
of the first forest come next, and the forest below each of them, under the name that `name` gives
to its root, goes to the end of the queue. -/
def walk {α : Type} (name : α → String) : List (String × Forest α) → List (Visit α)
  | [] => []
  | (_, .nil) :: queue => walk name queue
  | (parent, .cons a below rest) :: queue =>
    ⟨parent, a⟩ :: walk name ((parent, rest) :: queue ++ [(name a, below)])
termination_by queue => pending queue
decreasing_by
  · simp [pending]
  · simp only [List.cons_append, pending, pending_concat, Forest.size]; omega

end PatternQuery
