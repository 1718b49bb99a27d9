/-!
# Association lists in order

Association lists whose keys ascend, each key once. An entry is changed in its place, or comes in at
the place where its key belongs.
-/

namespace PatternQuery.Ordered

variable {κ α : Type}

/-- Changes the value at a key, or puts one in where there was none. -/
def alter (cmp : κ → κ → Ordering) (key : κ) (change : Option α → α) : List (κ × α) → List (κ × α)
  | [] => [(key, change none)]
  | (k, a) :: rest =>
    match cmp key k with
    | .lt => (key, change none) :: (k, a) :: rest
    | .eq => (key, change (some a)) :: rest
    | .gt => (k, a) :: alter cmp key change rest

/-- Puts a value at a key, in place of an earlier one. -/
def insert (cmp : κ → κ → Ordering) (key : κ) (value : α) (entries : List (κ × α)) : List (κ × α) :=
  alter cmp key (fun _ => value) entries

end PatternQuery.Ordered
