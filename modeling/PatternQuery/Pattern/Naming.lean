import PatternQuery.Pattern.Basic

/-!
# Naming the occurrences of a walk

The occurrences of a tree are named in the order of a walk, from their schema ids alone. A schema
that occurs once keeps its id as its key. The occurrences of a schema that is repeated are tagged
`id`, `id#2`, `id#3`, and so on, leaving out the tags that are taken: by the id of a schema that
occurs once, or by a tag given earlier in the walk.
-/

namespace PatternQuery.Naming

/-- The tag with a number: the bare id for one, and the id with a number sign and the number
otherwise. -/
def tag (schema : String) (number : Nat) : String :=
  if number = 1 then schema else schema ++ "#" ++ toString number

/-- The least number from `number` on whose tag is not taken. Of any `taken.length + 1` tags in a
row one is free, so that many tries are enough. -/
def freeNumber (taken : List String) (schema : String) : Nat → Nat → Nat
  | 0, number => number
  | fuel + 1, number =>
    if taken.contains (tag schema number) then freeNumber taken schema fuel (number + 1)
    else number

/-- Names the occurrences that are left. `repeated` tells the schemas that occur more than once,
`taken` holds the keys that are no longer free, and `next` the number each repeated schema tries
next. -/
def nameFrom (repeated : String → Bool) (taken : List String) (next : List (String × Nat)) :
    List String → List Occurrence
  | [] => []
  | schema :: rest =>
    if repeated schema then
      let number := freeNumber taken schema (taken.length + 1) ((next.lookup schema).getD 1)
      let tag := tag schema number
      ⟨schema, some tag⟩ ::
        nameFrom repeated (tag :: taken) ((schema, number + 1) :: next) rest
    else ⟨schema, none⟩ :: nameFrom repeated taken next rest

/-- **The occurrences of a walk,** given the schema ids met on it. -/
def ofSchemas (schemas : List String) : List Occurrence :=
  let once := schemas.filter fun s => schemas.count s == 1
  nameFrom (fun s => schemas.count s != 1) once [] schemas

end PatternQuery.Naming
