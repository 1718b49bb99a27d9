import PatternQuery.Config.Metadata
import PatternQuery.Payload.View

/-!
# Running a query

The library does not run queries itself. A backend is a function from requests to payloads, or to
one of three kinds of failure. A request carries a configuration and says whether the payload is
wanted flattened.
-/

namespace PatternQuery

/-- What is sent to a backend. -/
structure QueryRequest where
  config : Config
  /-- Whether the payload should be one object with a path for every cell. -/
  flatten : Bool
  deriving Repr, DecidableEq

/-- Writes a request: the members of the configuration, and the flag. -/
def QueryRequest.toJson (r : QueryRequest) : Json :=
  .obj (r.config.members ++ [("flatten", .bool r.flatten)])

/-- A backend. -/
abbrev Backend := QueryRequest → Except BackendError Json

/-- What a backend answered. -/
structure QueryAnswer where
  payload : Json
  /-- The flag of the request. -/
  flatten : Bool

/-- Sends a configuration to a backend. -/
def Backend.run (backend : Backend) (config : Config) (flatten : Bool) :
    Except QueryError QueryAnswer :=
  match backend ⟨config, flatten⟩ with
  | .ok payload => .ok ⟨payload, flatten⟩
  | .error e => .error (.backend e)

/-- The answer made ready for display. -/
def QueryAnswer.view (a : QueryAnswer) (options : ShapeOptions) : View :=
  View.ofPayload a.payload a.flatten options

end PatternQuery
