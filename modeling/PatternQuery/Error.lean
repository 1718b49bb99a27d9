import PatternQuery.Graph.Rooted
import PatternQuery.Config.Basic
import PatternQuery.Payload.CellPath

/-!
# Failures of the library

Every operation has its own type of errors. This module joins them, for operations that can fail in
more than one way. Each error has a code, which is stable, and a message for people.
-/

namespace PatternQuery

/-- Why a backend gave no payload. -/
inductive BackendError where
  /-- The backend refused the request. -/
  | rejected (reason : String)
  /-- The backend could not be reached. -/
  | unavailable (reason : String)
  | failed (reason : String)
  deriving Repr, DecidableEq

/-- The stable name of the error. -/
def BackendError.code : BackendError → String
  | rejected _ => "ExecutorRejected"
  | unavailable _ => "ExecutorUnavailable"
  | failed _ => "ExecutorFailed"

/-- The text of the error. -/
def BackendError.message : BackendError → String
  | rejected reason => "request rejected: " ++ reason
  | unavailable reason => "executor unavailable: " ++ reason
  | failed reason => "executor failed: " ++ reason

/-- Any failure of the library. -/
inductive QueryError where
  | graph (e : GraphError)
  | pattern (e : PatternError)
  | column (e : ColumnError)
  | config (e : ConfigError)
  | backend (e : BackendError)
  | cellPath (e : CellPathError)
  /-- A value could not be read. -/
  | serialization (e : DecodeError)
  /-- A step was taken that is not allowed at this point. -/
  | invalidArgument (reason : String)
  deriving Repr, DecidableEq

namespace QueryError

/-- The stable name of the error. -/
def code : QueryError → String
  | graph e => e.code
  | pattern e => e.code
  | column e => e.code
  | config e => e.code
  | backend e => e.code
  | cellPath e => e.code
  | serialization _ => "Serialization"
  | invalidArgument _ => "InvalidArgument"

/-- The text of the error. -/
def message : QueryError → String
  | graph e => e.message
  | pattern e => e.message
  | column e => e.message
  | config e => e.message
  | backend e => e.message
  | cellPath e => e.message
  | serialization e => "serialization error: " ++ e.message
  | invalidArgument reason => "invalid argument: " ++ reason

/-- Code and text in one line. -/
def withCode (e : QueryError) : String :=
  "[" ++ e.code ++ "] " ++ e.message

end QueryError

end PatternQuery
