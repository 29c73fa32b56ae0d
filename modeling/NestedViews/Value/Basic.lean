import NestedViews.Binary64.Basic
import NestedViews.Value.Type

namespace NestedViews

/-- A value of a row or a parameter. A date counts days and a timestamp microseconds since the
first day of 1970 began. -/
inductive Value
  | int64 (n : Int64)
  | float64 (x : Binary64)
  | bool (b : Bool)
  | string (s : String)
  | date (days : Int32)
  | timestamp (micros : Int64)
  | null
  deriving DecidableEq, Repr, Inhabited

abbrev Row := List Value

namespace Value

def type? : Value → Option ValueType
  | .int64 _ => some .int64
  | .float64 _ => some .float64
  | .bool _ => some .bool
  | .string _ => some .string
  | .date _ => some .date
  | .timestamp _ => some .timestamp
  | .null => none

def isNull (v : Value) : Bool :=
  v.type?.isNone

def typeName (v : Value) : String :=
  (v.type?.map ValueType.name).getD "NULL"

end Value

end NestedViews
