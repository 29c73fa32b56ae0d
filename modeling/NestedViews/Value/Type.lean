namespace NestedViews

inductive ValueType
  | int64
  | float64
  | bool
  | string
  | date
  | timestamp
  deriving DecidableEq, Repr, Inhabited

namespace ValueType

def name : ValueType → String
  | .int64 => "INT64"
  | .float64 => "FLOAT64"
  | .bool => "BOOL"
  | .string => "STRING"
  | .date => "DATE"
  | .timestamp => "TIMESTAMP"

def canBecome : ValueType → ValueType → Bool
  | _, .string => true
  | .string, _ => true
  | .int64, .float64 => true
  | .int64, .timestamp => true
  | .float64, .int64 => true
  | .timestamp, .int64 => true
  | .date, .timestamp => true
  | source, target => source == target

end ValueType

end NestedViews
