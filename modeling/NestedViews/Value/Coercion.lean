import NestedViews.Binary64.Integer
import NestedViews.Error
import NestedViews.Value.Text

namespace NestedViews.Value

open Calendar Text

def int64? (n : Int) : Option Int64 :=
  if (Int64.ofInt n).toInt = n then some (.ofInt n) else none

def parse? (s : String) (target : ValueType) : Option Value :=
  let cs := trim s.toList
  match target with
  | .int64 => (readInt? cs).bind int64? |>.map .int64
  | .float64 => (Binary64.read? cs).map .float64
  | .bool =>
    let word := String.ofList (cs.map Char.toLower)
    if word = "true" then some (.bool true)
    else if word = "false" then some (.bool false)
    else none
  | .string => some (.string (String.ofList cs))
  | .date => (Civil.read? cs).map fun d => .date (.ofInt d.toDays)
  | .timestamp => (readInstant? cs).map fun micros => .timestamp (.ofInt micros)

def convert? : Value → ValueType → Option Value
  | v, .string => some (.string v.text)
  | .int64 n, .float64 => some (.float64 (.ofInt n.toInt))
  | .int64 n, .timestamp => some (.timestamp n)
  | .timestamp micros, .int64 => some (.int64 micros)
  | .float64 x, .int64 => x.toInt64?.map .int64
  | .date days, .timestamp => (int64? (days.toInt * microsPerDay)).map .timestamp
  | .string s, target => parse? s target
  | _, _ => none

def coerce (v : Value) (target : ValueType) : Except Error Value :=
  if v.type? = some target ∨ v.isNull then .ok v
  else
    match v.convert? target with
    | some w => .ok w
    | none => .error (.typeMismatch target.name v.typeName s!"cannot coerce {v.text}")

end NestedViews.Value
