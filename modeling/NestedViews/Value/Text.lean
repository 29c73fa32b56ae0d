import NestedViews.Binary64.Text
import NestedViews.Calendar.Instant
import NestedViews.Value.Basic

namespace NestedViews.Value

open Calendar Text

def dateText (days : Int) : List Char :=
  if inRange days then (Civil.ofDays days).write else signedDigits days

def timestampText (micros : Int) : List Char :=
  if inRange (dayOf micros) then writeInstant micros else signedDigits micros

def chars : Value → List Char
  | .int64 n => signedDigits n.toInt
  | .float64 x => x.write
  | .bool b => (if b then "true" else "false").toList
  | .string s => s.toList
  | .date days => dateText days.toInt
  | .timestamp micros => timestampText micros.toInt
  | .null => "NULL".toList

def text (v : Value) : String :=
  String.ofList v.chars

end NestedViews.Value
