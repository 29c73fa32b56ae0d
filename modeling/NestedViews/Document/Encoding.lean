import NestedViews.Document.Basic
import NestedViews.Snapshot.Bytes

namespace NestedViews

open Snapshot

def Value.encode : Value → List UInt8
  | .int64 n => littleEndian 4 0 ++ littleEndian 8 n.toUInt64.toNat
  | .float64 x => littleEndian 4 1 ++ littleEndian 8 x.bits.toNat
  | .bool b => littleEndian 4 2 ++ [if b then 1 else 0]
  | .string s => littleEndian 4 3 ++ encodeText s
  | .date days => littleEndian 4 4 ++ littleEndian 4 days.toUInt32.toNat
  | .timestamp micros => littleEndian 4 5 ++ littleEndian 8 micros.toUInt64.toNat
  | .null => littleEndian 4 6

/-- The values of a row under the names of the elements. The length in front is the number of
elements, also where the row is shorter. -/
def encodeValues (elements : List Element) (row : Row) : List UInt8 :=
  encodeLength elements.length ++
    (elements.zip row).flatMap fun (element, v) => encodeText element.name ++ v.encode

mutual

def Node.encode : Node → List UInt8
  | .mk group row collections =>
    encodeOption encodeText (group.map Group.name) ++
      encodeValues ((group.map Group.elements).getD []) row ++
      encodeLength collections.length ++ Node.encodeCollections collections

def Node.encodeCollections : List Collection → List UInt8
  | [] => []
  | .mk group nodes :: rest =>
    encodeText group.name ++ encodeLength nodes.length ++ Node.encodeNodes nodes ++
      Node.encodeCollections rest

def Node.encodeNodes : List Node → List UInt8
  | [] => []
  | n :: rest => n.encode ++ Node.encodeNodes rest

end

end NestedViews
