import NestedViews.Catalog.Build
import NestedViews.Snapshot.Bytes

namespace NestedViews.Snapshot

def numberedTypes : List ValueType :=
  [.int64, .float64, .bool, .string, .date, .timestamp]

def typeNumber (type : ValueType) : Nat :=
  numberedTypes.idxOf type

def encodeType (type : ValueType) : List UInt8 :=
  littleEndian 4 (typeNumber type)

def encodeElement (e : Element) : List UInt8 :=
  encodeText e.name ++ encodeType e.type

def encodeBinding (b : Binding) : List UInt8 :=
  encodeText b.element ++ encodeOption encodeType b.expected

def encodeTemplate (t : QueryTemplate) : List UInt8 :=
  encodeText t.query ++ encodeList encodeBinding t.bindings

def encodeDefinition (d : GroupDefinition) : List UInt8 :=
  encodeText d.name ++ encodeList encodeElement d.elements ++
    encodeOption encodeTemplate d.template ++ encodeOption encodeText d.parent

def decodeType : Decoder ValueType := do
  let number ← decodeNat 4
  match numberedTypes[number]? with
  | some type => return type
  | none => throw (.typeNumber number)

def decodeElement : Decoder Element := do
  return ⟨← decodeText, ← decodeType⟩

def decodeBinding : Decoder Binding := do
  return ⟨← decodeText, ← decodeOption decodeType⟩

def decodeTemplate : Decoder QueryTemplate := do
  return ⟨← decodeText, ← decodeList decodeBinding⟩

def decodeDefinition : Decoder GroupDefinition := do
  return ⟨← decodeText, ← decodeList decodeElement, ← decodeOption decodeTemplate,
    ← decodeOption decodeText⟩

end NestedViews.Snapshot

namespace NestedViews.Catalog

def encode (c : Catalog) : List UInt8 :=
  Snapshot.encodeList Snapshot.encodeDefinition (c.groups.map Group.definition)

/-- The catalog of a snapshot, checked as if its definitions were registered one after the other.
Bytes after the snapshot are left aside. -/
def decode (bytes : List UInt8) : Except Error Catalog :=
  match (Snapshot.decodeList Snapshot.decodeDefinition).run bytes with
  | .ok (definitions, _) => ofDefinitions definitions
  | .error fault => .error (.catalog (.undecodable fault))

end NestedViews.Catalog
