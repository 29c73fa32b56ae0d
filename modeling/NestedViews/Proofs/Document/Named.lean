import NestedViews.Document.Encoding
import NestedViews.Proofs.Snapshot.Text

/-! Documents as trees of names and values. Such a tree is laid out in bytes part after part: the
name of the group, the values under the names of their elements, and the collections. It is read
back from these bytes, and from no others. -/

namespace NestedViews

open Snapshot

namespace Value

def kind : Value → Nat
  | .int64 _ => 0
  | .float64 _ => 1
  | .bool _ => 2
  | .string _ => 3
  | .date _ => 4
  | .timestamp _ => 5
  | .null => 6

def contents : Value → List UInt8
  | .int64 n => littleEndian 8 n.toUInt64.toNat
  | .float64 x => littleEndian 8 x.bits.toNat
  | .bool b => [if b then 1 else 0]
  | .string s => encodeText s
  | .date days => littleEndian 4 days.toUInt32.toNat
  | .timestamp micros => littleEndian 8 micros.toUInt64.toNat
  | .null => []

theorem kind_lt (v : Value) : v.kind < 7 := by
  cases v <;> simp [kind]

theorem encode_eq (v : Value) : v.encode = littleEndian 4 v.kind ++ v.contents := by
  cases v <;> rfl

end Value

section Values

def decodeInt64 : Decoder Int64 := do
  return (UInt64.ofNat (← decodeNat 8)).toInt64

def decodeInt32 : Decoder Int32 := do
  return (UInt32.ofNat (← decodeNat 4)).toInt32

def decodeFloat : Decoder Binary64 := do
  return ⟨.ofNat (← decodeNat 8)⟩

def decodeBool : Decoder Bool := do
  match ← byte with
  | 0 => return false
  | 1 => return true
  | n => throw (.optionTag n)

def decodeContents : Nat → Decoder Value
  | 0 => return .int64 (← decodeInt64)
  | 1 => return .float64 (← decodeFloat)
  | 2 => return .bool (← decodeBool)
  | 3 => return .string (← decodeText)
  | 4 => return .date (← decodeInt32)
  | 5 => return .timestamp (← decodeInt64)
  | 6 => return .null
  | kind => throw (.optionTag kind)

def decodeValue : Decoder Value := do
  decodeContents (← decodeNat 4)

theorem codes_int64 :
    Codes (fun _ => True) (fun n : Int64 => littleEndian 8 n.toUInt64.toNat) decodeInt64 := by
  refine (codes_nat 8).map (fun n => ⟨fun _ => ?_, fun _ => trivial⟩) fun m hm => ?_
  · exact ⟨n.toUInt64.toNat, n.toUInt64.toNat_lt, by rw [UInt64.ofNat_toNat]; rfl⟩
  · exact congrArg (littleEndian 8) (UInt64.toNat_ofNat_of_lt' hm)

theorem codes_int32 :
    Codes (fun _ => True) (fun n : Int32 => littleEndian 4 n.toUInt32.toNat) decodeInt32 := by
  refine (codes_nat 4).map (fun n => ⟨fun _ => ?_, fun _ => trivial⟩) fun m hm => ?_
  · exact ⟨n.toUInt32.toNat, n.toUInt32.toNat_lt, by rw [UInt32.ofNat_toNat]; rfl⟩
  · exact congrArg (littleEndian 4) (UInt32.toNat_ofNat_of_lt' hm)

theorem codes_float :
    Codes (fun _ => True) (fun x : Binary64 => littleEndian 8 x.bits.toNat) decodeFloat := by
  refine (codes_nat 8).map (fun x => ⟨fun _ => ?_, fun _ => trivial⟩) fun m hm => ?_
  · exact ⟨x.bits.toNat, x.bits.toNat_lt, by rw [UInt64.ofNat_toNat]⟩
  · exact congrArg (littleEndian 8) (UInt64.toNat_ofNat_of_lt' hm)

theorem codes_bool : Codes (fun _ => True) (fun b => [if b then 1 else 0]) decodeBool where
  reads b rest _ _ := by
    cases b <;> rfl
  exact bytes b rest hread := by
    obtain ⟨n, more, hbyte, hread'⟩ := Decoder.bind_eq_ok_iff.mp hread
    obtain ⟨_, rfl⟩ := codes_byte.exact _ _ _ hbyte
    split at hread'
    · obtain ⟨rfl, rfl⟩ := Decoder.pure_eq_ok_iff.mp hread'
      exact ⟨trivial, rfl⟩
    · obtain ⟨rfl, rfl⟩ := Decoder.pure_eq_ok_iff.mp hread'
      exact ⟨trivial, rfl⟩
    · cases hread'

theorem codes_contents (kind : Nat) :
    Codes (fun v : Value => v.kind = kind) Value.contents (decodeContents kind) := by
  unfold decodeContents
  split
  case h_1 =>
    exact codes_int64.map (fun v => by cases v <;> simp [Value.kind]) fun _ _ => rfl
  case h_2 =>
    exact codes_float.map (fun v => by cases v <;> simp [Value.kind]) fun _ _ => rfl
  case h_3 =>
    exact codes_bool.map (fun v => by cases v <;> simp [Value.kind]) fun _ _ => rfl
  case h_4 =>
    exact codes_text.map (fun v => by cases v <;> simp [Value.kind]) fun _ _ => rfl
  case h_5 =>
    exact codes_int32.map (fun v => by cases v <;> simp [Value.kind]) fun _ _ => rfl
  case h_6 =>
    exact codes_int64.map (fun v => by cases v <;> simp [Value.kind]) fun _ _ => rfl
  case h_7 =>
    have hnull : ∀ v : Value, v.kind = 6 ↔ v = .null := fun v => by cases v <;> simp [Value.kind]
    refine (Codes.pure hnull).congr fun v hv => ?_
    rw [(hnull v).mp hv]
    rfl
  case h_8 =>
    constructor
    · rintro v rest rfl
      cases v <;> simp [Value.kind] at *
    · rintro bytes v rest ⟨⟩

theorem codes_value : Codes (fun _ => True) Value.encode decodeValue := by
  refine ((codes_nat 4).bind Value.kind (fun kind _ => ?_) fun v _ _ => ?_).congr
    fun v _ => v.encode_eq.symm
  · exact (codes_contents kind).of_iff fun v => ⟨fun h => ⟨trivial, h⟩, And.right⟩
  · exact v.kind_lt.trans (by decide)

def encodeNamed (v : String × Value) : List UInt8 :=
  encodeText v.1 ++ v.2.encode

def decodeNamed : Decoder (String × Value) := do
  return (← decodeText, ← decodeValue)

theorem codes_named : Codes (fun _ => True) encodeNamed decodeNamed := by
  refine codes_text.bind Prod.fst (fun name _ => ?_) fun _ _ _ => trivial
  refine codes_value.last Prod.snd (fun v named _ => ?_) fun _ _ => trivial
  rw [Prod.ext_iff, true_and]

theorem encodeNamed_ne_nil (v : String × Value) : encodeNamed v ≠ [] :=
  List.append_ne_nil_of_left_ne_nil (encodeText_ne_nil v.1) _

end Values

mutual

inductive NamedNode
  | mk (group : Option String) (values : List (String × Value))
    (collections : List NamedCollection)

inductive NamedCollection
  | mk (group : String) (nodes : List NamedNode)

end

mutual

def NamedNode.encode : NamedNode → List UInt8
  | .mk group values collections =>
    encodeOption encodeText group ++ (encodeList encodeNamed values ++
      (encodeLength collections.length ++ NamedNode.encodeCollections collections))

def NamedNode.encodeCollections : List NamedCollection → List UInt8
  | [] => []
  | .mk group nodes :: rest =>
    (encodeText group ++ (encodeLength nodes.length ++ NamedNode.encodeNodes nodes)) ++
      NamedNode.encodeCollections rest

def NamedNode.encodeNodes : List NamedNode → List UInt8
  | [] => []
  | n :: rest => n.encode ++ NamedNode.encodeNodes rest

end

namespace NamedCollection

def group : NamedCollection → String
  | .mk group _ => group

def nodes : NamedCollection → List NamedNode
  | .mk _ nodes => nodes

def encode (collection : NamedCollection) : List UInt8 :=
  encodeText collection.group ++ encodeList NamedNode.encode collection.nodes

theorem encode_ne_nil (collection : NamedCollection) : collection.encode ≠ [] :=
  List.append_ne_nil_of_left_ne_nil (encodeText_ne_nil collection.group) _

end NamedCollection

namespace NamedNode

def group : NamedNode → Option String
  | .mk group _ _ => group

def values : NamedNode → List (String × Value)
  | .mk _ values _ => values

def collections : NamedNode → List NamedCollection
  | .mk _ _ collections => collections

theorem encodeNodes_eq (nodes : List NamedNode) : encodeNodes nodes = nodes.flatMap encode :=
  eq_flatMap rfl (fun _ _ => rfl) nodes

theorem encodeCollections_eq (collections : List NamedCollection) :
    encodeCollections collections = collections.flatMap NamedCollection.encode := by
  refine eq_flatMap rfl ?_ collections
  rintro ⟨group, nodes⟩ rest
  rw [encodeCollections, encodeNodes_eq]
  rfl

theorem encode_eq (n : NamedNode) : n.encode = encodeOption encodeText n.group ++
    (encodeList encodeNamed n.values ++ encodeList NamedCollection.encode n.collections) := by
  obtain ⟨group, values, collections⟩ := n
  rw [encode, encodeCollections_eq]
  rfl

theorem encode_ne_nil (n : NamedNode) : n.encode ≠ [] := by
  rw [encode_eq]
  cases n.group <;> simp [encodeOption]

def Within : Nat → NamedNode → Prop
  | 0, _ => False
  | depth + 1, n => ∀ collection ∈ n.collections, ∀ m ∈ collection.nodes, Within depth m

end NamedNode

def decodeCollection (decodeNode : Decoder NamedNode) : Decoder NamedCollection := do
  return .mk (← decodeText) (← decodeList decodeNode)

def decodeNode : Nat → Decoder NamedNode
  | 0 => throw .endOfInput
  | depth + 1 => do
    return .mk (← decodeOption decodeText) (← decodeList decodeNamed)
      (← decodeList (decodeCollection (decodeNode depth)))

/-- Reads a document. A node takes a byte at least, so not more nodes are on top of each other than
there are bytes. -/
def NamedNode.decode : Decoder NamedNode := fun bytes =>
  decodeNode bytes.length bytes

section Nodes

variable {depth : Nat}

theorem codes_collection (h : Codes (NamedNode.Within depth) NamedNode.encode (decodeNode depth)) :
    Codes (fun collection => ∀ n ∈ collection.nodes, n.Within depth) NamedCollection.encode
      (decodeCollection (decodeNode depth)) := by
  refine codes_text.bind NamedCollection.group (fun group _ => ?_) fun _ _ _ => trivial
  refine (codes_list h NamedNode.encode_ne_nil).last NamedCollection.nodes
    (fun nodes collection hnodes => ?_) fun _ h => h.1
  obtain ⟨group', nodes'⟩ := collection
  simp only [NamedCollection.group, NamedCollection.nodes, NamedCollection.mk.injEq]
  constructor
  · rintro ⟨⟨_, rfl⟩, rfl⟩
    exact ⟨rfl, rfl⟩
  · rintro ⟨rfl, rfl⟩
    exact ⟨⟨hnodes, rfl⟩, rfl⟩

theorem codes_node (depth : Nat) :
    Codes (NamedNode.Within depth) NamedNode.encode (decodeNode depth) := by
  induction depth with
  | zero =>
    constructor
    · rintro n rest ⟨⟩
    · rintro bytes n rest ⟨⟩
  | succ depth ih =>
    -- The parts are read in turn, the nodes of the collections with less depth left.
    rw [funext NamedNode.encode_eq]
    refine (codes_option codes_text).bind NamedNode.group (fun group _ => ?_)
      fun _ _ _ _ _ => trivial
    refine (codes_list codes_named encodeNamed_ne_nil).bind NamedNode.values (fun values _ => ?_)
      fun _ _ _ _ _ => trivial
    refine (codes_list (codes_collection ih) NamedCollection.encode_ne_nil).last
      NamedNode.collections (fun collections n hcollections => ?_) fun _ h => h.1.1
    obtain ⟨group', values', collections'⟩ := n
    simp only [NamedNode.group, NamedNode.values, NamedNode.collections, NamedNode.mk.injEq]
    constructor
    · rintro ⟨⟨⟨_, rfl⟩, rfl⟩, rfl⟩
      exact ⟨rfl, rfl, rfl⟩
    · rintro ⟨rfl, rfl, rfl⟩
      exact ⟨⟨⟨hcollections, rfl⟩, rfl⟩, rfl⟩

theorem length_le_encodeList {α : Type} {encode : α → List UInt8} {items : List α} {a : α}
    (ha : a ∈ items) : (encode a).length ≤ (encodeList encode items).length := by
  obtain ⟨before, after, rfl⟩ := List.append_of_mem ha
  simp only [encodeList, List.flatMap_append, List.flatMap_cons, List.length_append]
  omega

theorem NamedNode.within_of_length (depth : Nat) {n : NamedNode} (h : n.encode.length ≤ depth) :
    n.Within depth := by
  induction depth generalizing n with
  | zero => exact absurd (List.length_eq_zero_iff.mp (Nat.le_zero.mp h)) n.encode_ne_nil
  | succ depth ih =>
    intro collection hcollection m hm
    apply ih
    -- The option in front of the name of the group is written for the outer node alone.
    have hinner : m.encode.length ≤ (encodeList NamedNode.encode collection.nodes).length :=
      length_le_encodeList hm
    have houter : collection.encode.length ≤
        (encodeList NamedCollection.encode n.collections).length := length_le_encodeList hcollection
    have hpos : 0 < (encodeOption encodeText n.group).length := by
      cases n.group <;> simp [encodeOption]
    rw [NamedCollection.encode, List.length_append] at houter
    rw [NamedNode.encode_eq, List.length_append, List.length_append] at h
    omega

theorem codes_document : Codes (fun _ => True) NamedNode.encode NamedNode.decode where
  reads n rest _ hsize := by
    refine (codes_node _).reads n rest (NamedNode.within_of_length _ ?_) hsize
    rw [List.length_append]
    exact Nat.le_add_right _ _
  exact bytes n rest hread := ⟨trivial, ((codes_node bytes.length).exact bytes n rest hread).2⟩

end Nodes

end NestedViews
