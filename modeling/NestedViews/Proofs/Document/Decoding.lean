import NestedViews.Proofs.Assembly.SingleFault
import NestedViews.Proofs.Assembly.WellFormed
import NestedViews.Proofs.Catalog.Subtree
import NestedViews.Proofs.Document.Named

namespace NestedViews

open Snapshot

variable {c : Catalog} {g : Group} {group : Option Group} {row : Row} {n n' : Node}
variable {collections : List Collection}

def elementsOf (group : Option Group) : List Element :=
  (group.map Group.elements).getD []

def namedValues (group : Option Group) (row : Row) : List (String × Value) :=
  ((elementsOf group).zip row).map fun (element, v) => (element.name, v)

mutual

def Node.named : Node → NamedNode
  | .mk group row collections =>
    .mk (group.map Group.name) (namedValues group row) (Node.namedCollections collections)

def Node.namedCollections : List Collection → List NamedCollection
  | [] => []
  | .mk group nodes :: rest =>
    .mk group.name (Node.namedNodes nodes) :: Node.namedCollections rest

def Node.namedNodes : List Node → List NamedNode
  | [] => []
  | n :: rest => n.named :: Node.namedNodes rest

end

namespace Collection

def named (collection : Collection) : NamedCollection :=
  .mk collection.group.name (collection.nodes.map Node.named)

def encode (collection : Collection) : List UInt8 :=
  encodeText collection.group.name ++ encodeList Node.encode collection.nodes

end Collection

namespace Node

def Fits (n : Node) : Prop :=
  ∀ m ∈ n.preorder, m.row.length = (elementsOf m.group).length

def Over (c : Catalog) (n : Node) : Prop :=
  ∀ m ∈ n.preorder, (∀ g ∈ m.group, g ∈ c.groups) ∧
    ∀ collection ∈ m.collections, collection.group ∈ c.groups

section Layout

theorem namedNodes_eq (nodes : List Node) : namedNodes nodes = nodes.map named :=
  eq_map rfl (fun _ _ => rfl) nodes

theorem namedCollections_eq (collections : List Collection) :
    namedCollections collections = collections.map Collection.named := by
  refine eq_map rfl ?_ collections
  rintro ⟨group, nodes⟩ rest
  rw [namedCollections, namedNodes_eq]
  rfl

theorem named_mk : (mk group row collections).named =
    .mk (group.map Group.name) (namedValues group row) (collections.map Collection.named) := by
  rw [named, namedCollections_eq]

theorem encodeNodes_eq (nodes : List Node) : encodeNodes nodes = nodes.flatMap encode :=
  eq_flatMap rfl (fun _ _ => rfl) nodes

theorem encodeCollections_eq (collections : List Collection) :
    encodeCollections collections = collections.flatMap Collection.encode := by
  refine eq_flatMap rfl ?_ collections
  rintro ⟨group, nodes⟩ rest
  rw [encodeCollections, encodeNodes_eq, List.append_assoc (encodeText _)]
  rfl

theorem encode_mk : (mk group row collections).encode =
    encodeOption encodeText (group.map Group.name) ++
      (encodeValues (elementsOf group) row ++ encodeList Collection.encode collections) := by
  rw [encode, encodeCollections_eq, List.append_assoc, List.append_assoc]
  rfl

theorem encodeValues_eq (hrow : row.length = (elementsOf group).length) :
    encodeValues (elementsOf group) row = encodeList encodeNamed (namedValues group row) := by
  rw [encodeValues, encodeList, namedValues, List.length_map, List.length_zip, hrow,
    Nat.min_self, List.flatMap_map]
  rfl

theorem encodeList_map {α β : Type} {encode : α → List UInt8} {others : β → List UInt8}
    {view : α → β} {items : List α} (h : ∀ a ∈ items, encode a = others (view a)) :
    encodeList encode items = encodeList others (items.map view) := by
  rw [encodeList, encodeList, List.length_map, List.flatMap_map, List.flatMap_congr h]

theorem fits_mk : (mk group row collections).Fits ↔ row.length = (elementsOf group).length ∧
    ∀ collection ∈ collections, ∀ n ∈ collection.nodes, n.Fits :=
  forall_mem_preorder

/-- The bytes of a document whose rows fit are the layout of its tree of names and values. -/
theorem encode_eq_named (h : n.Fits) : n.encode = n.named.encode := by
  induction n using induction with
  | mk group row collections ih =>
    obtain ⟨hrow, hcollections⟩ := fits_mk.mp h
    rw [encode_mk, named_mk, NamedNode.encode_eq, encodeValues_eq hrow]
    have hnested : encodeList Collection.encode collections =
        encodeList NamedCollection.encode (collections.map Collection.named) := by
      refine encodeList_map fun collection hmem => ?_
      rw [Collection.encode, encodeList_map fun n hn => ih collection hmem n hn
        (hcollections collection hmem n hn)]
      rfl
    rw [hnested]
    rfl

end Layout

section Same

variable {collections' : List Collection} {group' : Option Group} {row' : Row}

theorem sameNodes_iff (nodes nodes' : List Node) :
    sameNodes nodes nodes' ↔ List.Forall₂ (fun n n' => n.same n') nodes nodes' := by
  induction nodes generalizing nodes' with
  | nil => cases nodes' <;> simp [sameNodes]
  | cons n nodes ih => cases nodes' <;> simp [sameNodes, ih]

theorem sameCollections_iff (collections collections' : List Collection) :
    sameCollections collections collections' ↔ List.Forall₂ (fun collection collection' =>
      collection.group.name = collection'.group.name ∧
        List.Forall₂ (fun n n' => n.same n') collection.nodes collection'.nodes)
      collections collections' := by
  induction collections generalizing collections' with
  | nil => cases collections' <;> simp [sameCollections]
  | cons collection rest ih =>
    obtain ⟨group, nodes⟩ := collection
    cases collections' with
    | nil => simp [sameCollections]
    | cons collection' rest' =>
      obtain ⟨group', nodes'⟩ := collection'
      simp [sameCollections, ih, sameNodes_iff, Collection.group, Collection.nodes, and_assoc]

theorem same_mk : (mk group row collections).same (mk group' row' collections') ↔
    (group.map Group.name = group'.map Group.name ∧ row = row') ∧
      List.Forall₂ (fun collection collection' => collection.group.name = collection'.group.name ∧
        List.Forall₂ (fun n n' => n.same n') collection.nodes collection'.nodes)
      collections collections' := by
  rw [same, Bool.and_eq_true, Bool.and_eq_true, beq_iff_eq, beq_iff_eq, sameCollections_iff]

theorem over_mk : (mk group row collections).Over c ↔
    ((∀ g ∈ group, g ∈ c.groups) ∧ ∀ collection ∈ collections, collection.group ∈ c.groups) ∧
      ∀ collection ∈ collections, ∀ n ∈ collection.nodes, n.Over c :=
  forall_mem_preorder

theorem map_snd_namedValues (hrow : row.length = (elementsOf group).length) :
    (namedValues group row).map Prod.snd = row := by
  rw [namedValues, List.map_map]
  exact List.map_snd_zip (Nat.le_of_eq hrow)

theorem row_eq_iff (hc : c.Coherent) (hgroup : ∀ g ∈ group, g ∈ c.groups)
    (hgroup' : ∀ g ∈ group', g ∈ c.groups) (hrow : row.length = (elementsOf group).length)
    (hrow' : row'.length = (elementsOf group').length)
    (hname : group.map Group.name = group'.map Group.name) :
    row = row' ↔ namedValues group row = namedValues group' row' := by
  have heq : group = group' := by
    cases group with
    | none => exact (Option.map_eq_none_iff.mp hname.symm).symm
    | some g =>
      obtain ⟨g', rfl, hname'⟩ := Option.map_eq_some_iff.mp hname.symm
      rw [hc.eq_of_name_eq (hgroup g rfl) (hgroup' g' rfl) hname'.symm]
  subst heq
  constructor
  · exact congrArg _
  · intro h
    rw [← map_snd_namedValues hrow, h, map_snd_namedValues hrow']

theorem same_iff_named (hc : c.Coherent) (h : n.Fits) (h' : n'.Fits) (hover : n.Over c)
    (hover' : n'.Over c) : n.same n' ↔ n.named = n'.named := by
  induction n using induction generalizing n' with
  | mk group row collections ih =>
    obtain ⟨group', row', collections'⟩ := n'
    obtain ⟨hrow, hfits⟩ := fits_mk.mp h
    obtain ⟨hrow', hfits'⟩ := fits_mk.mp h'
    obtain ⟨⟨hgroup, _⟩, hnested⟩ := over_mk.mp hover
    obtain ⟨⟨hgroup', _⟩, hnested'⟩ := over_mk.mp hover'
    have hcollections : List.Forall₂ (fun collection collection' =>
        collection.group.name = collection'.group.name ∧
          List.Forall₂ (fun n n' => n.same n') collection.nodes collection'.nodes)
        collections collections' ↔
          collections.map Collection.named = collections'.map Collection.named := by
      refine forall₂_iff_map_eq fun collection hmem collection' hmem' => ?_
      rw [Collection.named, Collection.named, NamedCollection.mk.injEq]
      refine and_congr_right fun _ => forall₂_iff_map_eq fun n hn n' hn' => ?_
      exact ih collection hmem n hn (hfits collection hmem n hn) (hfits' collection' hmem' n' hn')
        (hnested collection hmem n hn) (hnested' collection' hmem' n' hn')
    rw [same_mk, named_mk, named_mk, NamedNode.mk.injEq, hcollections, and_assoc]
    exact and_congr_right fun hname =>
      and_congr_left' (row_eq_iff hc hgroup hgroup' hrow hrow' hname)

end Same

section Assembled

theorem DocumentOf.fits_over {doc : Node} (h : doc.DocumentOf c g) (hg : g ∈ c.groups) :
    doc.Fits ∧ doc.Over c := by
  obtain ⟨nodes, rfl, _, _, hwell⟩ := h
  have hbelow : ∀ n ∈ nodes, ∀ m ∈ n.preorder, ∃ g' ∈ c.groups, m.WellFormed c g' := by
    intro n hn m hm
    obtain ⟨p, hp, rfl⟩ := List.mem_map.mp hm
    refine hwell p ?_
    rw [placesInNodes_eq]
    exact List.mem_flatMap.mpr ⟨n, hn, hp⟩
  constructor
  · refine fits_mk.mpr ⟨rfl, List.forall_mem_singleton.mpr fun n hn m hm => ?_⟩
    obtain ⟨g', _, hm⟩ := hbelow n hn m hm
    rw [hm.row, hm.group]
    rfl
  · refine over_mk.mpr ⟨⟨by simp, List.forall_mem_singleton.mpr hg⟩,
      List.forall_mem_singleton.mpr fun n hn m hm => ?_⟩
    obtain ⟨g', hg', hm⟩ := hbelow n hn m hm
    refine ⟨fun g'' hg'' => ?_, fun collection hmem => ?_⟩
    · rw [hm.group] at hg''
      exact Option.mem_some.mp hg'' ▸ hg'
    · have hchild := List.mem_map_of_mem (f := Collection.group) hmem
      rw [hm.collections] at hchild
      exact (List.mem_filter.mp hchild).1

end Assembled

/-- Documents with rows that fit are read back from their bytes, whatever comes behind them, if
there are not more bytes than a length can tell. The reader accepts nothing but the layout. So two
such documents over one catalog are the same if and only if their bytes are. All documents that
assemblies give are of this kind. -/
theorem encode_uniquely_decodable :
    (∀ n : Node, n.Fits → n.encode.length < 2 ^ 64 →
      ∀ rest, NamedNode.decode (n.encode ++ rest) = .ok (n.named, rest)) ∧
    (∀ bytes tree rest, NamedNode.decode bytes = .ok (tree, rest) → bytes = tree.encode ++ rest) ∧
    (∀ c : Catalog, c.Built → ∀ n n' : Node, n.Fits → n'.Fits → n.Over c → n'.Over c →
      n.encode.length < 2 ^ 64 → (n == n' ↔ n.encode = n'.encode)) ∧
    ∀ (σ : Type) (a : Assembler σ) (world : σ) (name : String) (doc : Node), a.catalog.Built →
      a.Gives world name doc → doc.Fits ∧ doc.Over a.catalog := by
  have hreads : ∀ n : Node, n.Fits → n.encode.length < 2 ^ 64 →
      ∀ rest, NamedNode.decode (n.encode ++ rest) = .ok (n.named, rest) := by
    intro n hfits hsize rest
    rw [encode_eq_named hfits] at hsize ⊢
    exact codes_document.reads n.named rest trivial hsize
  refine ⟨hreads, fun bytes tree rest h => (codes_document.exact bytes tree rest h).2, ?_, ?_⟩
  · intro c hc n n' hfits hfits' hover hover' hsize
    rw [show (n == n') = n.same n' from rfl,
      same_iff_named hc.coherent hfits hfits' hover hover']
    constructor
    · intro hnamed
      rw [encode_eq_named hfits, encode_eq_named hfits', hnamed]
    · -- Equal bytes are read as one tree.
      intro hencode
      have hread := hreads n hfits hsize []
      have hread' := hreads n' hfits' (hencode ▸ hsize) []
      rw [hencode, hread'] at hread
      exact (Prod.mk.inj (Except.ok.inj hread)).1.symm
  · intro σ a world name doc hc hgives
    obtain ⟨g, hname, hdoc⟩ := hgives.documentOf hc
    exact hdoc.fits_over (hc.coherent.group?_eq_some.mp hname).1

section Orders

open Assembler

def orderOf (id : Value) : Node :=
  .root (.mk orderGroup [.ofRow orderGroup [id, .null]
    [.mk lineGroup [.ofRow lineGroup [.string "<cup>"] []]]])

def oddOrder : Node :=
  orderOf (.float64 ⟨0x7FF8000000000001⟩)

theorem fits_orderOf (id : Value) : (orderOf id).Fits := by
  simp [orderOf, root, ofRow, fits_mk, elementsOf, orderGroup, lineGroup, Group.elements,
    Collection.nodes]

theorem over_orderOf (id : Value) : (orderOf id).Over orderAssembler.catalog := by
  have horder : orderGroup ∈ orderAssembler.catalog.groups := by decide +kernel
  have hline : lineGroup ∈ orderAssembler.catalog.groups := by decide +kernel
  simp [orderOf, root, ofRow, over_mk, horder, hline, Collection.group, Collection.nodes]

theorem encode_uniquely_decodable_orders :
    (oddOrder.Fits ∧ oddOrder.encode.length < 2 ^ 64 ∧
      NamedNode.decode (oddOrder.encode ++ [0xFF]) = .ok (oddOrder.named, [0xFF])) ∧
    (NamedNode.decode (oddOrder.encode ++ [0xFF]) = .ok (oddOrder.named, [0xFF]) ∧
      oddOrder.encode ++ [0xFF] = oddOrder.named.encode ++ [0xFF]) ∧
    (orderAssembler.catalog.Built ∧ oddOrder.Fits ∧ (orderOf (.int64 7)).Fits ∧
      oddOrder.Over orderAssembler.catalog ∧ (orderOf (.int64 7)).Over orderAssembler.catalog ∧
      (oddOrder == orderOf (.int64 7) ↔ oddOrder.encode = (orderOf (.int64 7)).encode)) ∧
    ∃ doc, orderAssembler.Gives () "orders" doc ∧ doc.Fits ∧ doc.Over orderAssembler.catalog := by
  obtain ⟨hreads, hexact, hsame, hgiven⟩ := encode_uniquely_decodable
  have hsize : oddOrder.encode.length < 2 ^ 64 := by decide +kernel
  have hfits : ∀ id, (orderOf id).Fits := fits_orderOf
  have hover : ∀ id, (orderOf id).Over orderAssembler.catalog := over_orderOf
  have hread := hreads oddOrder (hfits _) hsize [0xFF]
  obtain ⟨doc, hok⟩ := exists_assemble_orders
  exact ⟨⟨hfits _, hsize, hread⟩, ⟨hread, hexact _ _ _ hread⟩,
    ⟨built_orderAssembler, hfits _, hfits _, hover _, hover _,
      hsame _ built_orderAssembler _ _ (hfits _) (hfits _) (hover _) (hover _) hsize⟩,
    doc, .whole hok, hgiven Unit orderAssembler () "orders" doc built_orderAssembler (.whole hok)⟩

end Orders

end Node

end NestedViews
