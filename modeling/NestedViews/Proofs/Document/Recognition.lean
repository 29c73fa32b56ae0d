import NestedViews.Proofs.Document.Brackets

namespace NestedViews

/-- What a callback says to somebody who tells groups apart by their names, and values whatever
their elements are. -/
inductive Sight
  | enterCollection (group : String)
  | enterNode (group : String) (row : Row)
  | value (value : Value)
  | leaveNode (group : String)
  | leaveCollection (group : String)
  deriving DecidableEq

def Event.sight : Event → Sight
  | .enterCollection group => .enterCollection group.name
  | .enterNode group row => .enterNode group.name row
  | .value _ v => .value v
  | .leaveNode group => .leaveNode group.name
  | .leaveCollection group => .leaveCollection group.name

theorem forall₂_of_flatMap_append {α β : Type} {f : α → List β} {opens : β → Prop}
    {R : α → α → Prop} {as as' : List α} {rest rest' : List β}
    (hopens : ∀ a ∈ as, ∃ b ∈ (f a).head?, opens b)
    (hopens' : ∀ a ∈ as', ∃ b ∈ (f a).head?, opens b)
    (hrest : ∀ b ∈ rest.head?, ¬opens b) (hrest' : ∀ b ∈ rest'.head?, ¬opens b)
    (hunique : ∀ a ∈ as, ∀ a' ∈ as', ∀ rest rest', f a ++ rest = f a' ++ rest' →
      R a a' ∧ rest = rest')
    (h : as.flatMap f ++ rest = as'.flatMap f ++ rest') : List.Forall₂ R as as' ∧ rest = rest' := by
  induction as generalizing as' with
  | nil =>
    cases as' with
    | nil => exact ⟨.nil, h⟩
    | cons a' as' =>
      obtain ⟨b, hb, hopen⟩ := hopens' a' (.head _)
      rw [List.flatMap_nil, List.nil_append, List.flatMap_cons, List.append_assoc] at h
      exact absurd hopen (hrest b (by simp [h, List.head?_append, Option.mem_def.mp hb]))
  | cons a as ih =>
    cases as' with
    | nil =>
      obtain ⟨b, hb, hopen⟩ := hopens a (.head _)
      rw [List.flatMap_nil, List.nil_append, List.flatMap_cons, List.append_assoc] at h
      exact absurd hopen (hrest' b (by simp [← h, List.head?_append, Option.mem_def.mp hb]))
    | cons a' as' =>
      rw [List.flatMap_cons, List.flatMap_cons, List.append_assoc, List.append_assoc] at h
      obtain ⟨hR, h⟩ := hunique a (.head _) a' (.head _) _ _ h
      obtain ⟨has, hrests⟩ := ih (fun a ha => hopens a (.tail _ ha))
        (fun a ha => hopens' a (.tail _ ha))
        (fun a ha a' ha' => hunique a (.tail _ ha) a' (.tail _ ha')) h
      exact ⟨.cons hR has, hrests⟩

namespace Sight

def IsValue : Sight → Prop
  | .value _ => True
  | _ => False

theorem append_inj_of_value {values values' rest rest' : List Sight}
    (hvalues : ∀ v ∈ values, v.IsValue) (hvalues' : ∀ v ∈ values', v.IsValue)
    (hrest : ∀ b ∈ rest.head?, ¬b.IsValue) (hrest' : ∀ b ∈ rest'.head?, ¬b.IsValue)
    (h : values ++ rest = values' ++ rest') : rest = rest' := by
  have hflat : ∀ l : List Sight, l.flatMap (fun v => [v]) = l := by
    intro l
    simp
  rw [← hflat values, ← hflat values'] at h
  exact (forall₂_of_flatMap_append (R := fun _ _ => True) (fun v hv => ⟨v, rfl, hvalues v hv⟩)
    (fun v hv => ⟨v, rfl, hvalues' v hv⟩) hrest hrest'
    (fun v _ v' _ rest rest' heq => ⟨trivial, (List.cons.inj heq).2⟩) h).2

def OpensCollection : Sight → Prop
  | .enterCollection _ => True
  | _ => False

def OpensNode : Sight → Prop
  | .enterNode _ _ => True
  | _ => False

end Sight

def Collection.sights (collection : Collection) : List Sight :=
  .enterCollection collection.group.name ::
    (collection.nodes.flatMap (fun n => n.events.map Event.sight) ++
      [.leaveCollection collection.group.name])

namespace Node

def sights (n : Node) : List Sight :=
  n.events.map Event.sight

variable {g : Group} {row row' : Row} {collections collections' : List Collection}

theorem sights_eventsInCollections (collections : List Collection) :
    (eventsInCollections collections).map Event.sight = collections.flatMap Collection.sights := by
  simp only [eventsInCollections_eq, List.map_flatMap, List.map_cons, List.map_append,
    List.map_nil, Event.sight]
  rfl

theorem sights_mk : (mk (some g) row collections).sights = .enterNode g.name row ::
    ((g.elements.zip row).map (fun (_, v) => .value v) ++
      (collections.flatMap Collection.sights ++ [.leaveNode g.name])) := by
  rw [sights, events, List.map_cons, List.map_append, List.map_append, List.map_map,
    sights_eventsInCollections]
  rfl

theorem exists_opensNode {n : Node} (h : n.Inner) : ∃ b ∈ n.sights.head?, b.OpensNode := by
  obtain ⟨group, row, collections⟩ := n
  obtain ⟨g, rfl⟩ := Option.isSome_iff_exists.mp (inner_mk.mp h).1
  exact ⟨.enterNode g.name row, by rw [sights_mk]; rfl, trivial⟩

def Recognised (n : Node) : Prop :=
  ∀ n' : Node, n'.Inner → ∀ rest rest', n.sights ++ rest = n'.sights ++ rest' →
    n.same n' ∧ rest = rest'

theorem sameCollections_of_sights
    (hnodes : ∀ collection ∈ collections, ∀ n ∈ collection.nodes, n.Inner ∧ n.Recognised)
    (hnodes' : ∀ collection ∈ collections', ∀ n ∈ collection.nodes, n.Inner)
    {rest rest' : List Sight} (hrest : ∀ b ∈ rest.head?, ¬b.OpensCollection)
    (hrest' : ∀ b ∈ rest'.head?, ¬b.OpensCollection)
    (h : collections.flatMap Collection.sights ++ rest =
      collections'.flatMap Collection.sights ++ rest') :
    List.Forall₂ (fun collection collection' => collection.group.name = collection'.group.name ∧
      List.Forall₂ (fun n n' => n.same n') collection.nodes collection'.nodes)
      collections collections' ∧ rest = rest' := by
  refine forall₂_of_flatMap_append (fun _ _ => ⟨_, rfl, trivial⟩) (fun _ _ => ⟨_, rfl, trivial⟩)
    hrest hrest' (fun collection hmem collection' hmem' rest rest' h => ?_) h
  rw [Collection.sights, Collection.sights, List.cons_append, List.cons_append, List.cons.injEq,
    List.append_assoc, List.append_assoc] at h
  obtain ⟨hname, h⟩ := h
  have hleave : ∀ (name : String) (rest : List Sight),
      ∀ b ∈ (Sight.leaveCollection name :: rest).head?, ¬b.OpensNode := by
    rintro _ _ _ ⟨⟩
    exact id
  obtain ⟨hsame, h⟩ := forall₂_of_flatMap_append
    (fun n hn => exists_opensNode (hnodes collection hmem n hn).1)
    (fun n hn => exists_opensNode (hnodes' collection' hmem' n hn)) (hleave _ _) (hleave _ _)
    (fun n hn n' hn' => (hnodes collection hmem n hn).2 n' (hnodes' collection' hmem' n' hn')) h
  exact ⟨⟨Sight.enterCollection.inj hname, hsame⟩, (List.cons.inj h).2⟩

theorem not_isValue_of_mem_head? (collections : List Collection) (name : String)
    (rest : List Sight) :
    ∀ b ∈ (collections.flatMap Collection.sights ++ (Sight.leaveNode name :: rest)).head?,
      ¬b.IsValue := by
  cases collections <;> rintro _ ⟨⟩ <;> exact id

theorem recognised {n : Node} (h : n.Inner) : n.Recognised := by
  induction n using induction with
  | mk group row collections ih =>
    rintro ⟨group', row', collections'⟩ h' rest rest' heq
    obtain ⟨hgroup, hnodes⟩ := inner_mk.mp h
    obtain ⟨hgroup', hnodes'⟩ := inner_mk.mp h'
    obtain ⟨g, rfl⟩ := Option.isSome_iff_exists.mp hgroup
    obtain ⟨g', rfl⟩ := Option.isSome_iff_exists.mp hgroup'
    simp only [sights_mk, List.cons_append, List.append_assoc, List.cons.injEq] at heq
    obtain ⟨hnode, heq⟩ := heq
    obtain ⟨hname, hrow⟩ := Sight.enterNode.inj hnode
    have hvalues : ∀ l : List (Element × Value), ∀ b ∈ l.map fun (_, v) => Sight.value v,
        b.IsValue := fun _ => List.forall_mem_map.mpr fun _ _ => trivial
    have heq := Sight.append_inj_of_value (hvalues _) (hvalues _)
      (not_isValue_of_mem_head? collections _ _) (not_isValue_of_mem_head? collections' _ _) heq
    have hleave : ∀ (name : String) (rest : List Sight),
        ∀ b ∈ (Sight.leaveNode name :: rest).head?, ¬b.OpensCollection := by
      rintro _ _ _ ⟨⟩
      exact id
    obtain ⟨hsame, heq⟩ := sameCollections_of_sights
      (fun collection hmem n hn => ⟨hnodes collection hmem n hn,
        ih collection hmem n hn (hnodes collection hmem n hn)⟩)
      hnodes' (hleave _ _) (hleave _ _) heq
    exact ⟨same_mk.mpr ⟨⟨congrArg some hname, hrow⟩, hsame⟩, (List.cons.inj heq).2⟩

theorem not_opensNode_of_root :
    ∀ b ∈ (mk none row collections).sights.head?, ¬b.OpensNode := by
  rw [sights, events, sights_eventsInCollections]
  cases collections <;> rintro _ ⟨⟩
  exact id

theorem inner_of_isDocument (h : (mk (some g) row collections).IsDocument) :
    (mk (some g) row collections).Inner :=
  inner_mk.mpr ⟨rfl, h.inner⟩

theorem IsDocument.same_of_sights {n n' : Node} (h : n.IsDocument) (h' : n'.IsDocument)
    (heq : n.sights = n'.sights) : n.same n' := by
  obtain ⟨_ | g, row, collections⟩ := n <;> obtain ⟨_ | g', row', collections'⟩ := n'
  · rw [sights, sights, events, events, sights_eventsInCollections,
      sights_eventsInCollections] at heq
    have hinner : ∀ collection ∈ collections, ∀ n ∈ collection.nodes, n.Inner ∧ n.Recognised :=
      fun collection hmem n hn => ⟨h.inner collection hmem n hn,
        recognised (h.inner collection hmem n hn)⟩
    have hinner' : ∀ collection ∈ collections', ∀ n ∈ collection.nodes, n.Inner := h'.inner
    have heq' : collections.flatMap Collection.sights ++ [] =
        collections'.flatMap Collection.sights ++ [] := by rw [heq]
    obtain ⟨hsame, _⟩ := sameCollections_of_sights hinner hinner' (by simp) (by simp) heq'
    have hrow : row = row' := (h.row rfl).trans (h'.row rfl).symm
    exact same_mk.mpr ⟨⟨rfl, hrow⟩, hsame⟩
  · obtain ⟨b, hb, hopens⟩ := exists_opensNode (inner_of_isDocument h')
    exact absurd hopens (not_opensNode_of_root b (heq ▸ hb))
  · obtain ⟨b, hb, hopens⟩ := exists_opensNode (inner_of_isDocument h)
    exact absurd hopens (not_opensNode_of_root b (heq ▸ hb))
  · exact (recognised (inner_of_isDocument h) _ (inner_of_isDocument h') [] [] (by rw [heq])).1

/-- The callbacks of a walk are brackets in each other, each node is entered once, and as many of
them are open at a time as the document is deep. Documents with the same callbacks are the same,
though groups are only compared by their names and values without their elements. -/
theorem callbacks_recognise (n : Node) (h : n.IsDocument) :
    Balanced n.callbacks ∧
    n.callbacks.countP Event.entersNode = n.count ∧
    IsGreatest (openNodes '' {es | es <+: n.callbacks}) n.depth ∧
    ∀ n' : Node, n'.IsDocument → n.callbacks.map Event.sight = n'.callbacks.map Event.sight →
      n == n' := by
  rw [callbacks_eq]
  refine ⟨h.balanced, countP_events n, ?_, fun n' h' heq => ?_⟩
  · rw [← (peaks_events n).peak_eq]
    exact isGreatest_peak n.events
  · rw [callbacks_eq] at heq
    exact h.same_of_sights h' heq

def shortOrder (parent : Option String) : Node :=
  let orders : Group := ⟨⟨"orders", [⟨"id", .int64⟩], none, none⟩, none, none⟩
  let lines : Group := ⟨⟨"lines", [⟨"item", .string⟩, ⟨"note", .string⟩], none, none⟩, parent, none⟩
  .root (.mk orders [.ofRow orders [.int64 1] [.mk lines [.ofRow lines [.string "cup"] []]]])

theorem isDocument_shortOrder (parent : Option String) : (shortOrder parent).IsDocument := by
  refine ⟨fun _ => rfl, ?_⟩
  simp [shortOrder, root, ofRow, inner_mk, collections, Collection.nodes]

theorem callbacks_recognise_shortOrder :
    (shortOrder none).IsDocument ∧ Balanced (shortOrder none).callbacks ∧
      (shortOrder none).callbacks.countP Event.entersNode = 2 ∧
      IsGreatest (openNodes '' {es | es <+: (shortOrder none).callbacks}) 2 ∧
      (shortOrder (some "orders")).IsDocument ∧
      (shortOrder none).callbacks.map Event.sight =
        (shortOrder (some "orders")).callbacks.map Event.sight ∧
      shortOrder none == shortOrder (some "orders") := by
  have hdoc : ∀ parent, (shortOrder parent).IsDocument := isDocument_shortOrder
  have hsights : (shortOrder none).callbacks.map Event.sight =
      (shortOrder (some "orders")).callbacks.map Event.sight := rfl
  obtain ⟨hbalanced, hcount, hdepth, hsame⟩ := callbacks_recognise (shortOrder none) (hdoc none)
  exact ⟨hdoc none, hbalanced, hcount, hdepth, hdoc _, hsights, hsame _ (hdoc _) hsights⟩

end Node

end NestedViews
