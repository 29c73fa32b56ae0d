import NestedViews.Proofs.Document.Events
import NestedViews.Proofs.Document.Markup
import NestedViews.Proofs.Document.Places

namespace NestedViews

namespace Xml

variable {w w' w'' : Writer} {enclosing : List (String × List Item)} {items : List Item}
variable {content content' : List Markup} {name : String} {cs : List Char}

namespace Writer

def lineBreak (level : Nat) : List Char :=
  '\n' :: List.replicate (2 * level) ' '

theorem all_isBlank_lineBreak (level : Nat) : (lineBreak level).all isBlank := by
  simp [lineBreak, isBlank]

theorem lineBreak_plain (level : Nat) : ∀ c ∈ lineBreak level, c ≠ '<' ∧ c ≠ '&' := by
  intro c hc
  rcases List.mem_cons.mp hc with rfl | hc
  · decide
  · rw [List.eq_of_mem_replicate hc]
    decide

/-- What is written so far leaves the reader between elements, and the next tag breaks the line. -/
structure ReadTo (w : Writer) (enclosing : List (String × List Item)) (items : List Item) :
    Prop where
  run : Reader.start.run w.text.toList = some ⟨enclosing, items, .text []⟩
  breakNext : w.breakNext = true

theorem ReadTo.run_tag (h : w.ReadTo enclosing items) (level : Nat)
    (hcs : ∀ c ∈ cs, c ≠ '>') :
    Reader.start.run (w.tag level (String.ofList ('<' :: (cs ++ ['>'])))).toList =
      Reader.endTag enclosing (items ++ textItems (lineBreak level)) cs := by
  have htag : (w.tag level (String.ofList ('<' :: (cs ++ ['>'])))).toList =
      w.text.toList ++ (lineBreak level ++ '<' :: (cs ++ ['>'])) := by
    simp [tag, h.breakNext, lineBreak]
  rw [htag, Reader.run_append, h.run, Option.bind_some, Reader.run_append,
    Reader.run_text (lineBreak_plain level), Option.bind_some, Reader.run_brackets hcs,
    List.nil_append]

theorem startTag_eq (name : String) :
    "<" ++ name ++ ">" = String.ofList ('<' :: (name.toList ++ ['>'])) := by
  rw [← String.toList_inj]
  simp

theorem closingTag_eq (name : String) :
    "</" ++ name ++ ">" = String.ofList ('<' :: (('/' :: name.toList) ++ ['>'])) := by
  rw [← String.toList_inj]
  simp

theorem ReadTo.openTag (h : w.ReadTo enclosing items) (hname : IsName name) :
    (w.openTag name).ReadTo ((name, items ++ textItems (lineBreak w.level)) :: enclosing) [] where
  run := by
    change Reader.start.run (w.tag w.level ("<" ++ name ++ ">")).toList = _
    rw [startTag_eq, h.run_tag _ hname.ne_gt, Reader.endTag_name hname]
  breakNext := rfl

theorem ReadTo.closeTag {before : List Item} (h : w.ReadTo ((name, before) :: enclosing) items)
    (hname : IsName name) : (w.closeTag name).ReadTo enclosing
      (before ++ [.element name (items ++ textItems (lineBreak (w.level - 1)))]) where
  run := by
    change Reader.start.run (w.tag (w.level - 1) ("</" ++ name ++ ">")).toList = _
    rw [closingTag_eq, h.run_tag _ hname.slash_ne_gt, Reader.endTag_slash]
  breakNext := rfl

theorem ReadTo.leaf {before : List Item} (h : w.ReadTo ((name, before) :: enclosing) [])
    (hname : IsName name) : ((w.content cs).closeTag name).ReadTo enclosing
      (before ++ [.element name (textItems cs)]) where
  run := by
    have htext : ((w.content cs).closeTag name).text.toList =
        w.text.toList ++ ((escape cs).toList ++ '<' :: (('/' :: name.toList) ++ ['>'])) := by
      change (w.text ++ escape cs ++ ("</" ++ name ++ ">")).toList = _
      rw [closingTag_eq]
      simp
    rw [htext, Reader.run_append, h.run, Option.bind_some, Reader.run_append, Reader.run_escape,
      Option.bind_some, Reader.run_brackets hname.slash_ne_gt, Reader.endTag_slash]
    simp
  breakNext := rfl

def Writes (w w' : Writer) (content : List Markup) : Prop :=
  ∀ enclosing items, w.ReadTo enclosing items →
    ∃ more, w'.ReadTo enclosing (items ++ more) ∧ ShowsAll more content

namespace Writes

theorem refl (w : Writer) : w.Writes w [] := by
  intro enclosing items h
  refine ⟨[], ?_, .nil⟩
  rwa [List.append_nil]

theorem trans (h : w.Writes w' content) (h' : w'.Writes w'' content') :
    w.Writes w'' (content ++ content') := by
  intro enclosing items hread
  obtain ⟨more, hread, hshows⟩ := h enclosing items hread
  obtain ⟨more', hread, hshows'⟩ := h' enclosing _ hread
  refine ⟨more ++ more', ?_, hshows.append hshows'⟩
  rwa [← List.append_assoc]

theorem element (hname : IsName name) (h : (w.openTag name).Writes w' content) :
    w.Writes (w'.closeTag name) [.branch name content] := by
  intro enclosing items hread
  obtain ⟨more, hread', hshows⟩ := h _ _ (hread.openTag hname)
  have hbreak := fun level => showsAll_textItems (all_isBlank_lineBreak level)
  refine ⟨textItems (lineBreak w.level) ++
    [.element name (more ++ textItems (lineBreak (w'.level - 1)))], ?_,
    (hbreak _).append (.element (.branch ?_) .nil)⟩
  · rw [← List.append_assoc]
    exact hread'.closeTag hname
  · exact List.append_nil content ▸ hshows.append (hbreak _)

theorem leaf (hname : IsName name) (cs : List Char) :
    w.Writes (((w.openTag name).content cs).closeTag name) [.leaf name cs] := by
  intro enclosing items hread
  refine ⟨textItems (lineBreak w.level) ++ [.element name (textItems cs)], ?_,
    (showsAll_textItems (all_isBlank_lineBreak w.level)).append (.element .leaf .nil)⟩
  rw [← List.append_assoc]
  exact (hread.openTag hname).leaf hname

end Writes

def write (w : Writer) (event : Event) : Writer :=
  (visit event w).2

theorem forM_visit (events : List Event) (w : Writer) :
    ((events.forM visit : StateM Writer Unit) w).2 = events.foldl write w := by
  induction events generalizing w with
  | nil => rfl
  | cons event events ih => exact ih _

theorem Writes.flatMap {α : Type} {parts : List α} {events : α → List Event}
    {markup : α → List Markup}
    (h : ∀ part ∈ parts, ∀ w : Writer, w.Writes ((events part).foldl write w) (markup part))
    (w : Writer) : w.Writes ((parts.flatMap events).foldl write w) (parts.flatMap markup) := by
  induction parts generalizing w with
  | nil => exact .refl w
  | cons part parts ih =>
    obtain ⟨hpart, hparts⟩ := List.forall_mem_cons.mp h
    rw [List.flatMap_cons, List.flatMap_cons, List.foldl_append]
    exact (hpart w).trans (ih hparts _)

end Writer

end Xml

open Xml Writer

def valueMarkup (elements : List Element) (row : Row) : List Markup :=
  (elements.zip row).flatMap fun (element, v) =>
    if v.isNull then [] else [.leaf element.name v.chars]

mutual

/-- The elements that a node is to show: one for a row, with its values and then the nodes nested
under it, and those of its nodes for the root. -/
def Node.markup : Node → List Markup
  | .mk none _ collections => Node.markupOfCollections collections
  | .mk (some group) row collections =>
    [.branch group.shortName
      (valueMarkup group.elements row ++ Node.markupOfCollections collections)]

def Node.markupOfCollections : List Collection → List Markup
  | [] => []
  | .mk _ nodes :: rest => Node.markupOfNodes nodes ++ Node.markupOfCollections rest

def Node.markupOfNodes : List Node → List Markup
  | [] => []
  | n :: rest => n.markup ++ Node.markupOfNodes rest

end

namespace Node

variable {n : Node} {group : Option Group} {row : Row} {collections : List Collection}

def HasNames (n : Node) : Prop :=
  ∀ m ∈ n.preorder, ∀ g ∈ m.group, IsName g.shortName ∧ ∀ e ∈ g.elements, IsName e.name

theorem hasNames_mk : (mk group row collections).HasNames ↔
    (∀ g ∈ group, IsName g.shortName ∧ ∀ e ∈ g.elements, IsName e.name) ∧
      ∀ collection ∈ collections, ∀ n ∈ collection.nodes, n.HasNames :=
  forall_mem_preorder

theorem markupOfNodes_eq (nodes : List Node) : markupOfNodes nodes = nodes.flatMap markup :=
  eq_flatMap rfl (fun _ _ => rfl) nodes

theorem markupOfCollections_eq (collections : List Collection) :
    markupOfCollections collections =
      collections.flatMap fun collection => collection.nodes.flatMap markup := by
  refine eq_flatMap rfl ?_ collections
  rintro ⟨group, nodes⟩ rest
  rw [markupOfCollections, markupOfNodes_eq]
  rfl

theorem writes_value {element : Element} (hname : IsName element.name) (v : Value) (w : Writer) :
    w.Writes (w.write (.value element v))
      (if v.isNull then [] else [.leaf element.name v.chars]) := by
  by_cases hnull : v.isNull
  · rw [if_pos hnull, write, visit, if_pos hnull]
    exact .refl w
  · rw [if_neg hnull, write, visit, if_neg hnull]
    exact .leaf hname v.chars

theorem writes_values {elements : List Element} (hnames : ∀ e ∈ elements, IsName e.name)
    (row : Row) (w : Writer) :
    w.Writes (((elements.zip row).map fun (element, v) => Event.value element v).foldl write w)
      (valueMarkup elements row) := by
  rw [List.map_eq_flatMap]
  refine Writes.flatMap (fun part hpart w => ?_) w
  exact writes_value (hnames part.1 (List.of_mem_zip hpart).1) part.2 w

theorem writes_events (n : Node) (h : n.HasNames) :
    ∀ w : Writer, w.Writes (n.events.foldl write w) n.markup := by
  induction n using induction with
  | mk group row collections ih =>
    intro w
    obtain ⟨hgroup, hbelow⟩ := hasNames_mk.mp h
    -- The level at which the collections are written depends on whether the node has a tag.
    have hcollections : ∀ w : Writer, w.Writes ((eventsInCollections collections).foldl write w)
        (markupOfCollections collections) := by
      rw [eventsInCollections_eq, markupOfCollections_eq]
      refine Writes.flatMap fun collection hmem w => ?_
      rw [List.foldl_cons, List.foldl_append]
      exact Writes.flatMap (fun n hn => ih collection hmem n hn (hbelow collection hmem n hn)) _
    cases group with
    | none => exact hcollections w
    | some group =>
      obtain ⟨hname, hnames⟩ := hgroup group rfl
      rw [events, markup, List.foldl_cons, List.foldl_append, List.foldl_append]
      exact .element hname ((writes_values hnames row _).trans (hcollections _))

theorem readTo_declaration : Writer.empty.declaration.ReadTo [] [] where
  run := by rfl
  breakNext := rfl

theorem toXml_eq (n : Node) (tag : String) : n.toXml tag =
    ((n.events.foldl write (Writer.empty.declaration.openTag tag)).closeTag tag).text := by
  rw [toXml, walk_eq, forM_visit]

/-- What is written of a document is read back as one element of the given name, with the elements
in it that the document is to show. The text of a value is read as it stands there, with the same
elements open behind it as in front of it. -/
theorem read_toXml :
    (∀ (n : Node) (tag : String), IsName tag → n.HasNames →
      ∃ items, Xml.read (n.toXml tag) = some items ∧ ShowsAll items [.branch tag n.markup]) ∧
    ∀ (v : Value) (enclosing : List (String × List Item)) (items : List Item) (cs : List Char),
      Reader.run ⟨enclosing, items, .text cs⟩ (escape v.chars).toList =
        some ⟨enclosing, items, .text (cs ++ v.chars)⟩ := by
  refine ⟨fun n tag htag h => ?_, fun v enclosing items cs => Reader.run_escape⟩
  obtain ⟨items, hread, hshows⟩ :=
    Writes.element htag (writes_events n h _) [] [] readTo_declaration
  refine ⟨items, ?_, hshows⟩
  rw [Xml.read, toXml_eq, hread.run]
  simp [textItems]

def noteGroup : Group :=
  ⟨⟨"mail.notes", [⟨"title", .string⟩, ⟨"text", .string⟩, ⟨"sent", .date⟩], none, none⟩, none, none⟩

def noteDocument : Node :=
  .root (.mk noteGroup [.ofRow noteGroup [.string "</title>&amp;", .string " \n", .null] [],
    .ofRow noteGroup [.string "", .null, .date 0] []])

theorem read_toXml_notes : IsName "mail" ∧ noteDocument.HasNames ∧
    ∃ items, Xml.read (noteDocument.toXml "mail") = some items ∧ ShowsAll items [.branch "mail"
      [.branch "notes" [.leaf "title" "</title>&amp;".toList, .leaf "text" " \n".toList],
        .branch "notes" [.leaf "title" "".toList, .leaf "sent" "1970-01-01".toList]]] := by
  have htag : IsName "mail" := by decide +kernel
  have hnames : noteDocument.HasNames := by
    unfold HasNames
    decide +kernel
  have hmarkup : noteDocument.markup =
      [.branch "notes" [.leaf "title" "</title>&amp;".toList, .leaf "text" " \n".toList],
        .branch "notes" [.leaf "title" "".toList, .leaf "sent" "1970-01-01".toList]] := by
    have hname : noteGroup.shortName = "notes" := by decide +kernel
    have hdate : (Value.date 0).chars = "1970-01-01".toList := by decide +kernel
    simp only [noteDocument, root, ofRow, markup, markupOfCollections, markupOfNodes, hname]
    rw [← hdate]
    rfl
  exact ⟨htag, hnames, hmarkup ▸ read_toXml.1 noteDocument "mail" htag hnames⟩

end Node

end NestedViews
