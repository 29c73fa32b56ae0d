import NestedViews.Document.Xml
import NestedViews.Proofs.Document

/-! Reading XML back. The reader goes through a text character by character and holds the elements
that are open. It knows tags without attributes, the five references to characters, and
instructions, which it leaves out. What it reads is compared with what a document is to show. -/

namespace NestedViews

namespace Xml

inductive Item
  | text (cs : List Char)
  | element (name : String) (items : List Item)

inductive Mode
  | text (cs : List Char)
  | reference (cs name : List Char)
  | tag (cs : List Char)

/-- The elements that are open, innermost first and each with what came before it, and what was read
inside the innermost. -/
structure Reader where
  enclosing : List (String × List Item)
  items : List Item
  mode : Mode

def isBlank (c : Char) : Bool :=
  c ∈ [' ', '\t', '\n', '\r']

def isNameChar (c : Char) : Bool :=
  !isBlank c && c ∉ ['<', '>', '/']

def entity? : List Char → Option Char
  | ['a', 'm', 'p'] => some '&'
  | ['l', 't'] => some '<'
  | ['g', 't'] => some '>'
  | ['a', 'p', 'o', 's'] => some '\''
  | ['q', 'u', 'o', 't'] => some '"'
  | _ => none

def textItems (cs : List Char) : List Item :=
  if cs = [] then [] else [.text cs]

namespace Reader

def start : Reader :=
  ⟨[], [], .text []⟩

def closeElement (name : String) (items : List Item) : List (String × List Item) → Option Reader
  | (name', before) :: enclosing =>
    if name' = name then some ⟨enclosing, before ++ [.element name items], .text []⟩ else none
  | [] => none

def endTag (enclosing : List (String × List Item)) (items : List Item) :
    List Char → Option Reader
  | '?' :: cs =>
    if cs.getLast? = some '?' then some ⟨enclosing, items, .text []⟩
    else some ⟨enclosing, items, .tag ('?' :: cs ++ ['>'])⟩
  | '!' :: _ => none
  | '/' :: cs => closeElement (String.ofList cs) items enclosing
  | cs =>
    if cs ≠ [] ∧ cs.all isNameChar then
      some ⟨(String.ofList cs, items) :: enclosing, [], .text []⟩
    else none

def step : Reader → Char → Option Reader
  | ⟨enclosing, items, .text cs⟩, c =>
    if c = '<' then some ⟨enclosing, items ++ textItems cs, .tag []⟩
    else if c = '&' then some ⟨enclosing, items, .reference cs []⟩
    else some ⟨enclosing, items, .text (cs ++ [c])⟩
  | ⟨enclosing, items, .reference cs name⟩, c =>
    if c = ';' then (entity? name).map fun c => ⟨enclosing, items, .text (cs ++ [c])⟩
    else some ⟨enclosing, items, .reference cs (name ++ [c])⟩
  | ⟨enclosing, items, .tag cs⟩, c =>
    if c = '>' then endTag enclosing items cs else some ⟨enclosing, items, .tag (cs ++ [c])⟩

def run (r : Reader) (cs : List Char) : Option Reader :=
  cs.foldlM step r

end Reader

def read (text : String) : Option (List Item) := do
  match ← Reader.start.run text.toList with
  | ⟨[], items, .text cs⟩ => some (items ++ textItems cs)
  | _ => none

inductive Markup
  | leaf (name : String) (cs : List Char)
  | branch (name : String) (content : List Markup)

mutual

/-- What was read shows an element: a text is as it should be, and elements have nothing but blanks
around them. -/
inductive Shows : Item → Markup → Prop
  | leaf {name cs} : Shows (.element name (textItems cs)) (.leaf name cs)
  | branch {name items content} : ShowsAll items content →
      Shows (.element name items) (.branch name content)

inductive ShowsAll : List Item → List Markup → Prop
  | nil : ShowsAll [] []
  | blank {cs items content} : cs.all isBlank → ShowsAll items content →
      ShowsAll (.text cs :: items) content
  | element {item items shown content} : Shows item shown → ShowsAll items content →
      ShowsAll (item :: items) (shown :: content)

end

structure IsName (name : String) : Prop where
  ne_empty : name ≠ ""
  chars : name.toList.all isNameChar
  head : name.toList.head? ≠ some '?' ∧ name.toList.head? ≠ some '!'

namespace IsName

variable {name : String}

instance : Decidable (IsName name) :=
  decidable_of_iff (name ≠ "" ∧ name.toList.all isNameChar ∧
      name.toList.head? ≠ some '?' ∧ name.toList.head? ≠ some '!')
    ⟨fun ⟨ne_empty, chars, head⟩ => ⟨ne_empty, chars, head⟩, fun h => ⟨h.1, h.2, h.3⟩⟩

theorem ne_of_not_isNameChar {c d : Char} (h : IsName name) (hc : c ∈ name.toList)
    (hd : isNameChar d = false) : c ≠ d := by
  rintro rfl
  exact absurd (List.all_eq_true.mp h.chars c hc) (by simp [hd])

theorem ne_gt (h : IsName name) : ∀ c ∈ name.toList, c ≠ '>' :=
  fun _ hc => h.ne_of_not_isNameChar hc (by decide)

theorem slash_ne_gt (h : IsName name) : ∀ c ∈ '/' :: name.toList, c ≠ '>' :=
  List.forall_mem_cons.mpr ⟨by decide, h.ne_gt⟩

end IsName

section Reading

variable {r : Reader} {enclosing : List (String × List Item)} {items items' : List Item}
variable {cs cs' : List Char} {name : String} {content content' : List Markup}

theorem ShowsAll.append (h : ShowsAll items content) (h' : ShowsAll items' content') :
    ShowsAll (items ++ items') (content ++ content') := by
  induction items generalizing content with
  | nil =>
    cases h
    exact h'
  | cons item items ih =>
    cases h with
    | blank hblank h => exact .blank hblank (ih h)
    | element hshows h => exact .element hshows (ih h)

theorem showsAll_textItems (h : cs.all isBlank) : ShowsAll (textItems cs) [] := by
  unfold textItems
  split
  · exact .nil
  · exact .blank h .nil

namespace Reader

theorem run_append : r.run (cs ++ cs') = (r.run cs).bind fun r' => r'.run cs' :=
  List.foldlM_append

theorem run_cons {c : Char} : r.run (c :: cs) = (r.step c).bind fun r' => r'.run cs :=
  List.foldlM_cons

theorem run_flatMap (state : List Char → Reader) {written : Char → List Char}
    (h : ∀ c ∈ cs', ∀ cs, (state cs).run (written c) = some (state (cs ++ [c])))
    (cs : List Char) : (state cs).run (cs'.flatMap written) = some (state (cs ++ cs')) := by
  induction cs' generalizing cs with
  | nil =>
    rw [List.append_nil]
    rfl
  | cons c cs' ih =>
    obtain ⟨hc, hrest⟩ := List.forall_mem_cons.mp h
    rw [List.flatMap_cons, run_append, hc, Option.bind_some, ih hrest, List.append_assoc]
    rfl

theorem run_chars (state : List Char → Reader)
    (h : ∀ c ∈ cs', ∀ cs, (state cs).step c = some (state (cs ++ [c]))) (cs : List Char) :
    (state cs).run cs' = some (state (cs ++ cs')) := by
  have hrun : (state cs).run (cs'.flatMap fun c => [c]) = some (state (cs ++ cs')) := by
    refine run_flatMap state (fun c hc cs => ?_) cs
    rw [run_cons, h c hc]
    rfl
  rwa [List.flatMap_singleton'] at hrun

theorem run_text (h : ∀ c ∈ cs', c ≠ '<' ∧ c ≠ '&') :
    run ⟨enclosing, items, .text cs⟩ cs' = some ⟨enclosing, items, .text (cs ++ cs')⟩ := by
  refine run_chars (fun cs => ⟨enclosing, items, .text cs⟩) (fun c hc cs => ?_) cs
  rw [step, if_neg (h c hc).1, if_neg (h c hc).2]

theorem run_tag (h : ∀ c ∈ cs', c ≠ '>') :
    run ⟨enclosing, items, .tag cs⟩ cs' = some ⟨enclosing, items, .tag (cs ++ cs')⟩ := by
  refine run_chars (fun cs => ⟨enclosing, items, .tag cs⟩) (fun c hc cs => ?_) cs
  rw [step, if_neg (h c hc)]

theorem run_escapeChar (c : Char) : run ⟨enclosing, items, .text cs⟩ (escapeChar c).toList =
    some ⟨enclosing, items, .text (cs ++ [c])⟩ := by
  unfold escapeChar
  split
  case h_6 hamp hlt _ _ _ =>
    rw [Char.toString, String.toList_singleton]
    exact run_text (List.forall_mem_singleton.mpr ⟨hlt, hamp⟩)
  all_goals rfl

theorem run_escape : run ⟨enclosing, items, .text cs⟩ (escape cs').toList =
    some ⟨enclosing, items, .text (cs ++ cs')⟩ := by
  have hescape : (escape cs').toList = cs'.flatMap fun c => (escapeChar c).toList := by
    simp [escape, List.flatMap_def, Function.comp_def]
  rw [hescape]
  exact run_flatMap (fun cs => ⟨enclosing, items, .text cs⟩) (fun c _ _ => run_escapeChar c) cs

theorem run_brackets (h : ∀ c ∈ cs', c ≠ '>') :
    run ⟨enclosing, items, .text cs⟩ ('<' :: (cs' ++ ['>'])) =
      endTag enclosing (items ++ textItems cs) cs' := by
  rw [run_cons, step, if_pos rfl, Option.bind_some, run_append, run_tag h, Option.bind_some,
    run_cons, step, if_pos rfl]
  exact Option.bind_fun_some _

theorem endTag_name (h : IsName name) : endTag enclosing items name.toList =
    some ⟨(name, items) :: enclosing, [], .text []⟩ := by
  have hne : name.toList ≠ [] := by
    simpa using h.ne_empty
  unfold endTag
  split
  case h_1 heq => exact absurd (by rw [heq]; rfl) h.head.1
  case h_2 heq => exact absurd (by rw [heq]; rfl) h.head.2
  case h_3 heq =>
    have hslash : '/' ∈ name.toList := heq ▸ .head _
    exact absurd rfl (h.ne_of_not_isNameChar hslash (by decide))
  case h_4 => rw [if_pos ⟨hne, h.chars⟩, String.ofList_toList]

theorem endTag_slash {before : List Item} :
    endTag ((name, before) :: enclosing) items ('/' :: name.toList) =
      some ⟨enclosing, before ++ [.element name items], .text []⟩ := by
  rw [endTag, String.ofList_toList, closeElement, if_pos rfl]

end Reader

end Reading

end Xml

end NestedViews
