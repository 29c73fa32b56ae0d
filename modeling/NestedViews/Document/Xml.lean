import NestedViews.Document.Walk
import NestedViews.Value.Text

/-! Documents as indented XML. A node is an element named after the short name of its group, and
holds one element for each value that is not null, then the nodes nested under it. -/

namespace NestedViews

namespace Xml

/-- Text that is being written. A tag starts a new line, except at the very start and right behind
the text of an element. -/
structure Writer where
  text : String
  level : Nat
  breakNext : Bool
  deriving DecidableEq, Repr

def Writer.empty : Writer := ⟨"", 0, false⟩

def escapeChar : Char → String
  | '&' => "&amp;"
  | '<' => "&lt;"
  | '>' => "&gt;"
  | '\'' => "&apos;"
  | '"' => "&quot;"
  | c => c.toString

def escape (cs : List Char) : String :=
  String.join (cs.map escapeChar)

namespace Writer

def tag (w : Writer) (level : Nat) (tag : String) : String :=
  if w.breakNext then w.text ++ "\n" ++ String.ofList (List.replicate (2 * level) ' ') ++ tag
  else w.text ++ tag

def openTag (name : String) (w : Writer) : Writer :=
  ⟨w.tag w.level ("<" ++ name ++ ">"), w.level + 1, true⟩

def closeTag (name : String) (w : Writer) : Writer :=
  ⟨w.tag (w.level - 1) ("</" ++ name ++ ">"), w.level - 1, true⟩

def declaration (w : Writer) : Writer :=
  ⟨w.tag w.level "<?xml version=\"1.0\" encoding=\"UTF-8\"?>", w.level, true⟩

def content (cs : List Char) (w : Writer) : Writer :=
  ⟨w.text ++ escape cs, w.level, false⟩

def visit (event : Event) : StateM Writer Unit :=
  match event with
  | .enterNode group _ => modify (openTag group.shortName)
  | .leaveNode group => modify (closeTag group.shortName)
  | .value element v =>
    if v.isNull then pure ()
    else modify fun w => closeTag element.name (content v.chars (openTag element.name w))
  | .enterCollection _ | .leaveCollection _ => pure ()

end Writer

end Xml

namespace Node

open Xml

def toXmlFragment (n : Node) : String :=
  (n.walk Writer.visit .empty).2.text

def toXml (n : Node) (tag : String) : String :=
  ((n.walk Writer.visit (Writer.empty.declaration.openTag tag)).2.closeTag tag).text

end Node

end NestedViews
