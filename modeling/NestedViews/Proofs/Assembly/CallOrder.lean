import NestedViews.Proofs.Assembly.Purity
import NestedViews.Proofs.Assembly.Statistics

/-! The order of the calls that an assembly makes. Whatever the strategy, the collections of a group
are asked for in the order of the document. -/

namespace NestedViews

open Effect

variable {σ α : Type} {e : Executor σ} {c : Catalog} {g h : Group} {scope : Scope} {query : String}

section Logs

def Recorded.log (r : Recorded σ) : Logged σ :=
  ⟨r.world, r.exchanges.map Exchange.call⟩

namespace Assembler

def logged (a : Assembler σ) : Assembler (Logged σ) :=
  a.through Logged.world a.executor.logged

end Assembler

end Logs

def Group.query? (g : Group) : Option String :=
  g.definition.template.map QueryTemplate.query

section Serves

variable {sites : List Site} {part : List Exchange} {requests : List (Group × List Site)}
variable {parts : List (List Exchange)} {groups : List Group}

end Serves

section Document

variable {a : Assembler σ} {world : σ} {nodes : List Node} {r r' : Recorded σ} {stats : Stats}

variable (hc : a.catalog.Coherent) (hg : g ∈ a.catalog.groups)
variable (hdistinct : ((a.catalog.subtree g).filterMap Group.query?).Nodup)
variable (hnodes : ∀ n ∈ nodes, (a.catalog.outline g).Shapes n) (hr : r.exchanges = [])
include hc hg hdistinct hnodes hr

end Document

namespace Assembler

variable {a : Assembler σ} {answer : String → List Value → Except Error (List Row)}
variable {inv : σ → Prop} {world : σ} {name : String} {rows : List Row} {doc : Node} {l : Logged σ}

end Assembler

end NestedViews
