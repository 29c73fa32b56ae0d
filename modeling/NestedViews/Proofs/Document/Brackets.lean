import NestedViews.Proofs.Document.Decoding
import NestedViews.Proofs.Document.Visitors

/-! The callbacks of a walk as brackets. Nodes and collections are opened and closed in each other,
the values of a node come first in it, and the document can be told from the brackets. -/

namespace NestedViews

/-- What is open in the middle of a walk. An open node is due to show the rest of its values. -/
inductive Open
  | collection (group : Group)
  | node (group : Group) (due : List (Element × Value))
  deriving DecidableEq

def Open.after (opened : List Open) : Event → Option (List Open)
  | .enterCollection group =>
    match opened with
    | .collection _ :: _ | .node _ (_ :: _) :: _ => none
    | _ => some (.collection group :: opened)
  | .enterNode group row =>
    match opened with
    | .node _ _ :: _ => none
    | _ => some (.node group (group.elements.zip row) :: opened)
  | .value element value =>
    match opened with
    | .node group (next :: due) :: outer =>
      if next = (element, value) then some (.node group due :: outer) else none
    | _ => none
  | .leaveNode group =>
    match opened with
    | .node group' [] :: outer => if group' = group then some outer else none
    | _ => none
  | .leaveCollection group =>
    match opened with
    | .collection group' :: outer => if group' = group then some outer else none
    | _ => none

def Leads (opened : List Open) (events : List Event) (opened' : List Open) : Prop :=
  events.foldlM Open.after opened = some opened'

/-- Nodes and collections are opened in turn, each one is closed before the one around it, and each
node shows just the values of its row under the elements of its group before its collections. -/
def Balanced (events : List Event) : Prop :=
  Leads [] events []

namespace Event

def entersNode : Event → Bool
  | .enterNode _ _ => true
  | _ => false

def rise : Event → Int
  | .enterNode _ _ => 1
  | .leaveNode _ => -1
  | _ => 0

end Event

def openNodes (events : List Event) : Int :=
  (events.map Event.rise).sum

def peak : List Event → Int
  | [] => 0
  | event :: events => max 0 (event.rise + peak events)

section Peak

variable {events events' : List Event} {event : Event} {j k : Nat}

theorem isGreatest_peak (events : List Event) :
    IsGreatest (openNodes '' {es | es <+: events}) (peak events) := by
  induction events with
  | nil => simp [openNodes, peak]
  | cons event events ih =>
    obtain ⟨⟨es, hes, hpeak⟩, hle⟩ := ih
    constructor
    · rcases le_total 0 (event.rise + peak events) with h | h
      · refine ⟨event :: es, List.cons_prefix_cons.mpr ⟨rfl, hes⟩, ?_⟩
        rw [peak, max_eq_right h, ← hpeak]
        simp [openNodes]
      · exact ⟨[], List.nil_prefix, by rw [peak, max_eq_left h]; rfl⟩
    · rintro _ ⟨es, hprefix, rfl⟩
      rcases List.prefix_cons_iff.mp hprefix with rfl | ⟨es', rfl, hes'⟩
      · exact le_max_left _ _
      · have hle' : openNodes es' ≤ peak events := hle ⟨es', hes', rfl⟩
        refine le_max_of_le_right ?_
        simpa [openNodes] using hle'

theorem peak_nonneg (events : List Event) : 0 ≤ peak events :=
  (isGreatest_peak events).2 ⟨[], List.nil_prefix, rfl⟩

theorem openNodes_append : openNodes (events ++ events') = openNodes events + openNodes events' := by
  simp [openNodes]

theorem peak_append :
    peak (events ++ events') = max (peak events) (openNodes events + peak events') := by
  induction events with
  | nil =>
    have hnonneg := peak_nonneg events'
    simp [peak, openNodes, hnonneg]
  | cons event events ih =>
    simp only [List.cons_append, peak, ih, openNodes, List.map_cons, List.sum_cons]
    omega

structure Peaks (events : List Event) (k : Nat) : Prop where
  level : openNodes events = 0
  peak_eq : peak events = k

theorem Peaks.append (h : Peaks events j) (h' : Peaks events' k) :
    Peaks (events ++ events') (max j k) := by
  refine ⟨?_, ?_⟩
  · rw [openNodes_append, h.level, h'.level, add_zero]
  · rw [peak_append, h.level, h.peak_eq, h'.peak_eq, zero_add, Nat.cast_max]

theorem peaks_of_rise (h : ∀ event ∈ events, event.rise = 0) : Peaks events 0 := by
  induction events with
  | nil => exact ⟨rfl, rfl⟩
  | cons event events ih =>
    obtain ⟨hevent, hevents⟩ := List.forall_mem_cons.mp h
    obtain ⟨hlevel, hpeak⟩ := ih hevents
    refine ⟨?_, ?_⟩
    · rwa [openNodes, List.map_cons, List.sum_cons, hevent, zero_add]
    · rw [peak, hevent, hpeak]
      rfl

theorem Peaks.node (h : Peaks events k) (group group' : Group) (row : Row) :
    Peaks (.enterNode group row :: (events ++ [.leaveNode group'])) (1 + k) := by
  have hlevel := h.level
  have hpeak := h.peak_eq
  have hlast : openNodes [.leaveNode group'] = -1 ∧ peak [.leaveNode group'] = 0 := ⟨rfl, rfl⟩
  refine ⟨?_, ?_⟩
  · rw [← List.singleton_append, openNodes_append, openNodes_append, hlevel, hlast.1]
    rfl
  · rw [peak, peak_append, hlevel, hpeak, hlast.2]
    simp only [Event.rise]
    omega

namespace Node

mutual

theorem peaks_events : (n : Node) → Peaks n.events n.depth
  | .mk none row collections => by
    have h := peaks_eventsInCollections collections
    rwa [events, depth, Option.isSome_none, if_neg (by decide), zero_add]
  | .mk (some group) row collections => by
    have hvalues : Peaks ((group.elements.zip row).map fun (element, v) => .value element v) 0 :=
      peaks_of_rise (List.forall_mem_map.mpr fun _ _ => rfl)
    have h := (hvalues.append (peaks_eventsInCollections collections)).node group group row
    rwa [List.append_assoc, Nat.zero_max] at h

theorem peaks_eventsInCollections : (collections : List Collection) →
    Peaks (eventsInCollections collections) (depthCollections collections)
  | [] => ⟨rfl, rfl⟩
  | .mk group nodes :: rest => by
    have hedge : ∀ event : Event, event.rise = 0 → Peaks [event] 0 := fun event hevent =>
      peaks_of_rise (List.forall_mem_singleton.mpr hevent)
    have h := (hedge (.enterCollection group) rfl).append ((peaks_eventsInNodes nodes).append
      ((hedge (.leaveCollection group) rfl).append (peaks_eventsInCollections rest)))
    rwa [Nat.zero_max, Nat.zero_max] at h

theorem peaks_eventsInNodes : (nodes : List Node) → Peaks (eventsInNodes nodes) (depthNodes nodes)
  | [] => ⟨rfl, rfl⟩
  | n :: rest => (peaks_events n).append (peaks_eventsInNodes rest)

end

end Node

end Peak

namespace Node

mutual

theorem countP_events : (n : Node) → n.events.countP Event.entersNode = n.count
  | .mk none row collections => by
    rw [events, countP_eventsInCollections collections, count, Option.isSome_none,
      if_neg (by decide), zero_add]
  | .mk (some group) row collections => by
    have hvalues : ((group.elements.zip row).map fun (element, v) => Event.value element v).countP
        Event.entersNode = 0 := by
      simp [List.countP_eq_zero, Event.entersNode]
    rw [events, List.countP_cons, List.countP_append, List.countP_append, hvalues,
      countP_eventsInCollections collections, count]
    simp [Event.entersNode]
    omega

theorem countP_eventsInCollections : (collections : List Collection) →
    (eventsInCollections collections).countP Event.entersNode = countCollections collections
  | [] => rfl
  | .mk group nodes :: rest => by
    rw [eventsInCollections, List.countP_cons, List.countP_append, List.countP_cons,
      countP_eventsInNodes nodes, countP_eventsInCollections rest]
    rfl

theorem countP_eventsInNodes : (nodes : List Node) →
    (eventsInNodes nodes).countP Event.entersNode = countNodes nodes
  | [] => rfl
  | n :: rest => by
    rw [eventsInNodes, List.countP_append, countP_events n, countP_eventsInNodes rest]
    rfl

end

def Inner (n : Node) : Prop :=
  ∀ m ∈ n.preorder, m.group.isSome

/-- A root is at most at the top of a document. It has no row. -/
structure IsDocument (n : Node) : Prop where
  row : n.group = none → n.row = []
  inner : ∀ collection ∈ n.collections, ∀ m ∈ collection.nodes, m.Inner

variable {group : Option Group} {row : Row} {collections : List Collection} {opened : List Open}

theorem inner_mk : (mk group row collections).Inner ↔
    group.isSome ∧ ∀ collection ∈ collections, ∀ n ∈ collection.nodes, n.Inner :=
  forall_mem_preorder

end Node

namespace Leads

variable {opened opened' opened'' : List Open} {event : Event} {events events' : List Event}

theorem cons (h : Open.after opened event = some opened') (h' : Leads opened' events opened'') :
    Leads opened (event :: events) opened'' := by
  rw [Leads, List.foldlM_cons, h]
  exact h'

theorem append (h : Leads opened events opened') (h' : Leads opened' events' opened'') :
    Leads opened (events ++ events') opened'' := by
  rw [Leads, List.foldlM_append, h]
  exact h'

theorem flatMap {α : Type} {f : α → List Event} {as : List α}
    (h : ∀ a ∈ as, Leads opened (f a) opened) : Leads opened (as.flatMap f) opened := by
  induction as with
  | nil => rfl
  | cons a as ih =>
    obtain ⟨ha, has⟩ := List.forall_mem_cons.mp h
    exact ha.append (ih has)

theorem values (group : Group) (due : List (Element × Value)) : Leads (.node group due :: opened)
    (due.map fun (element, v) => .value element v) (.node group [] :: opened) := by
  induction due with
  | nil => rfl
  | cons next due ih => exact cons (if_pos rfl) ih

end Leads

namespace Node

variable {group : Option Group} {row : Row} {collections : List Collection} {opened : List Open}

theorem leads_eventsInCollections
    (henter : ∀ g, Open.after opened (.enterCollection g) = some (.collection g :: opened))
    (hnodes : ∀ collection ∈ collections, ∀ n ∈ collection.nodes, ∀ g,
      Leads (.collection g :: opened) n.events (.collection g :: opened)) :
    Leads opened (eventsInCollections collections) opened := by
  rw [eventsInCollections_eq]
  refine .flatMap fun collection hmem => .cons (henter _) (.append (.flatMap fun n hn => ?_) ?_)
  · exact hnodes collection hmem n hn _
  · exact .cons (if_pos rfl) rfl

theorem leads_events {n : Node} (h : n.Inner)
    (hopened : ∀ g due, opened.head? ≠ some (.node g due)) : Leads opened n.events opened := by
  induction n using induction generalizing opened with
  | mk group row collections ih =>
    obtain ⟨hgroup, hnodes⟩ := inner_mk.mp h
    obtain ⟨g, rfl⟩ := Option.isSome_iff_exists.mp hgroup
    have henter : Open.after opened (.enterNode g row) =
        some (.node g (g.elements.zip row) :: opened) := by
      rcases opened with _ | ⟨_ | ⟨g', due⟩, outer⟩
      · rfl
      · rfl
      · exact absurd rfl (hopened g' due)
    have hcollections : Leads (.node g [] :: opened) (eventsInCollections collections)
        (.node g [] :: opened) :=
      leads_eventsInCollections (fun _ => rfl) fun collection hmem n hn g' =>
        ih collection hmem n hn (hnodes collection hmem n hn) (by simp)
    exact .cons henter ((Leads.values g _).append (hcollections.append (.cons (if_pos rfl) rfl)))

theorem IsDocument.balanced {n : Node} (h : n.IsDocument) : Balanced n.events := by
  obtain ⟨_ | g, row, collections⟩ := n
  · exact leads_eventsInCollections (fun _ => rfl) fun collection hmem n hn g =>
      leads_events (h.inner collection hmem n hn) (by simp)
  · exact leads_events (inner_mk.mpr ⟨rfl, h.inner⟩) (by simp)

end Node

end NestedViews
