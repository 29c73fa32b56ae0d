import NestedViews.Proofs.Document.Events
import NestedViews.Proofs.Effect

namespace NestedViews

open Effect

abbrev Visitor (σ : Type) := Event → Effect σ Unit

structure Note where
  event : Event
  answer : Except Error Unit

/-- The state of a visitor, with a note of each event so far. -/
structure Noted (σ : Type) where
  state : σ
  notes : List Note

variable {σ τ : Type} {events : List Event} {notes : List Note} {answer : Except Error Unit}

inductive Shows : List Event → List Note → Except Error Unit → Prop
  | done : Shows [] [] (.ok ())
  | refused {event events e} : Shows (event :: events) [⟨event, .error e⟩] (.error e)
  | accepted {event events notes answer} : Shows events notes answer →
      Shows (event :: events) (⟨event, .ok ()⟩ :: notes) answer

namespace Shows

theorem of_refused (h : Shows events notes answer) {k : Nat} {event : Event} {e : Error}
    (hk : notes[k]? = some ⟨event, .error e⟩) :
    answer = .error e ∧ notes.map Note.event = events.take (k + 1) := by
  induction h generalizing k with
  | done => cases hk
  | refused =>
    cases k with
    | zero =>
      cases hk
      exact ⟨rfl, rfl⟩
    | succ k => cases hk
  | accepted _ ih =>
    cases k with
    | zero => cases hk
    | succ k =>
      obtain ⟨hanswer, hnotes⟩ := ih hk
      exact ⟨hanswer, by rw [List.map_cons, hnotes, List.take_succ_cons]⟩

theorem eq_ok_of_accepted (h : Shows events notes answer)
    (hok : ∀ note ∈ notes, note.answer = .ok ()) : answer = .ok () := by
  induction h with
  | done => rfl
  | refused => cases hok _ (.head _)
  | accepted _ ih => exact ih fun note hnote => hok note (.tail _ hnote)

theorem map_event_of_ok (h : Shows events notes answer) (hok : answer = .ok ()) :
    notes.map Note.event = events := by
  induction h with
  | done => rfl
  | refused => cases hok
  | accepted _ ih => rw [List.map_cons, ih hok]

end Shows

namespace Visitor

def noting (visit : Visitor σ) : Visitor (Noted σ) :=
  fun event noted =>
    let (answer, state) := visit event noted.state
    (answer, ⟨state, noted.notes ++ [⟨event, answer⟩]⟩)

def Calm (visit : Visitor σ) : Prop :=
  ∀ event state, (visit event state).1 = .ok ()

variable {visit : Visitor σ} {event : Event} {state state' : σ}

theorem noting_eq (h : visit event state = (answer, state')) (notes : List Note) :
    visit.noting event ⟨state, notes⟩ = (answer, ⟨state', notes ++ [⟨event, answer⟩]⟩) := by
  rw [noting, h]

theorem forM_noting (h : events.forM visit state = (answer, state')) (before : List Note) :
    ∃ notes, events.forM visit.noting ⟨state, before⟩ = (answer, ⟨state', before ++ notes⟩) ∧
      Shows events notes answer := by
  induction events generalizing state before with
  | nil =>
    cases h
    exact ⟨[], by rw [List.append_nil]; rfl, .done⟩
  | cons event events ih =>
    change (visit event >>= fun _ => events.forM visit) state = _ at h
    change ∃ notes, (visit.noting event >>= fun _ => events.forM visit.noting) _ = _ ∧ _
    rcases hvisit : visit event state with ⟨e | ⟨⟩, state''⟩
    · rw [bind_eq_of_error hvisit] at h
      cases h
      exact ⟨_, bind_eq_of_error (noting_eq hvisit before), .refused⟩
    · rw [bind_eq_of_ok hvisit] at h
      obtain ⟨notes, hrun, hshows⟩ := ih h (before ++ [⟨event, .ok ()⟩])
      refine ⟨⟨event, .ok ()⟩ :: notes, ?_, .accepted hshows⟩
      rw [bind_eq_of_ok (noting_eq hvisit before), hrun, List.append_assoc, List.singleton_append]

theorem forM_calm (h : visit.Calm) (events : List Event) (state : σ) :
    (events.forM visit state).1 = .ok () := by
  induction events generalizing state with
  | nil => rfl
  | cons event events ih =>
    change ((visit event >>= fun _ => events.forM visit) state).1 = _
    rw [bind_eq_of_ok (Prod.ext (h event state) rfl), ih]

end Visitor

namespace Node

def callbacks (n : Node) : List Event :=
  (n.walk (m := StateM (List Event)) (fun event => modify (· ++ [event])) []).2

theorem callbacks_eq (n : Node) : n.callbacks = n.events := by
  have hforM : ∀ events before : List Event,
      (events.forM (m := StateM (List Event)) (fun event => modify (· ++ [event])) before).2 =
        before ++ events := by
    intro events
    induction events with
    | nil => exact fun before => (List.append_nil before).symm
    | cons event events ih =>
      intro before
      exact (ih (before ++ [event])).trans (List.append_cons before event events).symm
  rw [callbacks, walk_eq, hforM, List.nil_append]

theorem exists_notes (n : Node) (visit : Visitor σ) (state : σ) :
    ∃ notes, n.walk visit.noting ⟨state, []⟩ =
        ((n.walk visit state).1, ⟨(n.walk visit state).2, notes⟩) ∧
      Shows n.callbacks notes (n.walk visit state).1 := by
  rw [callbacks_eq, walk_eq, walk_eq]
  exact Visitor.forM_noting rfl []

/-- A visitor is shown the callbacks of a walk one after the other. If it refuses one, the walk
fails in the same way and that one is the last; if it refuses none, it is shown all of them and the
walk succeeds. They are those of every visitor that never refuses. -/
theorem walk_stops_at_refusal (n : Node) (visit : Visitor σ) (state : σ) :
    (∃ answer state' notes, n.walk visit state = (answer, state') ∧
      n.walk visit.noting ⟨state, []⟩ = (answer, ⟨state', notes⟩) ∧
      (∀ k event e, notes[k]? = some ⟨event, .error e⟩ →
        answer = .error e ∧ notes.map Note.event = n.callbacks.take (k + 1)) ∧
      ((∀ note ∈ notes, note.answer = .ok ()) →
        answer = .ok () ∧ notes.map Note.event = n.callbacks)) ∧
    ∀ (τ : Type) (calm : Visitor τ) (start : τ), calm.Calm → ∃ finish notes,
      n.walk calm.noting ⟨start, []⟩ = (.ok (), ⟨finish, notes⟩) ∧
      notes.map Note.event = n.callbacks := by
  constructor
  · obtain ⟨notes, hrun, hshows⟩ := n.exists_notes visit state
    refine ⟨_, _, notes, rfl, hrun, fun _ _ _ => hshows.of_refused, fun hok => ?_⟩
    have hanswer := hshows.eq_ok_of_accepted hok
    exact ⟨hanswer, hshows.map_event_of_ok hanswer⟩
  · intro τ calm start hcalm
    obtain ⟨notes, hrun, hshows⟩ := n.exists_notes calm start
    have hanswer : (n.walk calm start).1 = .ok () := by
      rw [walk_eq]
      exact Visitor.forM_calm hcalm n.events start
    exact ⟨_, notes, hanswer ▸ hrun, hshows.map_event_of_ok hanswer⟩

def cups : Node :=
  let group : Group := ⟨⟨"orders", [⟨"item", .string⟩, ⟨"count", .int64⟩], none, none⟩, none, none⟩
  .root (.mk group [.ofRow group [.string "cup", .int64 2] []])

def patient : Visitor Nat :=
  fun _ patience =>
    match patience with
    | 0 => (.error (.serialization "enough"), 0)
    | patience + 1 => (.ok (), patience)

def counting : Visitor Nat :=
  fun _ count => (.ok (), count + 1)

theorem walk_stops_at_refusal_cups :
    cups.callbacks.length = 6 ∧ cups.walk patient 2 = (.error (.serialization "enough"), 0) ∧
      (∃ notes state, cups.walk patient.noting ⟨2, []⟩ =
        (.error (.serialization "enough"), ⟨state, notes⟩) ∧
        notes.map Note.event = cups.callbacks.take 3) ∧
      counting.Calm ∧ ∃ count notes, cups.walk counting.noting ⟨0, []⟩ = (.ok (), ⟨count, notes⟩) ∧
        notes.map Note.event = cups.callbacks := by
  obtain ⟨⟨answer, state, notes, hwalk, hnoting, hrefused, _⟩, hcalm⟩ :=
    walk_stops_at_refusal cups patient 2
  have hwalk' : cups.walk patient 2 = (.error (.serialization "enough"), 0) := rfl
  obtain ⟨rfl, rfl⟩ := Prod.mk.inj (hwalk.symm.trans hwalk')
  have hnotes : notes = (cups.walk patient.noting ⟨2, []⟩).2.notes := by rw [hnoting]
  have hthird : notes[2]? =
      some ⟨.value ⟨"item", .string⟩ (.string "cup"), .error (.serialization "enough")⟩ :=
    hnotes ▸ rfl
  have hcounting : counting.Calm := fun _ _ => rfl
  exact ⟨rfl, hwalk, ⟨notes, _, hnoting, (hrefused 2 _ _ hthird).2⟩, hcounting,
    hcalm Nat counting 0 hcounting⟩

end Node

end NestedViews
