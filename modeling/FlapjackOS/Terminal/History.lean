import FlapjackOS.Terminal.Draft

namespace FlapjackOS.Terminal

open Runs

def KeyboardEvent.IsDown (event : KeyboardEvent) : Prop :=
  event.state = .pressed ∧ (event.key = .numpad2 ∨ event.key = .downArrow)

namespace Draft
variable {entries : List (List UInt8)} {draft : Draft} {browsed : Int}

/-- What has become of the draft when the history is browsed. -/
def browse (entries : List (List UInt8)) (draft : Draft) (browsed : Int) : Draft :=
  ({ draft with stash := draft.input }.recallLine entries browsed).1

theorem browse_browsed : (draft.browse entries browsed).browsed = browsed := rfl

theorem browse_down (lowest : -1 ≤ browsed) :
    ((draft.browse entries browsed).pressDown entries).1 = draft.browse entries (max (browsed - 1) (-1)) := by
  rw [pressDown, browse_browsed]
  split
  · rw [max_eq_left (by omega)]
    rfl
  · next typing =>
    rw [not_not.mp typing]
    rfl

end Draft

namespace LineEditor
variable {history : History} {editor next : LineEditor} {draft : Draft}
  {event : KeyboardEvent} {events : List KeyboardEvent} {browsed : Int}

section
variable (running : editor.haveANewline = false)
include running

theorem listen_down (down : event.IsDown) : editor.listen event = editor.pressDown.map Prod.fst := by
  rw [listen, running, if_neg Bool.false_ne_true, handle, if_neg (not_not.mpr down.1)]
  rcases down.2 with key | key <;> rw [key]

end

section
variable (running : draft.done = false) (represents : Represents history editor (draft.browse history.entries browsed))
include running represents

/-- Presses of DOWN stop at what is being typed. -/
theorem Represents.descend (down : ∀ event ∈ events, event.IsDown) (lowest : -1 ≤ browsed) :
    ∃ next, run listen editor events = some next ∧
      Represents history next (draft.browse history.entries (max (browsed - events.length) (-1))) := by
  induction events generalizing editor browsed with
  | nil =>
    refine ⟨editor, rfl, ?_⟩
    rwa [List.length_nil, Int.natCast_zero, Int.sub_zero, max_eq_left lowest]
  | cons event rest ih =>
    obtain ⟨here, later⟩ := List.forall_mem_cons.mp down
    obtain ⟨middle, presses, result⟩ := represents.pressDown
    rw [Draft.browse_down lowest] at result
    obtain ⟨next, ran, result⟩ := ih result later (by omega)
    refine ⟨next, ?_, ?_⟩
    · rw [run, listen_down (represents.done.trans running) here, presses]
      exact ran
    · convert result using 2
      rw [List.length_cons]
      omega

end

end LineEditor

end FlapjackOS.Terminal
