import BootMemory.Firmware.Services
import BootMemory.Message

/-!
# Boot-time actions

An action runs against a firmware: it may send requests and report messages, and
it ends with a value.  All that it does is listed in order, so that a statement
about an action can speak of its requests and not only of its value.

Main results:

- Theorems {lit}`Boot.pure_run` and {lit}`Boot.bind_run`: an action in sequence
  passes the firmware's state on and lists the events of both parts.
-/

namespace BootMemory

/-- Something that an action did. -/
inductive Event
  /-- It sent a request and got an answer. -/
  | call (exchange : Exchange)
  /-- It reported a message. -/
  | note (message : Message)
deriving DecidableEq, Repr

namespace Event

/-- The request of an event, if it is one. -/
def exchange? : Event → Option Exchange
  | call exchange => some exchange
  | note _ => none

/-- The message of an event, if it is one. -/
def message? : Event → Option Message
  | call _ => none
  | note message => some message

end Event

/-- How an action ended. -/
structure Boot.Run (σ α : Type) where
  value : α
  firmware : σ
  /-- What the action did, in order. -/
  events : List Event

namespace Boot.Run

variable {σ α : Type}

/-- The requests of a run, in order. -/
def exchanges (run : Boot.Run σ α) : List Exchange := run.events.filterMap Event.exchange?

/-- The messages of a run, in order. -/
def messages (run : Boot.Run σ α) : List Message := run.events.filterMap Event.message?

end Boot.Run

/-- An action against a firmware with states in {lit}`σ`. -/
def Boot (σ α : Type) : Type := σ → Boot.Run σ α

namespace Boot

variable {σ α β : Type}

/-- Run an action from a state of the firmware. -/
def run (action : Boot σ α) (firmware : σ) : Run σ α := action firmware

/-- An action that does nothing and ends with a value. -/
protected def pure (value : α) : Boot σ α :=
  fun firmware => { value, firmware, events := [] }

/-- One action, then another that may depend on the value of the first. -/
protected def bind (action : Boot σ α) (next : α → Boot σ β) : Boot σ β :=
  fun firmware =>
    let first := action firmware
    let second := next first.value first.firmware
    { second with events := first.events ++ second.events }

instance : Monad (Boot σ) where
  pure := Boot.pure
  bind := Boot.bind

/-- Report a message. -/
def note (message : Message) : Boot σ Unit :=
  fun firmware => { value := (), firmware, events := [.note message] }

/-- Report messages in order. -/
def notes (messages : List Message) : Boot σ Unit :=
  fun firmware => { value := (), firmware, events := messages.map .note }

/-! ## Running actions -/

/-- An action that does nothing keeps the firmware and lists no event. -/
@[simp] theorem pure_run (value : α) (firmware : σ) :
    (pure value : Boot σ α).run firmware = { value, firmware, events := [] } := rfl

/-- Actions in sequence pass the firmware on and list the events of both. -/
@[simp] theorem bind_run (action : Boot σ α) (next : α → Boot σ β) (firmware : σ) :
    (action >>= next).run firmware =
      let first := action.run firmware
      let second := (next first.value).run first.firmware
      { second with events := first.events ++ second.events } := rfl

/-- A report changes nothing but the list of events. -/
@[simp] theorem note_run (message : Message) (firmware : σ) :
    (note message : Boot σ Unit).run firmware =
      { value := (), firmware, events := [.note message] } := rfl

/-- Reports change nothing but the list of events. -/
@[simp] theorem notes_run (messages : List Message) (firmware : σ) :
    (notes messages : Boot σ Unit).run firmware =
      { value := (), firmware, events := messages.map .note } := rfl

end Boot

end BootMemory
