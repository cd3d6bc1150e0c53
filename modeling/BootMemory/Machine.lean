import BootMemory.Manager.Operations

/-!
# Several managers on one machine

Managers come and go, but the machine has one hand-off slot that all of them
share.  Each manager sits in a place of its own; a place can be vacant.

Main results:

- Definition {lit}`Machine.step` is one event in the life of the machine.
-/

namespace BootMemory

/-- The managers of a machine and the slot that they share. -/
structure Machine where
  handoff : Handoff := {}
  /-- Who sits in each place. -/
  managers : List (Option Manager)
deriving DecidableEq, Repr

namespace Machine

/-- A machine with some vacant places and an empty slot. -/
def ofPlaces (places : Nat) : Machine := { managers := List.replicate places none }

/-- The manager in a place. -/
def manager? (machine : Machine) (place : Nat) : Option Manager :=
  (machine.managers[place]?).join

/-- The machine with another occupant in a place. -/
def seat (machine : Machine) (place : Nat) (occupant : Option Manager) : Machine :=
  { machine with managers := machine.managers.set place occupant }

section Operations

variable {σ : Type} (services : Services σ)

/-- End the manager in a place, if there is one, and leave the place vacant. -/
def vacate (machine : Machine) (place : Nat) : Boot σ Machine := do
  match machine.manager? place with
  | none => return machine
  | some manager =>
      let (_, handoff) ← manager.teardown services machine.handoff
      return { machine.seat place none with handoff }

/-- Make a manager in a place, after the end of its last occupant.  The place stays
vacant when that fails. -/
def install (machine : Machine) (place : Nat) (limits : Limits) :
    Boot σ (Machine × Except MemoryError Unit) := do
  let machine ← machine.vacate services place
  match ← Manager.create services limits with
  | .error cause => return (machine, .error cause)
  | .ok manager => return (machine.seat place (some manager), .ok ())

/-- Let the manager in a place perform an operation, if there is one. -/
def operate (machine : Machine) (place : Nat) (operation : Manager.Operation) :
    Boot σ (Machine × Option Manager.Answer) := do
  match machine.manager? place with
  | none => return (machine, none)
  | some manager =>
      let (manager, handoff, answer) ← manager.step services machine.handoff operation
      return ({ machine.seat place (some manager) with handoff }, some answer)

/-- End the managers in the given places, in order. -/
def vacateAll (machine : Machine) : List Nat → Boot σ Machine
  | [] => return machine
  | place :: rest => do
      let machine ← machine.vacate services place
      machine.vacateAll rest

end Operations

/-- The machine with a cleared hand-off slot. -/
def clearHandoff (machine : Machine) : Machine :=
  { machine with handoff := machine.handoff.clear }

/-- The machine with a map put directly into the hand-off slot. -/
def publish (machine : Machine) (map : E820.LegacyMap) : Machine :=
  { machine with handoff := machine.handoff.publish map }

/-! ## Sequences of events -/

/-- An event in the life of the machine. -/
inductive Operation
  | install (place : Nat) (limits : Limits)
  | vacate (place : Nat)
  | operate (place : Nat) (operation : Manager.Operation)
  | publish (map : E820.LegacyMap)
  | clearHandoff
deriving DecidableEq, Repr

/-- What an event answers. -/
inductive Answer
  /-- Nothing to answer. -/
  | nothing
  /-- The place is vacant. -/
  | vacant
  /-- Whether a manager could be made. -/
  | installed (result : Except MemoryError Unit)
  /-- What the manager in the place answered. -/
  | answered (answer : Manager.Answer)

/-- Let one event happen. -/
def step {σ : Type} (services : Services σ) (machine : Machine) :
    Operation → Boot σ (Machine × Answer)
  | .install place limits => do
      let (machine, result) ← machine.install services place limits
      return (machine, .installed result)
  | .vacate place => do
      let answer : Answer := if (machine.manager? place).isSome then .nothing else .vacant
      let machine ← machine.vacate services place
      return (machine, answer)
  | .operate place operation => do
      match ← machine.operate services place operation with
      | (machine, none) => return (machine, .vacant)
      | (machine, some answer) => return (machine, .answered answer)
  | .publish map => return (machine.publish map, .nothing)
  | .clearHandoff => return (machine.clearHandoff, .nothing)

/-- Let events happen in order. -/
def runAll {σ : Type} (services : Services σ) (machine : Machine) :
    List Operation → Boot σ (Machine × List Answer)
  | [] => return (machine, [])
  | operation :: rest => do
      let (machine, answer) ← step services machine operation
      let (machine, answers) ← runAll services machine rest
      return (machine, answer :: answers)

end Machine

end BootMemory
