import Mathlib.Logic.Function.Basic
import BootMemory.Proofs.Machine.Requests
import BootMemory.Proofs.Manager.Stages

/-!
# The chronicle of the hand-off slot

The slot does not say who has filled it.  A chronicle is kept beside the machine: it notes
every publication with its author, and how far the manager in each place has come.  It is
written from the events alone, by the rules that the slot is meant to follow, and the slot
always holds what the chronicle says.

Main results:

- Definition {lit}`Chronicle.after`: what an event adds to the chronicle.
- Definition {lit}`Machine.chronicle`: the chronicle of a run.
- Theorem {lit}`Machine.Takes.describes`: an event keeps the chronicle true.
- Theorem {lit}`Machine.describes_runAll`: the slot holds what the chronicle of a run says.
-/

namespace BootMemory

open Function (update update_self update_of_ne)

/-- Who has published a map. -/
inductive Publisher
  /-- The manager that sits in a place. -/
  | occupant (place : Nat)
  /-- A manager that has left its place, or nobody's manager. -/
  | other
deriving DecidableEq, Repr

/-- A map in the slot and who put it there. -/
structure Publication where
  publisher : Publisher
  map : E820.LegacyMap
deriving DecidableEq, Repr

/-- What is known about the slot, and about the managers as far as it concerns the slot. -/
structure Chronicle where
  /-- What was published last, unless the slot was cleared since. -/
  latest : Option Publication := none
  /-- How far the manager in each place has come; a vacant place is silent. -/
  stages : Nat → Manager.Stage := fun _ => .silent

namespace Chronicle

/-- The map that a reader of the slot should see. -/
def shown (chronicle : Chronicle) : E820.LegacyMap :=
  chronicle.latest.elim .empty Publication.map

/-- The author of that map, if there is one. -/
def author? (chronicle : Chronicle) : Option Publisher :=
  chronicle.latest.map Publication.publisher

/-! ## What events add -/

/-- Someone has published. -/
def publish (chronicle : Chronicle) (publisher : Publisher) (map : E820.LegacyMap) : Chronicle :=
  { chronicle with latest := some { publisher, map } }

/-- The slot was cleared. -/
def clear (chronicle : Chronicle) : Chronicle := { chronicle with latest := none }

/-- The manager in a place has come further. -/
def advance (chronicle : Chronicle) (place : Nat) (stage : Manager.Stage) : Chronicle :=
  { chronicle with stages := update chronicle.stages place stage }

/-- The manager in a place has taken the slot back, if it was heard. -/
def takeBack (chronicle : Chronicle) (place : Nat) : Chronicle :=
  if chronicle.stages place = .heard then chronicle.clear else chronicle

/-- A map that the manager in a place has published is from now on somebody else's. -/
def disown (chronicle : Chronicle) (place : Nat) : Chronicle :=
  if chronicle.author? = some (.occupant place) then chronicle.publish .other chronicle.shown
  else chronicle

/-- The manager in a place has ended and left. -/
def vacate (chronicle : Chronicle) (place : Nat) : Chronicle :=
  ((chronicle.takeBack place).disown place).advance place .silent

/-- The manager in a place, which had some map, has performed an operation. -/
def operate (chronicle : Chronicle) (place : Nat) (map : E820.LegacyMap) :
    Manager.Operation → Chronicle
  | .publish =>
      (chronicle.publish (.occupant place) map).advance place
        ((chronicle.stages place).after .publish)
  | .teardown => (chronicle.takeBack place).advance place .closed
  | _ => chronicle

/-- What an event adds.  Only which places are vacant and which maps the managers have is read
off the machine. -/
def after (chronicle : Chronicle) (machine : Machine) : Machine.Operation → Chronicle
  | .install place _ | .vacate place => chronicle.vacate place
  | .operate place operation =>
      match machine.manager? place with
      | none => chronicle
      | some manager => chronicle.operate place manager.map operation
  | .publish map => chronicle.publish .other map
  | .clearHandoff => chronicle.clear

end Chronicle

/-- The chronicle after events, written on from some point. -/
def Machine.chronicle {σ : Type} (services : Services σ) (machine : Machine)
    (chronicle : Chronicle) : List Machine.Operation → σ → Chronicle
  | [], _ => chronicle
  | operation :: rest, firmware =>
      let next := (machine.step services operation).run firmware
      next.value.1.chronicle services (chronicle.after machine operation) rest next.firmware

/-! ## A chronicle tells the truth -/

/-- How far the manager in a place has come. -/
def Machine.stageIn (machine : Machine) (place : Nat) : Manager.Stage :=
  (machine.manager? place).elim .silent Manager.stage

/-- A chronicle tells the truth about a machine. -/
structure Chronicle.Describes (chronicle : Chronicle) (machine : Machine) : Prop where
  handoff : machine.handoff = { map := chronicle.shown }
  stages : ∀ place, chronicle.stages place = machine.stageIn place

section Places

variable {machine : Machine} {place : Nat} {manager : Manager}

namespace Machine

theorem stageIn_of_none (h : machine.manager? place = none) : machine.stageIn place = .silent := by
  rw [stageIn, h, Option.elim_none]

theorem stageIn_of_some (h : machine.manager? place = some manager) :
    machine.stageIn place = manager.stage := by
  rw [stageIn, h, Option.elim_some]

/-- A manager that was heard sits in a place of the machine. -/
theorem lt_length_of_stageIn (h : machine.stageIn place = .heard) :
    place < machine.managers.length := by
  cases hplace : machine.manager? place with
  | none =>
      rw [stageIn_of_none hplace] at h
      cases h
  | some manager => exact lt_length_of_manager? hplace

/-- The stages after one place has got another occupant; a new one is silent, and so is a
vacant place. -/
theorem stageIn_seat (machine : Machine) (place : Nat) (occupant : Option Manager) :
    (machine.seat place occupant).stageIn =
      if place < machine.managers.length then
        update machine.stageIn place (occupant.elim .silent Manager.stage)
      else machine.stageIn := by
  funext other
  rw [stageIn, manager?_seat]
  by_cases hplace : place < machine.managers.length
  · rw [if_pos hplace]
    by_cases heq : other = place
    · rw [if_pos ⟨heq, hplace⟩, heq, update_self]
    · rw [if_neg fun h => heq h.1, update_of_ne heq, stageIn]
  · rw [if_neg hplace, if_neg fun h => hplace h.2, stageIn]

theorem stageIn_seat_of_lt (hplace : place < machine.managers.length)
    (occupant : Option Manager) : (machine.seat place occupant).stageIn =
      update machine.stageIn place (occupant.elim .silent Manager.stage) := by
  rw [stageIn_seat, if_pos hplace]

/-- A silent place stays silent when a manager is seated there that is silent itself. -/
theorem stageIn_seat_of_silent (hsilent : machine.stageIn place = .silent)
    (hmanager : manager.stage = .silent) :
    (machine.seat place (some manager)).stageIn = machine.stageIn := by
  rw [stageIn_seat, Option.elim_some, hmanager, ← hsilent, Function.update_eq_self, ite_self]

end Machine

end Places

/-! ## What an event does -/

namespace Chronicle

variable {chronicle : Chronicle} {machine : Machine} {place : Nat}

theorem stages_advance (chronicle : Chronicle) (place : Nat) (stage : Manager.Stage) :
    (chronicle.advance place stage).stages = update chronicle.stages place stage := rfl

theorem shown_disown (chronicle : Chronicle) (place : Nat) :
    (chronicle.disown place).shown = chronicle.shown := by
  unfold disown
  split
  next => rfl
  next => rfl

theorem stages_disown (chronicle : Chronicle) (place : Nat) :
    (chronicle.disown place).stages = chronicle.stages := by
  unfold disown
  split
  next => rfl
  next => rfl

theorem stages_takeBack (chronicle : Chronicle) (place : Nat) :
    (chronicle.takeBack place).stages = chronicle.stages := by
  unfold takeBack
  split
  next => rfl
  next => rfl

/-- The chronicle takes the slot back just as the manager does. -/
theorem Describes.takeBack (h : chronicle.Describes machine) (place : Nat) :
    (machine.stageIn place).takeBack machine.handoff =
      { map := (chronicle.takeBack place).shown } := by
  rw [Chronicle.takeBack, h.stages]
  cases machine.stageIn place with
  | heard => rfl
  | silent => exact h.handoff
  | closed => exact h.handoff

/-- After the end of the occupant of a place, the place is silent. -/
theorem Describes.vacate (h : chronicle.Describes machine) {calls : List Exchange}
    {after : Machine} (hvacates : machine.Vacates place calls after) :
    (chronicle.vacate place).Describes after ∧ after.stageIn place = .silent := by
  have hstages : (chronicle.vacate place).stages = update machine.stageIn place .silent := by
    rw [Chronicle.vacate, stages_advance, stages_disown, stages_takeBack, funext h.stages]
  have hshown : (chronicle.vacate place).shown = (chronicle.takeBack place).shown :=
    shown_disown _ place
  have hhandoff := h.takeBack place
  rw [← hshown] at hhandoff
  cases hvacates with
  | vacant hvacant =>
      have hsilent := Machine.stageIn_of_none hvacant
      rw [hsilent] at hhandoff
      rw [← hsilent, Function.update_eq_self] at hstages
      exact ⟨⟨hhandoff, congrFun hstages⟩, hsilent⟩
  | ended hplace hends =>
      have hseat := Machine.stageIn_seat_of_lt (Machine.lt_length_of_manager? hplace) none
      have hslot := hends.handoff_eq
      rw [← Machine.stageIn_of_some hplace] at hslot
      refine ⟨⟨hslot.trans hhandoff, ?_⟩, ?_⟩
      · exact congrFun (hstages.trans hseat.symm)
      · exact (congrFun hseat place).trans (update_self ..)

/-- An operation of the occupant of a place. -/
theorem Describes.operate (h : chronicle.Describes machine) {operation : Manager.Operation}
    {manager stepped : Manager} {slot : Handoff} {calls : List Exchange}
    {answer : Manager.Answer} (hplace : machine.manager? place = some manager)
    (htakes : manager.Takes machine.handoff operation calls (stepped, slot, answer)) :
    (chronicle.operate place manager.map operation).Describes
      { machine.seat place (some stepped) with handoff := slot } := by
  have hstage := Machine.stageIn_of_some hplace
  have hseat := Machine.stageIn_seat_of_lt (Machine.lt_length_of_manager? hplace) (some stepped)
  rw [Option.elim_some, htakes.stage_eq, ← hstage] at hseat
  have hslot := htakes.handoff_eq
  rw [← hstage] at hslot
  have hstages := funext h.stages
  cases operation with
  | publish =>
      refine ⟨hslot, congrFun (Eq.trans ?_ hseat.symm)⟩
      rw [← hstages]
      rfl
  | teardown =>
      refine ⟨hslot.trans (h.takeBack place), congrFun (Eq.trans ?_ hseat.symm)⟩
      rw [Chronicle.operate, stages_advance, stages_takeBack, hstages,
        Manager.Stage.after_teardown]
  | _ =>
      refine ⟨hslot.trans h.handoff, congrFun (hstages.trans (Eq.trans ?_ hseat.symm))⟩
      rw [Manager.Stage.after_eq_self _ (by nofun) (by nofun), Function.update_eq_self]

end Chronicle

/-- An event keeps the chronicle true. -/
theorem Machine.Takes.describes {machine after : Machine} {operation : Machine.Operation}
    {calls : List Exchange} (h : machine.Takes operation calls after) {chronicle : Chronicle}
    (hchronicle : chronicle.Describes machine) :
    (chronicle.after machine operation).Describes after := by
  cases h with
  | uninstalled hvacates _ => exact (hchronicle.vacate hvacates).1
  | installed hvacates hcreates =>
      obtain ⟨hvacated, hsilent⟩ := hchronicle.vacate hvacates
      refine ⟨hvacated.handoff, congrFun ?_⟩
      exact (funext hvacated.stages).trans
        (Machine.stageIn_seat_of_silent hsilent hcreates.stage_eq).symm
  | vacated hvacates => exact (hchronicle.vacate hvacates).1
  | unoperated hvacant =>
      rw [Chronicle.after, hvacant]
      exact hchronicle
  | operated hplace htakes =>
      rw [Chronicle.after, hplace]
      exact hchronicle.operate hplace htakes
  | published => exact ⟨rfl, hchronicle.stages⟩
  | cleared => exact ⟨rfl, hchronicle.stages⟩

/-! ## A run -/

namespace Machine

variable {σ : Type} (services : Services σ)

/-- The chronicle of a machine begins with an empty slot and vacant places. -/
theorem describes_ofPlaces (places : Nat) : ({} : Chronicle).Describes (ofPlaces places) :=
  ⟨rfl, fun place => (stageIn_of_none (manager?_ofPlaces places place)).symm⟩

/-- Whatever happens, the slot holds what the chronicle says. -/
theorem describes_runAll {machine : Machine} {chronicle : Chronicle}
    (h : chronicle.Describes machine) (operations : List Operation) (firmware : σ) :
    (machine.chronicle services chronicle operations firmware).Describes
      ((machine.runAll services operations).run firmware).value.1 := by
  induction operations generalizing machine chronicle firmware with
  | nil => exact h
  | cons operation rest ih =>
      have hconducts : services.Conducts (machine.step services operation) firmware _ :=
        conducts_step operation
      exact ih (hconducts.ends.describes h) _

end Machine

end BootMemory
