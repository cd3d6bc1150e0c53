import BootMemory.Machine
import BootMemory.Proofs.Manager.Requests

/-!
# What the events of a machine ask

An event concerns the manager in one place, the slot, or both.  What it asks is what this
manager asks; the other places stay as they are.

Main results:

- Theorem {lit}`Machine.manager?_seat`: who sits where after one place has got another occupant.
- Definition {lit}`Machine.Takes`: the requests of an event of any kind.
- Theorem {lit}`Machine.conducts_step`: events go in one of these ways.
-/

namespace BootMemory.Machine

/-! ## Places -/

/-- Another occupant in one place leaves the other places alone.  A place that the machine does
not have stays vacant. -/
theorem manager?_seat (machine : Machine) (place other : Nat) (occupant : Option Manager) :
    (machine.seat place occupant).manager? other =
      if other = place ∧ place < machine.managers.length then occupant
      else machine.manager? other := by
  rw [manager?, manager?, seat, List.getElem?_set]
  by_cases heq : other = place
  · rw [heq]
    by_cases hplace : place < machine.managers.length
    · rw [if_pos rfl, if_pos hplace, if_pos ⟨rfl, hplace⟩, Option.join_some]
    · rw [if_pos rfl, if_neg hplace, if_neg fun h => hplace h.2,
        List.getElem?_eq_none (Nat.le_of_not_lt hplace)]
  · rw [if_neg (Ne.symm heq), if_neg fun h => heq h.1]

theorem lt_length_of_manager? {machine : Machine} {place : Nat} {manager : Manager}
    (h : machine.manager? place = some manager) : place < machine.managers.length := by
  by_contra hout
  rw [manager?, List.getElem?_eq_none (Nat.le_of_not_lt hout)] at h
  cases h

/-- No manager sits on a new machine. -/
theorem manager?_ofPlaces (places place : Nat) : (ofPlaces places).manager? place = none := by
  rw [manager?, ofPlaces, List.getElem?_replicate]
  split <;> rfl

/-! ## The ways in which an event can go -/

/-- The end of whoever sits in a place. -/
inductive Vacates (machine : Machine) (place : Nat) : List Exchange → Machine → Prop
  | vacant (hvacant : machine.manager? place = none) : Vacates machine place [] machine
  | ended {manager ended : Manager} {slot : Handoff} {calls : List Exchange}
      {answer : Manager.Answer} (hplace : machine.manager? place = some manager)
      (hends : manager.Takes machine.handoff .teardown calls (ended, slot, answer)) :
      Vacates machine place calls { machine.seat place none with handoff := slot }

/-- An event of any kind. -/
inductive Takes (machine : Machine) : Operation → List Exchange → Machine → Prop
  | uninstalled {place : Nat} {limits : Limits} {calls made : List Exchange} {vacated : Machine}
      {cause : MemoryError} (hvacates : machine.Vacates place calls vacated)
      (hcreates : Manager.Creates limits made (.error cause)) :
      Takes machine (.install place limits) (calls ++ made) vacated
  | installed {place : Nat} {limits : Limits} {calls made : List Exchange} {vacated : Machine}
      {manager : Manager} (hvacates : machine.Vacates place calls vacated)
      (hcreates : Manager.Creates limits made (.ok manager)) :
      Takes machine (.install place limits) (calls ++ made) (vacated.seat place (some manager))
  | vacated {place : Nat} {calls : List Exchange} {after : Machine}
      (hvacates : machine.Vacates place calls after) :
      Takes machine (.vacate place) calls after
  | unoperated {place : Nat} {operation : Manager.Operation}
      (hvacant : machine.manager? place = none) :
      Takes machine (.operate place operation) [] machine
  | operated {place : Nat} {operation : Manager.Operation} {manager after : Manager}
      {slot : Handoff} {calls : List Exchange} {answer : Manager.Answer}
      (hplace : machine.manager? place = some manager)
      (htakes : manager.Takes machine.handoff operation calls (after, slot, answer)) :
      Takes machine (.operate place operation) calls
        { machine.seat place (some after) with handoff := slot }
  | published {map : E820.LegacyMap} : Takes machine (.publish map) [] (machine.publish map)
  | cleared : Takes machine .clearHandoff [] machine.clearHandoff

/-! ## Every run goes in one of these ways -/

section Operations

open Services (Conducts)

variable {σ : Type} {services : Services σ} {firmware : σ} {machine : Machine}

theorem conducts_vacate (place : Nat) :
    services.Conducts (vacate services machine place) firmware (machine.Vacates place) := by
  unfold vacate
  cases hplace : machine.manager? place with
  | none => exact .pure (.vacant hplace)
  | some manager =>
      refine (Manager.conducts_teardown machine.handoff).bind_pure ?_
      rintro calls ⟨ended, slot⟩ hends
      exact ⟨_, rfl, .ended hplace hends⟩

theorem conducts_install (place : Nat) (limits : Limits) :
    services.Conducts (install services machine place limits) firmware fun calls outcome =>
      machine.Takes (.install place limits) calls outcome.1 := by
  refine (conducts_vacate place).bind ?_
  intro calls vacated after hvacates
  refine (Manager.conducts_create limits).bind_pure ?_
  intro made result hcreates
  cases result with
  | error cause => exact ⟨_, rfl, .uninstalled hvacates hcreates⟩
  | ok manager => exact ⟨_, rfl, .installed hvacates hcreates⟩

theorem conducts_operate (place : Nat) (operation : Manager.Operation) :
    services.Conducts (operate services machine place operation) firmware fun calls outcome =>
      machine.Takes (.operate place operation) calls outcome.1 := by
  unfold operate
  cases hplace : machine.manager? place with
  | none => exact .pure (.unoperated hplace)
  | some manager =>
      refine (Manager.conducts_step machine.handoff operation).bind_pure ?_
      rintro calls ⟨stepped, slot, answer⟩ htakes
      exact ⟨_, rfl, .operated hplace htakes⟩

/-- An event goes in one of the ways of its kind. -/
theorem conducts_step (operation : Operation) :
    services.Conducts (step services machine operation) firmware fun calls outcome =>
      machine.Takes operation calls outcome.1 := by
  cases operation with
  | install place limits =>
      exact (conducts_install place limits).bind_pure fun _ _ h => ⟨_, rfl, h⟩
  | vacate place =>
      exact (conducts_vacate place).bind_pure fun _ _ h => ⟨_, rfl, .vacated h⟩
  | operate place operation =>
      refine (conducts_operate place operation).bind_pure ?_
      rintro calls ⟨after, answer⟩ h
      cases answer with
      | none => exact ⟨_, rfl, h⟩
      | some answer => exact ⟨_, rfl, h⟩
  | publish map => exact .pure .published
  | clearHandoff => exact .pure .cleared

end Operations

end BootMemory.Machine
