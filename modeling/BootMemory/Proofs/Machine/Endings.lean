import BootMemory.Firmware.Arena
import BootMemory.Proofs.Machine.Chronicle

/-!
# Whose map the end of a manager takes back

The end of a manager empties the slot exactly if the manager was heard, no matter who has
published since.  So it can take a map away that another manager or somebody else has put
there.  That cannot happen as long as nobody publishes while a manager elsewhere is heard:
then what an end takes away is always the ending manager's own.

Main results:

- Definition {lit}`Machine.Operation.ending?`: events that end the manager in a place.
- Definition {lit}`Machine.Uncontested`: runs in which nobody publishes while a manager elsewhere
  is heard.
- Theorem {lit}`Chronicle.Sole.after`: in such a run the map in the slot is that of the manager
  which is heard.
- Theorem {lit}`Machine.handoff_of_ending`: the slot after the end of a manager.
-/

namespace BootMemory

open Function (update update_self update_of_ne)

/-! ## Events that end a manager -/

/-- The place whose occupant an event ends, if there is one. -/
def Machine.Operation.ending? : Machine.Operation → Option Nat
  | .install place _ | .vacate place | .operate place .teardown => some place
  | _ => none

namespace Chronicle

variable {chronicle : Chronicle} {machine : Machine} {operation : Machine.Operation}
  {place : Nat}

/-- A place whose occupant was not heard has nothing to take back. -/
theorem takeBack_eq_self (h : chronicle.stages place ≠ .heard) :
    chronicle.takeBack place = chronicle := if_neg h

/-- All ends do the same to the slot. -/
theorem Describes.shown_after (h : chronicle.Describes machine)
    (hends : operation.ending? = some place) :
    (chronicle.after machine operation).shown = (chronicle.takeBack place).shown := by
  cases operation with
  | install other limits =>
      obtain rfl := Option.some.inj hends
      exact shown_disown _ _
  | vacate other =>
      obtain rfl := Option.some.inj hends
      exact shown_disown _ _
  | operate other operation =>
      cases operation with
      | teardown =>
          obtain rfl := Option.some.inj hends
          rw [after]
          cases hplace : machine.manager? other with
          | some manager => rfl
          | none =>
              rw [takeBack_eq_self]
              rw [h.stages, Machine.stageIn_of_none hplace]
              decide
      | _ => cases hends
  | publish map => cases hends
  | clearHandoff => cases hends

/-! ## Runs in which nobody publishes over a manager that is heard -/

/-- No manager is heard, except perhaps in one place. -/
def QuietElsewhere (chronicle : Chronicle) (machine : Machine) (place? : Option Nat) : Prop :=
  ∀ other < machine.managers.length, some other ≠ place? → chronicle.stages other ≠ .heard

instance decidableQuietElsewhere (chronicle : Chronicle) (machine : Machine)
    (place? : Option Nat) : Decidable (chronicle.QuietElsewhere machine place?) :=
  inferInstanceAs (Decidable (∀ other < machine.managers.length, _))

/-- Whether an event does not publish while a manager elsewhere is heard. -/
def Admits (chronicle : Chronicle) (machine : Machine) : Machine.Operation → Prop
  | .operate place .publish => chronicle.QuietElsewhere machine (some place)
  | .publish _ => chronicle.QuietElsewhere machine none
  | _ => True

instance decidableAdmits (chronicle : Chronicle) (machine : Machine) :
    (operation : Machine.Operation) → Decidable (chronicle.Admits machine operation)
  | .operate place .publish =>
      inferInstanceAs (Decidable (chronicle.QuietElsewhere machine (some place)))
  | .publish _ => inferInstanceAs (Decidable (chronicle.QuietElsewhere machine none))
  | .operate _ .refresh | .operate _ (.allocate _ _) | .operate _ (.allocateAnywhere _)
  | .operate _ (.free _) | .operate _ (.allocatePool _) | .operate _ (.freePool _)
  | .operate _ .teardown | .install _ _ | .vacate _ | .clearHandoff => isTrue trivial

end Chronicle

namespace Machine

variable {σ : Type} (services : Services σ)

/-- A run in which nobody publishes while a manager elsewhere is heard. -/
def Uncontested (machine : Machine) (chronicle : Chronicle) : List Operation → σ → Prop
  | [], _ => True
  | operation :: rest, firmware =>
      let next := (machine.step services operation).run firmware
      chronicle.Admits machine operation ∧
        next.value.1.Uncontested (chronicle.after machine operation) rest next.firmware

instance decidableUncontested (machine : Machine) (chronicle : Chronicle)
    (operations : List Operation) (firmware : σ) :
    Decidable (machine.Uncontested services chronicle operations firmware) :=
  match operations with
  | [] => isTrue trivial
  | operation :: rest =>
      let next := (machine.step services operation).run firmware
      have := decidableUncontested next.value.1 (chronicle.after machine operation) rest
        next.firmware
      inferInstanceAs (Decidable (_ ∧ _))

end Machine

namespace Chronicle

variable {chronicle : Chronicle} {machine : Machine} {operation : Machine.Operation}
  {place : Nat}

/-- What the slot holds is the map of whichever manager is heard. -/
def Sole (chronicle : Chronicle) : Prop :=
  ∀ place, chronicle.stages place = .heard →
    chronicle.author? = none ∨ chronicle.author? = some (.occupant place)

/-- Where nobody is heard elsewhere, a publication leaves at most its author heard. -/
theorem QuietElsewhere.not_heard (h : chronicle.Describes machine) {place? : Option Nat}
    (hquiet : chronicle.QuietElsewhere machine place?) {other : Nat}
    (hother : some other ≠ place?) : chronicle.stages other ≠ .heard := by
  intro hheard
  have hstage := hheard
  rw [h.stages] at hstage
  exact hquiet other (Machine.lt_length_of_stageIn hstage) hother hheard

theorem author?_takeBack (chronicle : Chronicle) (place : Nat) :
    (chronicle.takeBack place).author? =
      if chronicle.stages place = .heard then none else chronicle.author? := by
  unfold takeBack
  split
  next => rfl
  next => rfl

namespace Sole

/-- At first no manager is heard. -/
theorem init : ({} : Chronicle).Sole := by
  intro place hheard
  cases hheard

theorem takeBack (h : chronicle.Sole) (place : Nat) : (chronicle.takeBack place).Sole := by
  intro other hheard
  rw [stages_takeBack] at hheard
  rw [author?_takeBack]
  split
  next => exact .inl rfl
  next => exact h other hheard

/-- A manager that is not heard any more has no claim to the slot. -/
theorem advance (h : chronicle.Sole) {stage : Manager.Stage} (hstage : stage ≠ .heard) :
    (chronicle.advance place stage).Sole := by
  intro other hheard
  by_cases heq : other = place
  · rw [heq, stages_advance, update_self] at hheard
    exact (hstage hheard).elim
  · rw [stages_advance, update_of_ne heq] at hheard
    exact h other hheard

/-- What is not heard any more loses no claim when it leaves its place. -/
theorem vacate (h : chronicle.Sole) (place : Nat) : (chronicle.vacate place).Sole := by
  intro other hheard
  by_cases heq : other = place
  · rw [heq, Chronicle.vacate, stages_advance, update_self] at hheard
    cases hheard
  · rw [Chronicle.vacate, stages_advance, update_of_ne heq, stages_disown] at hheard
    -- the author is another one than the occupant who leaves, so it stays the same
    have hauthor := h.takeBack place other hheard
    have hkept : (chronicle.takeBack place).author? ≠ some (.occupant place) := by
      rcases hauthor with hnone | hsome
      · rw [hnone]
        exact (Option.some_ne_none _).symm
      · rw [hsome]
        exact fun hplace => heq (Publisher.occupant.inj (Option.some.inj hplace))
    rw [Chronicle.vacate, disown, if_neg hkept]
    exact hauthor

theorem publish (h : ∀ other, some other ≠ Option.none → chronicle.stages other ≠ .heard)
    (map : E820.LegacyMap) : (chronicle.publish .other map).Sole :=
  fun other hheard => (h other nofun hheard).elim

theorem operate (h : chronicle.Sole) {operation : Manager.Operation} {map : E820.LegacyMap}
    (hquiet : operation = .publish → ∀ other, other ≠ place → chronicle.stages other ≠ .heard) :
    (chronicle.operate place map operation).Sole := by
  cases operation with
  | publish =>
      intro other hheard
      by_cases heq : other = place
      · rw [heq]
        exact .inr rfl
      · have hbefore : (chronicle.operate place map .publish).stages other =
            chronicle.stages other := update_of_ne heq ..
        rw [hbefore] at hheard
        exact (hquiet rfl other heq hheard).elim
  | teardown => exact (h.takeBack place).advance nofun
  | _ => exact h

/-- An event that does not publish over a manager which is heard keeps it so. -/
theorem after (h : chronicle.Sole) (hchronicle : chronicle.Describes machine)
    (hadmits : chronicle.Admits machine operation) :
    (chronicle.after machine operation).Sole := by
  cases operation with
  | install place limits => exact h.vacate place
  | vacate place => exact h.vacate place
  | operate place operation =>
      rw [Chronicle.after]
      cases hplace : machine.manager? place with
      | none => exact h
      | some manager =>
          refine h.operate ?_
          rintro rfl other hother
          exact QuietElsewhere.not_heard hchronicle hadmits
            fun heq => hother (Option.some.inj heq)
  | publish map => exact publish (fun _ => QuietElsewhere.not_heard hchronicle hadmits) map
  | clearHandoff => exact fun _ _ => .inl rfl

end Sole

end Chronicle

namespace Machine

section Operations

variable {σ : Type} (services : Services σ)

theorem sole_runAll {machine : Machine} {chronicle : Chronicle} (hsole : chronicle.Sole)
    (hchronicle : chronicle.Describes machine) {operations : List Operation} {firmware : σ}
    (h : machine.Uncontested services chronicle operations firmware) :
    (machine.chronicle services chronicle operations firmware).Sole := by
  induction operations generalizing machine chronicle firmware with
  | nil => exact hsole
  | cons operation rest ih =>
      obtain ⟨hadmits, hrest⟩ := h
      have hconducts : services.Conducts (machine.step services operation) firmware _ :=
        conducts_step operation
      exact ih (hsole.after hchronicle hadmits) (hconducts.ends.describes hchronicle) hrest

/-- On any firmware and after any events, the slot holds what was published last.  The end of
a manager empties it if this manager was heard, and otherwise leaves it as it is.  If nobody
has published while a manager elsewhere was heard, then an end changes the slot only if the map
in it was published by the ending manager itself. -/
theorem handoff_of_ending (places : Nat) (start : σ) (operations : List Operation)
    {ending : Operation} {place : Nat} (hends : ending.ending? = some place) :
    let run := ((ofPlaces places).runAll services operations).run start
    let told := (ofPlaces places).chronicle services {} operations start
    let ended := (run.value.1.step services ending).run run.firmware
    run.value.1.handoff.map = told.shown ∧
      ended.value.1.handoff =
        (if told.stages place = .heard then {} else run.value.1.handoff) ∧
      ((ofPlaces places).Uncontested services {} operations start →
        ended.value.1.handoff ≠ run.value.1.handoff →
          told.author? = some (.occupant place)) := by
  intro run told ended
  have hbefore : told.Describes run.value.1 :=
    describes_runAll services (describes_ofPlaces places) operations start
  have hconducts : services.Conducts (run.value.1.step services ending) run.firmware _ :=
    conducts_step ending
  have hafter := (hconducts.ends.describes hbefore).handoff
  rw [hbefore.shown_after hends] at hafter
  have hslot : ended.value.1.handoff =
      if told.stages place = .heard then {} else run.value.1.handoff := by
    rw [hafter, Chronicle.takeBack]
    split
    next => rfl
    next => exact hbefore.handoff.symm
  refine ⟨congrArg Handoff.map hbefore.handoff, hslot, ?_⟩
  intro huncontested hchanged
  have hsole : told.Sole :=
    sole_runAll services .init (describes_ofPlaces places) huncontested
  by_cases hheard : told.stages place = .heard
  · refine (hsole place hheard).resolve_left ?_
    -- without an author the slot is empty already
    intro hnone
    apply hchanged
    have hempty : told.shown = .empty := by
      rw [Chronicle.shown, Option.map_eq_none_iff.1 hnone, Option.elim_none]
    rw [hslot, if_pos hheard, hbefore.handoff, hempty]
    rfl
  · rw [hslot, if_neg hheard] at hchanged
    exact (hchanged rfl).elim

end Operations

/-- A first manager ends before the second one publishes, and its map is somebody else's when
it leaves; then the second manager leaves and takes its own map along. -/
theorem handoff_of_ending_two_managers :
    let start : Arena :=
      { map := Descriptor.encode (.replicate 4 0) []
          { typeCode := 7, physicalStart := 0x1000, virtualStart := 0, pages := 1,
            attributes := 0 } }
    let operations : List Operation :=
      [.install 0 {}, .install 1 {}, .operate 0 .publish, .operate 0 .teardown,
        .operate 0 .refresh, .operate 0 .publish, .vacate 0, .operate 1 .publish]
    let run := ((ofPlaces 2).runAll Arena.services operations).run start
    let told := (ofPlaces 2).chronicle Arena.services {} operations start
    Operation.ending? (.vacate 1) = some 1 ∧
      (ofPlaces 2).Uncontested Arena.services {} operations start ∧
      ((run.value.1.step Arena.services (.vacate 1)).run run.firmware).value.1.handoff ≠
        run.value.1.handoff ∧
      told.author? = some (.occupant 1) := by
  intro start operations
  have hends : Operation.ending? (.vacate 1) = some 1 := rfl
  have hauthor := (handoff_of_ending Arena.services 2 start operations hends).2.2
  refine ⟨hends, ?uncontested, ?changed, hauthor ?uncontested ?changed⟩
  case uncontested => decide +kernel
  case changed => decide +kernel

/-- In general the map that an end takes away can be another manager's: two managers publish,
and the end of the first one takes the map of the second one away. -/
theorem not_forall_author_of_ending :
    ¬ ∀ (start : Arena) (operations : List Operation) (ending : Operation) (place : Nat),
      ending.ending? = some place →
        let run := ((ofPlaces 2).runAll Arena.services operations).run start
        ((run.value.1.step Arena.services ending).run run.firmware).value.1.handoff ≠
            run.value.1.handoff →
          ((ofPlaces 2).chronicle Arena.services {} operations start).author? =
            some (.occupant place) := by
  intro h
  let start : Arena :=
    { map := Descriptor.encode (.replicate 4 0) []
        { typeCode := 7, physicalStart := 0x1000, virtualStart := 0, pages := 1,
          attributes := 0 } }
  let operations : List Operation :=
    [.install 0 {}, .install 1 {}, .operate 0 .publish, .operate 1 .publish]
  have hauthor := h start operations (.operate 0 .teardown) 0 rfl (by decide +kernel)
  have hother : ((ofPlaces 2).chronicle Arena.services {} operations start).author? =
      some (.occupant 1) := by
    decide +kernel
  cases hother.symm.trans hauthor

end Machine

end BootMemory
