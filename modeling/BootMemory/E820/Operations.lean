import Mathlib.Logic.Function.Basic
import BootMemory.E820.Conversion

/-!
# Operations on legacy maps

Several maps can be worked on at a time; they are told apart by numbers.  An operation
changes one of them, and copying is the only way in which one map depends on another.

Main results:

- Definition {lit}`LegacyMap.step` is one operation of any kind.
- Definition {lit}`LegacyMap.Reachable`: the maps that operations lead to.
-/

namespace BootMemory.E820.LegacyMap

/-- An operation on one of several maps. -/
inductive Operation
  /-- Enter a region. -/
  | addRegion (target : Nat) (region : Region)
  /-- Enter what a descriptor contributes. -/
  | addDescriptor (target : Nat) (descriptor : Descriptor)
  /-- Convert the firmware's map. -/
  | convert (target : Nat) (bytes : List UInt8) (stride : UInt64)
  /-- Start again without entries. -/
  | clear (target : Nat)
  /-- Take over another map. -/
  | copy (source target : Nat)
deriving DecidableEq, Repr

/-- Perform one operation.  What is refused leaves all maps as they are, except that a
descriptor keeps the first of two pieces when only the second one is refused. -/
def step (maps : Nat → LegacyMap) : Operation → (Nat → LegacyMap) × Except MemoryError Unit
  | .addRegion target region =>
      match (maps target).addRegion region with
      | .error cause => (maps, .error cause)
      | .ok grown => (Function.update maps target grown, .ok ())
  | .addDescriptor target descriptor =>
      let (grown, result) := (maps target).addDescriptor descriptor
      (Function.update maps target grown, result)
  | .convert target bytes stride =>
      match ofMemoryMap bytes stride with
      | .error cause => (maps, .error cause)
      | .ok map => (Function.update maps target map, .ok ())
  | .clear target => (Function.update maps target empty, .ok ())
  | .copy source target => (Function.update maps target (maps source), .ok ())

/-- Perform operations in order; the maps afterwards and what each operation answered. -/
def runAll (maps : Nat → LegacyMap) :
    List Operation → (Nat → LegacyMap) × List (Except MemoryError Unit)
  | [] => (maps, [])
  | operation :: rest =>
      let (maps, result) := step maps operation
      let (maps, results) := runAll maps rest
      (maps, result :: results)

/-- The maps that operations lead to, from maps without entries. -/
def Reachable (map : LegacyMap) : Prop :=
  ∃ operations target, (runAll (fun _ => empty) operations).1 target = map

theorem reachable_empty : Reachable empty := ⟨[], 0, rfl⟩

/-- What a conversion gives is reached by it alone. -/
theorem reachable_of_ofMemoryMap {bytes : List UInt8} {stride : UInt64} {map : LegacyMap}
    (h : ofMemoryMap bytes stride = .ok map) : map.Reachable := by
  refine ⟨[.convert 0 bytes stride], 0, ?_⟩
  simp only [runAll, step, h, Function.update_self]

end BootMemory.E820.LegacyMap
