import BootMemory.Firmware.Descriptor
import BootMemory.MemoryError
import BootMemory.Firmware.Request

/-!
# Fetching the firmware's memory map

One query ends in one of three ways: the whole map is in the buffer, the buffer
was too small, or the firmware failed.  Growing the buffer is left to the caller.

Main results:

- Theorem {lit}`MapOutcome.ofAnswer_eq_error_iff`: a query fails exactly on a status
  other than success and a short buffer.
- Theorem {lit}`Services.length_fetchMap`: a query keeps the length of its buffer.
-/

namespace BootMemory

/-- The descriptors that a layout finds in a buffer. -/
def MapLayout.descriptors? (layout : MapLayout) (buffer : List UInt8) :
    Option DescriptorStream :=
  DescriptorStream.ofBytes? (buffer.take layout.mapSize.toNat) layout.stride

/-- How a query that did not fail ended. -/
inductive MapOutcome
  /-- The whole map is in the buffer. -/
  | complete (layout : MapLayout)
  /-- The buffer was too small; the layout says what the firmware wants. -/
  | insufficient (layout : MapLayout)
deriving DecidableEq, Repr

namespace MapOutcome

/-- What a query found out. -/
def layout : MapOutcome → MapLayout
  | complete layout => layout
  | insufficient layout => layout

/-- What the status of a query means. -/
def ofAnswer (status : Status) (layout : MapLayout) : Except MemoryError MapOutcome :=
  if status = .success then .ok (.complete layout)
  else if status = .bufferTooSmall then .ok (.insufficient layout)
  else .error (.firmware status)

/-- A query fails exactly on a status other than success and a short buffer. -/
theorem ofAnswer_eq_error_iff (status : Status) (layout : MapLayout) (cause : MemoryError) :
    ofAnswer status layout = .error cause ↔
      status ≠ .success ∧ status ≠ .bufferTooSmall ∧ cause = .firmware status := by
  unfold ofAnswer
  split
  next h => simp [h]
  next hsuccess =>
    split
    next h => simp [h]
    next hshort => simp [hsuccess, hshort, eq_comm]

end MapOutcome

/-- Query the memory map into a buffer; the outcome and the buffer afterwards. -/
def Services.fetchMap {σ : Type} (services : Services σ) (buffer : List UInt8) :
    Boot σ (Except MemoryError MapOutcome × List UInt8) := do
  let answer ← services.queryMap buffer
  return (MapOutcome.ofAnswer answer.status answer.layout, answer.buffer)

/-- A query keeps the length of the buffer. -/
theorem Services.length_fetchMap {σ : Type} (services : Services σ) (buffer : List UInt8)
    (firmware : σ) :
    ((services.fetchMap buffer).run firmware).value.2.length = buffer.length := by
  simp [fetchMap]

end BootMemory
