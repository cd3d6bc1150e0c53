import BootMemory.Word.Hex

/-!
# Firmware status codes

Every firmware service answers with a status.  Zero alone is success: a warning
is no success although it is no error either.

Main results:

- Theorem {lit}`Status.isSuccess_iff`: the only successful status is
  {lit}`Status.success`.
-/

namespace BootMemory

/-- The answer code of a firmware service. -/
structure Status where
  code : UInt64
deriving DecidableEq, Repr, Inhabited

namespace Status

/-- The bit that marks an error. -/
def errorBit : UInt64 := 0x8000000000000000

/-- The error with a given number. -/
def errorCode (number : UInt64) : Status := ⟨errorBit ||| number⟩

/-- The service did its work. -/
def success : Status := ⟨0⟩

/-- The image failed to load. -/
def loadError : Status := errorCode 1

/-- An argument was not acceptable. -/
def invalidParameter : Status := errorCode 2

/-- The service is not offered. -/
def unsupported : Status := errorCode 3

/-- The buffer cannot hold what was asked for. -/
def bufferTooSmall : Status := errorCode 5

/-- No memory is left for the request. -/
def outOfResources : Status := errorCode 9

/-- The named thing does not exist. -/
def notFound : Status := errorCode 14

/-- Whether the service did its work. -/
def isSuccess (status : Status) : Bool := status.code == 0

/-- Whether the error bit is set. -/
def isError (status : Status) : Bool := status.code &&& errorBit != 0

/-- A value that stands when the status is success, else the status itself. -/
def guard {α : Type} (status : Status) (value : α) : Except Status α :=
  if status.isSuccess then .ok value else .error status

/-- The name of a status, or its code when it has none. -/
def text (status : Status) : String :=
  if status = success then "EFI_SUCCESS"
  else if status = loadError then "EFI_LOAD_ERROR"
  else if status = invalidParameter then "EFI_INVALID_PARAMETER"
  else if status = unsupported then "EFI_UNSUPPORTED"
  else if status = bufferTooSmall then "EFI_BUFFER_TOO_SMALL"
  else if status = outOfResources then "EFI_OUT_OF_RESOURCES"
  else if status = notFound then "EFI_NOT_FOUND"
  else "status " ++ hexText status.code

/-- The only successful status is the code zero. -/
theorem isSuccess_iff (status : Status) : status.isSuccess = true ↔ status = success := by
  cases status
  simp [isSuccess, success]

/-- A successful status keeps the value. -/
@[simp] theorem guard_success {α : Type} (value : α) : guard success value = .ok value := rfl

/-- A value comes out exactly of a successful status. -/
theorem guard_eq_ok_iff {α : Type} (status : Status) (value result : α) :
    guard status value = .ok result ↔ status = success ∧ value = result := by
  unfold guard
  split
  next h => simp [(isSuccess_iff status).1 h]
  next h =>
    have hne : status ≠ success := fun heq => h ((isSuccess_iff status).2 heq)
    simp [hne]

end Status

end BootMemory
