import BootMemory.MemoryError

/-!
# Diagnostics

The memory layer reports what it does as values.  Each constructor is an event;
its level and its wording are in {lit}`Message.level` and {lit}`Message.text`
alone.
-/

namespace BootMemory

/-- How much a message matters. -/
inductive Level
  | debug
  | info
  | warn
deriving DecidableEq, Repr, Inhabited

/-- The word for a level. -/
def Level.text : Level → String
  | debug => "DEBUG"
  | info => "INFO"
  | warn => "WARN"

/-- Something that the memory layer reports. -/
inductive Message
  /-- The legacy map filled up before the firmware's map ended. -/
  | mapCutShort
  /-- A map of some bytes became some entries. -/
  | mapConverted (entries bytes : Nat)
  /-- A table was too short for an export. -/
  | exportCutShort (copied entries : Nat)
  /-- A map was put into the hand-off slot. -/
  | mapPublished (entries : Nat)
  /-- No storage could be had for the registry. -/
  | registryUnavailable (cause : MemoryError)
  /-- The registry is ready. -/
  | registryReady (base : UInt64) (slots : Nat)
  /-- The firmware did not take the registry's pages back. -/
  | registryNotReleased (status : Status)
  /-- The firmware granted pages at address zero. -/
  | pageZeroGranted
  /-- The firmware did not take the pages at address zero back. -/
  | pageZeroNotReleased (status : Status)
  /-- A granted range finds no slot and is given back. -/
  | registryFull (slots : Nat) (base : UInt64)
  /-- The firmware did not take a range without a slot back. -/
  | unrecordedNotReleased (base : UInt64) (status : Status)
  /-- The firmware did not take a recorded range back. -/
  | recordedNotReleased (base pages : UInt64) (status : Status)
  /-- The registry is gone, after some ranges that were still recorded. -/
  | registryReleased (ranges : Nat)
  /-- A new manager has no map yet. -/
  | firstMapUnavailable (cause : MemoryError)
  /-- A refresh gave a map. -/
  | mapRefreshed (entries : Nat) (low extended : UInt64)
  /-- A query found its buffer too short. -/
  | bufferTooShort (attempt : Nat) (missing required : UInt64)
  /-- The buffer of a query was not taken back. -/
  | bufferNotReleased (base : UInt64) (cause : MemoryError)
deriving DecidableEq, Repr

namespace Message

/-- How much a message matters. -/
def level : Message → Level
  | mapConverted .. | mapPublished .. | pageZeroGranted | bufferTooShort .. => .debug
  | registryReady .. | registryReleased .. | mapRefreshed .. => .info
  | mapCutShort | exportCutShort .. | registryUnavailable .. | registryNotReleased ..
  | pageZeroNotReleased .. | registryFull .. | unrecordedNotReleased ..
  | recordedNotReleased .. | firstMapUnavailable .. | bufferNotReleased .. => .warn

/-- The wording of a message, after the mark of the memory layer. -/
def body : Message → String
  | mapCutShort => MemoryError.mapFull.message ++ ", dropping the rest of the map"
  | mapConverted entries bytes =>
      "e820: " ++ toString entries ++ " entries from " ++ toString bytes ++ " descriptor bytes"
  | exportCutShort copied entries =>
      "e820 export: " ++ toString copied ++ " of " ++ toString entries ++ " entries fit"
  | mapPublished entries => "published " ++ toString entries ++ " e820 entries"
  | registryUnavailable cause => "cannot allocate page registry: " ++ cause.message
  | registryReady base slots =>
      "page registry at " ++ hexText base ++ ", " ++ toString slots ++ " slots"
  | registryNotReleased status => "free page registry failed: " ++ status.text
  | pageZeroGranted => "firmware returned page 0, reallocating"
  | pageZeroNotReleased status => "free page 0 failed: " ++ status.text
  | registryFull slots base =>
      "too many page allocations (" ++ toString slots ++ " slots), releasing " ++ hexText base
  | unrecordedNotReleased base status =>
      "free " ++ hexText base ++ " failed: " ++ status.text
  | recordedNotReleased base pages status =>
      "free " ++ hexText base ++ " (" ++ toString pages ++ " pages) failed: " ++ status.text
  | registryReleased ranges =>
      "page registry released (" ++ toString ranges ++ " outstanding ranges)"
  | firstMapUnavailable cause => "initial e820 map unavailable: " ++ cause.message
  | mapRefreshed entries low extended =>
      "e820 map: " ++ toString entries ++ " entries, " ++ toString low ++ " KB low, " ++
        toString extended ++ " KB extended"
  | bufferTooShort attempt missing required =>
      "memory map attempt " ++ toString attempt ++ ": " ++ toString missing ++
        " bytes short of " ++ toString required
  | bufferNotReleased base cause =>
      "free memory map buffer " ++ hexText base ++ " failed: " ++ cause.message

/-- The line of a message in a log. -/
def line (message : Message) : String :=
  message.level.text ++ " [MEM] " ++ message.body

end Message

end BootMemory
