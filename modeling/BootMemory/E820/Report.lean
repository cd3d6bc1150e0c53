import BootMemory.E820.Extent
import BootMemory.Message

/-!
# What is reported about the legacy map

The messages of a conversion, an export, a refresh and a publication follow from
the map alone.
-/

namespace BootMemory.E820.LegacyMap

/-- What is reported when a map of some bytes has been converted. -/
def conversionReport (map : LegacyMap) (bytes : Nat) : List Message :=
  (if map.truncated then [.mapCutShort] else []) ++ [.mapConverted map.size bytes]

/-- What is reported when some entries have been copied into a table. -/
def exportReport (map : LegacyMap) (copied : Nat) : List Message :=
  if copied < map.size then [.exportCutShort copied map.size] else []

/-- What is reported when a refresh gave the map. -/
def refreshReport (map : LegacyMap) : Message :=
  .mapRefreshed map.size map.conventionalKib map.extendedKib

/-- What is reported when the map has been published. -/
def publicationReport (map : LegacyMap) : Message := .mapPublished map.size

end BootMemory.E820.LegacyMap
