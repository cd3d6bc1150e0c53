import BootMemory.Word.Saturating
import BootMemory.Word.Exact
import BootMemory.Word.Hex
import BootMemory.Word.LittleEndian
import BootMemory.Page.Range
import BootMemory.Page.Registry
import BootMemory.Firmware.MemoryType
import BootMemory.Firmware.Status
import BootMemory.Firmware.Descriptor
import BootMemory.Firmware.Services
import BootMemory.Firmware.Request
import BootMemory.Firmware.MapQuery
import BootMemory.Firmware.Arena
import BootMemory.MemoryError
import BootMemory.Limits
import BootMemory.Message
import BootMemory.Boot
import BootMemory.E820.Entry
import BootMemory.E820.LegacyMap
import BootMemory.E820.Conversion
import BootMemory.E820.Operations
import BootMemory.E820.Extent
import BootMemory.E820.Table
import BootMemory.E820.Cursor
import BootMemory.E820.Storage
import BootMemory.E820.Handoff
import BootMemory.E820.Report
import BootMemory.Page.Ledger
import BootMemory.Manager.Refresh
import BootMemory.Manager.Operations
import BootMemory.Machine
import BootMemory.Proofs.Ensures
import BootMemory.Proofs.Firmware.WholeBlocks
import BootMemory.Proofs.Firmware.Decoding
import BootMemory.Proofs.Firmware.Custody
import BootMemory.Proofs.Firmware.CheckedArena
import BootMemory.Proofs.Firmware.Dialogue
import BootMemory.Proofs.Firmware.Books
import BootMemory.Proofs.E820.Parts
import BootMemory.Proofs.E820.Runs
import BootMemory.Proofs.E820.Truncation
import BootMemory.Proofs.E820.Coverage
import BootMemory.Proofs.E820.Splitting
import BootMemory.Proofs.E820.Saturation
import BootMemory.Proofs.E820.Canonical
import BootMemory.Proofs.E820.Traversal
import BootMemory.Proofs.E820.Views
import BootMemory.Proofs.E820.Ordering
import BootMemory.Proofs.E820.Growth
import BootMemory.Proofs.Page.Records
import BootMemory.Proofs.Page.Custody
import BootMemory.Proofs.Page.Requests
import BootMemory.Proofs.Page.Bag
import BootMemory.Proofs.Page.Settlement
import BootMemory.Proofs.Page.Placement
import BootMemory.Proofs.Page.PageZero
import BootMemory.Proofs.Page.Failures
import BootMemory.Proofs.Page.Tenancy
import BootMemory.Proofs.Page.Closing
import BootMemory.Proofs.Page.Forgetting
import BootMemory.Proofs.Manager.Conservation
import BootMemory.Proofs.Manager.Attempts
import BootMemory.Proofs.Manager.Requests
import BootMemory.Proofs.Manager.Releases
import BootMemory.Proofs.Manager.Stages
import BootMemory.Proofs.Machine.Chronicle
import BootMemory.Proofs.Machine.Endings
import BootMemory.Proofs.Machine.Reading
import BootMemory.Proofs.Manager.Reuse
import BootMemory.Proofs.Manager.Room
import BootMemory.Proofs.E820.Dependence
import BootMemory.Proofs.E820.Refusals
import BootMemory.Proofs.E820.Sizes
import BootMemory.Proofs.E820.Exactness
import BootMemory.Proofs.Manager.WithinPages
