import Tunix.Spec.AclDecisions
import Tunix.Spec.AreaSet
import Tunix.Spec.DeferredFree
import Tunix.Spec.DgramLifetime
import Tunix.Spec.DirectoryIndex
import Tunix.Spec.DirectoryListing
import Tunix.Spec.ElfReference
import Tunix.Spec.FilterSync
import Tunix.Spec.FutexPiWake
import Tunix.Spec.FutexWake
import Tunix.Spec.Identities
import Tunix.Spec.JournalCapacity
import Tunix.Spec.Lz4RoundTrip
import Tunix.Spec.MountIsolation
import Tunix.Spec.MutexSafety
import Tunix.Spec.OrphanRecord
import Tunix.Spec.PartitionConfine
import Tunix.Spec.PmmAccounting
import Tunix.Spec.Reassembly
import Tunix.Spec.RecordLocks
import Tunix.Spec.RingCompletions
import Tunix.Spec.SearchPermission
import Tunix.Spec.SemopAtomic
import Tunix.Spec.ShmAccess
import Tunix.Spec.TerminalRuns
import Tunix.Spec.VmmFlush
import Tunix.Spec.ZramRefines
