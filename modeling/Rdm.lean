import Rdm.Core.FeedTypeEnds
import Rdm.Core.SessionRules
import Rdm.Core.ProcessNotifier
import Rdm.Pq.RegionLocks
import Rdm.Pq.EvictionOrder
import Rdm.Core.Wakeup
import Rdm.Pq.CursorRetry
import Rdm.Pq.DirectEntries
import Rdm.Pq.EntryLifecycle
import Rdm.Pq.Sweep
import Rdm.Pq.Interchange
import Rdm.Apps.PqCreate
import Rdm.Pq.Residence
import Rdm.Pq.BlockArena
import Rdm.Pq.SignatureMap
import Rdm.Pq.SlotBounds
import Rdm.Network.ClassDecoding
import Rdm.Core.UldbLimits
import Rdm.Core.UpFilter
import Rdm.Core.RequestPatterns
import Rdm.Pq.ReadBack
import Rdm.Network.SunRpcDispatcher
import Rdm.Pqact.FileCache
import Rdm.Pqact.StripHeaders
import Rdm.Pqact.PipeBuffer
import Rdm.Pqact.PqactParser
import Rdm.Core.InfoFile
import Rdm.Core.Origins
import Rdm.Core.AutoShifter
import Rdm.Core.Registry
import Rdm.Core.SemaphoreRWLock
import Rdm.Apps.RdmPull
