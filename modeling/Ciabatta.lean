import Ciabatta.CiaMem.Alignment
import Ciabatta.CiaMem.ArenaFit
import Ciabatta.CiaMem.ArenaLifeCycle
import Ciabatta.CiaMem.BackingFailure
import Ciabatta.CiaMem.PoolGeometry
import Ciabatta.CiaMem.PoolGrowth
import Ciabatta.CiaMem.UseAfterRelease
import Ciabatta.Loader.Buffering
import Ciabatta.Loader.DecRoundTrip
import Ciabatta.Loader.DroppedRelocations
import Ciabatta.Loader.GnuHash
import Ciabatta.Loader.KernelLines
import Ciabatta.Loader.MapsOutcomes
import Ciabatta.Loader.MapsTermination
import Ciabatta.Loader.PrintfMessages
import Ciabatta.Loader.ProgramLoading
import Ciabatta.Loader.RelocationEnds
import Ciabatta.Loader.SysvHash
import Ciabatta.Loader.TlsBlocks
import Ciabatta.Os.Chkstk
import Ciabatta.Os.CrtCtors
import Ciabatta.Os.Memset
import Ciabatta.Os.Wcsicmp
import Ciabatta.Programs.MmSeqCst
import Ciabatta.Programs.Threaded
import Ciabatta.StdlibFile.Characters
import Ciabatta.StdlibFile.Descriptors
import Ciabatta.StdlibFile.FormatBounds
import Ciabatta.StdlibFile.PrintfCount
import Ciabatta.StdlibFile.PrintfFailures
import Ciabatta.StdlibFile.ShortTransfers
import Ciabatta.StdlibFile.StreamAtomicity
import Ciabatta.StdlibString.Memccpy
import Ciabatta.StdlibString.Memcpy
import Ciabatta.StdlibString.Str
import Ciabatta.Tinyrt.CancelAll
import Ciabatta.Tinyrt.HandshakeBuffered
import Ciabatta.Tinyrt.SystemCalls
import Ciabatta.Tinyrt.ThreadList
import Ciabatta.Tinyrt.ThreadStart
