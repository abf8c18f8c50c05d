import SugarNSpice.CLang
import SugarNSpice.Loops
import SugarNSpice.SortedMap
import SugarNSpice.SparseArray
import SugarNSpice.SparseArrayFacts
import SugarNSpice.SparseArrayRunFacts
import SugarNSpice.SparseArrayCapacityFacts
import SugarNSpice.SparseArrayTest
import SugarNSpice.Bignum
import SugarNSpice.BignumFacts
import SugarNSpice.BignumPrintFacts
import SugarNSpice.BignumMain
import SugarNSpice.BitArray
import SugarNSpice.BitArrayFacts
import SugarNSpice.BitArraySetFacts
import SugarNSpice.Hist
import SugarNSpice.Brackets
import SugarNSpice.BracketsFacts
import SugarNSpice.Matching
import SugarNSpice.Strstr
import SugarNSpice.StrstrFacts
import SugarNSpice.StrstrHashFacts
import SugarNSpice.TestBsearch
import SugarNSpice.TestBsearchFacts
import SugarNSpice.MyHash
import SugarNSpice.MyHashFacts
import SugarNSpice.MyHashGrowthFacts
import SugarNSpice.MyHashFailureFacts
import SugarNSpice.MyHashUsageFacts
import SugarNSpice.RecvNlUevent
import SugarNSpice.RecvNlUeventFacts
import SugarNSpice.FsSlammer
import SugarNSpice.FsSlammerFacts
import SugarNSpice.Processes
import SugarNSpice.RunLength
import SugarNSpice.ProducerTest
import SugarNSpice.ProducerTestFacts
import SugarNSpice.TestUdp
import SugarNSpice.TestUdpFacts
import SugarNSpice.TestSocket
import SugarNSpice.TestSocketFacts
import SugarNSpice.Guarded
import SugarNSpice.Xlock
import SugarNSpice.XlockFacts
import SugarNSpice.SharedFile
import SugarNSpice.XlockCreate
import SugarNSpice.XlockCreateFacts
import SugarNSpice.XlockLife
import SugarNSpice.TestIntUpdate
import SugarNSpice.TestIntUpdateFacts
import SugarNSpice.TestClone
import SugarNSpice.TestMmap3
import SugarNSpice.TestMmap3Facts
import SugarNSpice.WakeupTest
import SugarNSpice.WakeupTestFacts
import SugarNSpice.TestXlock
import SugarNSpice.TestXlockFacts
import SugarNSpice.Xsem
import SugarNSpice.XsemFacts
import SugarNSpice.XsemSound
import SugarNSpice.XsemCreate
import SugarNSpice.XsemCreateFacts
import SugarNSpice.XsemLife
import SugarNSpice.TestSem
import SugarNSpice.TestSemFacts
import SugarNSpice.Psem
import SugarNSpice.PsemFacts
import SugarNSpice.MallocStats
import SugarNSpice.MallocStatsFacts
import SugarNSpice.MallocStatsHcreate
import SugarNSpice.MallocStatsHcreateFacts
import SugarNSpice.Cpio
import SugarNSpice.CpioList
import SugarNSpice.CpioFacts
import SugarNSpice.CpioListFacts
import SugarNSpice.CpioReplaceEnv
import SugarNSpice.CpioReplaceEnvFacts
import SugarNSpice.FileTable
import SugarNSpice.FileTableFacts
import SugarNSpice.CpioLinks
import SugarNSpice.CpioOffset
import SugarNSpice.Newc
import SugarNSpice.CpioArchive
import SugarNSpice.CpioArchiveFacts
import SugarNSpice.GenInitCpio
import SugarNSpice.GenInitCpioLedger
import SugarNSpice.GenInitCpioFacts
import SugarNSpice.GenInitCpioEnd
import SugarNSpice.GenInitCpioBlocks
import SugarNSpice.GenInitCpioArchive
import SugarNSpice.GenInitCpioOrder
import SugarNSpice.GenInitCpioExit
import SugarNSpice.GenInitCpioExitFacts
import SugarNSpice.CpuHogd
import SugarNSpice.CpuHogdFacts
import SugarNSpice.CpuHogdHistoryFacts
import SugarNSpice.CpuHogdV0
import SugarNSpice.CpuHogdCommands
