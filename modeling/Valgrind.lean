import Valgrind.Cachegrind.Shadow
import Valgrind.Cachegrind.Straddle
import Valgrind.Cachegrind.FastPath
import Valgrind.Cachegrind.FixedWindow
import Valgrind.Cachegrind.Output
import Valgrind.CgMerge.Overflow
import Valgrind.Core.HashTable
import Valgrind.Core.RangeMap
import Valgrind.Core.SparseWAIter
import Valgrind.Core.Transtab
import Valgrind.Memcheck.MempoolTrim
import Valgrind.Aspacemgr.Taint
import Valgrind.Memcheck.HeapAgreement
import Valgrind.Helgrind.Libhb
import Valgrind.Helgrind.WordSetU
import Valgrind.Memcheck.LossRecords
import Valgrind.Memcheck.LeakCliques
import Valgrind.Helgrind.VtsCollect
import Valgrind.Cachegrind.LruInclusion
import Valgrind.Drd.ConflictSet
import Valgrind.Cachegrind.FifoQueue
import Valgrind.Cachegrind.MissRing
import Valgrind.Cachegrind.Selector
import Valgrind.Cachegrind.Arch
import Valgrind.Core.MallocFree
