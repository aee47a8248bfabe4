import Nicmem.Python.Dict
import Nicmem.Python.Number
import Nicmem.Python.Exact
import Nicmem.Python.Regex
import Nicmem.Parse
import Nicmem.Proofs.Csv
import Nicmem.Proofs.Filter
import Nicmem.Proofs.Keys
import Nicmem.Proofs.Net
import Nicmem.Proofs.Merge
import Nicmem.Proofs.Totals
import Nicmem.Proofs.Safe
import Nicmem.Proofs.Records
import Nicmem.Proofs.Percentiles
import Nicmem.Proofs.Latencies
import Nicmem.Proofs.LatencyOrder
import Nicmem.Proofs.Mica
import Nicmem.Proofs.MemoryLayout
import Nicmem.Proofs.MemoryLog
import Nicmem.Proofs.MemoryCut
import Nicmem.SampleEth
import Nicmem.Proofs.Sampling
import Nicmem.Plot
import Nicmem.Proofs.Scatter
import Nicmem.Proofs.Alignment
import Nicmem.Proofs.DmCopy
import Nicmem.Proofs.DmAccess
import Nicmem.Proofs.RunTest
import Nicmem.Proofs.Outliers
import Nicmem.Proofs.Collected
import Nicmem.Proofs.LineOrder
import Nicmem.Proofs.MemoryMean
import Nicmem.Proofs.PcieLayout
import Nicmem.Proofs.Pcie
import Nicmem.Proofs.SkippedLine
import Nicmem.Proofs.Neo
import Nicmem.Proofs.PerfStat
import Nicmem.Proofs.TrexNdr
import Nicmem.Proofs.Bitmap
import Nicmem.Proofs.BuddyRuns
import Nicmem.Proofs.IcmPoolRuns
import Nicmem.Proofs.Dbrec
import Nicmem.Proofs.SrqRuns
import Nicmem.Proofs.CqRuns
import Nicmem.Proofs.Crc32
