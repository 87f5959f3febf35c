import Mlonmcu.CLib.Prog
import Mlonmcu.CLib.Decimal
import Mlonmcu.CLib.Stream
import Mlonmcu.Mlifio.Config
import Mlonmcu.Mlifio.ToFile
import Mlonmcu.Mlifio.ToStdout
import Mlonmcu.Mlifio.FromFile
import Mlonmcu.Mlifio.Plain
import Mlonmcu.Mlifio.Bounds
import Mlonmcu.Mlifio.RoundTrip
import Mlonmcu.Mlifio.HeaderText
import Mlonmcu.Mlifio.Stack
import Mlonmcu.Mlifio.Sizes
import Mlonmcu.Mlifio.SampleLog
import Mlonmcu.Mlifio.Modes
import Mlonmcu.CLib.Script
import Mlonmcu.V1.Refinement
import Mlonmcu.V1.Check
import Mlonmcu.V1.Vacuity
import Mlonmcu.V1.Backends
import Mlonmcu.V1.Shutdown
import Mlonmcu.V2.Protocol
import Mlonmcu.Generic.Accounts
import Mlonmcu.CLib.Channel
import Mlonmcu.Htif.Request
import Mlonmcu.Htif.Mailbox
import Mlonmcu.Htif.Delivery
import Mlonmcu.CLib.Rvv
import Mlonmcu.McEliece.Syndrome
import Mlonmcu.McEliece.SyndromeRvv
import Mlonmcu.McEliece.SyndromeAgree
import Mlonmcu.CLib.Frames
import Mlonmcu.CLib.Loops
import Mlonmcu.CLib.Laps
import Mlonmcu.CLib.Counter
import Mlonmcu.CLib.Xorshift
import Mlonmcu.Mlifio.Console
import Mlonmcu.Mlifio.Framing
import Mlonmcu.Htif.Poweroff
import Mlonmcu.Targets.RiscvTime
import Mlonmcu.Mathis.Kernels
import Mlonmcu.Mathis.Products
import Mlonmcu.RvvBench.Print
import Mlonmcu.RvvBench.Emission
import Mlonmcu.McEliece.Cells
import Mlonmcu.McEliece.Randombytes
import Mlonmcu.McEliece.Profiling
import Mlonmcu.McEliece.Controlbits
import Mlonmcu.McEliece.Keypair
import Mlonmcu.McEliece.KeyBuffers
import Mlonmcu.McEliece.KeygenCounts
import Mlonmcu.CLib.Extents
import Mlonmcu.Gvsoc.MallocRuns
import Mlonmcu.CLib.MergeExchange
import Mlonmcu.CLib.Pairs
import Mlonmcu.CLib.Network
import Mlonmcu.McEliece.Sorts
import Mlonmcu.McEliece.ErrorVector
import Mlonmcu.McEliece.KeySort
import Mlonmcu.McEliece.NassimiSahni
import Mlonmcu.McEliece.PermutationCheck
import Mlonmcu.McEliece.Benes
import Mlonmcu.OpenAsip.Crc
