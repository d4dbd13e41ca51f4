import HkSystem.Common.Words
import HkSystem.Common.Machine
import HkSystem.Common.Region
import HkSystem.Common.PrefixCode
import HkSystem.Common.WhileLoop
import HkSystem.Common.Fallible
import HkSystem.Common.Counting
import HkSystem.Common.Mixing
import HkSystem.Common.OneAtATime
import HkSystem.Common.Fips180
import HkSystem.Common.Lanes
import HkSystem.Common.Rfc8439
import HkSystem.Common.X86
import HkSystem.Common.Ssa
import HkSystem.Common.SsaRefinement
import HkSystem.Common.SsaReplace
import HkSystem.Common.SsaRewrite
import HkSystem.Common.Beside
import HkSystem.Common.Rpc
import HkSystem.Common.RpcChain
import HkSystem.Common.RpcRun
import HkSystem.Common.RpcStatic
import HkSystem.Common.CText
import HkSystem.System.Model.Dataports
import HkSystem.Vfs.Model.Server
import HkSystem.Vfs.Accounting
import HkSystem.Vfs.Posix
import HkSystem.Vfs.Log
import HkSystem.Vfs.Descriptors
import HkSystem.Vfs.Model.Layer
import HkSystem.Vfs.Isolation
import HkSystem.Tpm.Model.Sha256
import HkSystem.Tpm.Model.Device
import HkSystem.Tpm.Sha256
import HkSystem.Tpm.Device
import HkSystem.Dispatcher.Model.Monitor
import HkSystem.Dispatcher.Model.Interleaving
import HkSystem.Dispatcher.Injection
import HkSystem.Dispatcher.Cycle
import HkSystem.Dispatcher.Supplies
import HkSystem.Dispatcher.Bookkeeping
import HkSystem.Dispatcher.CheckUse
import HkSystem.Repository.Model.Repository
import HkSystem.Repository.Registration
import HkSystem.Dispatcher.Freshness
import HkSystem.Dispatcher.Arena
import HkSystem.Generator.Model.Csprng
import HkSystem.Generator.Model.Engine
import HkSystem.Generator.Model.Llvm
import HkSystem.Generator.Variant
import HkSystem.Generator.Execution
import HkSystem.Generator.Csprng
import HkSystem.Generator.Stream
import HkSystem.Generator.Distinctness
import HkSystem.Generator.Variety
import HkSystem.Generator.ChaCha
import HkSystem.Generator.Dependence
import HkSystem.Generator.Transcript
import HkSystem.Scheduler.Model.Timer
import HkSystem.Scheduler.Ticks
import HkSystem.System.Model.System
import HkSystem.System.EndToEnd
import HkSystem.System.Runs
import HkSystem.System.HandOff
import HkSystem.System.Tampering
import HkSystem.System.Substitution
import HkSystem.System.Synthesizer
import HkSystem.System.Model.Permissions
import HkSystem.System.Model.Assembly
import HkSystem.System.Model.Threads
import HkSystem.System.Assembly
import HkSystem.System.Progress
import HkSystem.System.Interleaving
import HkSystem.System.Timer
import HkSystem.System.Model.Policy
import HkSystem.System.Policy
import HkSystem.Mutator.Model.Pass
import HkSystem.Mutator.Model.Iterator
import HkSystem.Mutator.Refinement
import HkSystem.Mutator.Traversal
import HkSystem.Mutator.Completeness
import HkSystem.Mutator.Report
import HkSystem.Pool.Model.Builder
import HkSystem.Pool.Model.Header
import HkSystem.Pool.Diversity
import HkSystem.Pool.Header
import HkSystem.Pool.Script
