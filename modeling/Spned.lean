import Spned.MicroCompilerCoverage
import Spned.MicroCompilerLoops
import Spned.UnifiedVerifierScoping
import Spned.UnifiedWorstCase
import Spned.SsaFunction
import Spned.WrittenPrefix
import Spned.BaselineKernels
import Spned.LoweredDecoder
import Spned.ScalabilityDriver
import Spned.VerifierCore
import Spned.GuardedBaselines
import Spned.ScanKernel
import Spned.WasmWorker
import Spned.Interleaving
import Spned.SsaThreads
import Spned.MultiCoreRun
import Spned.VerifiedKernels
import Spned.WasmBench
import Spned.WasmScalability
import Spned.VerifierErrors
import Spned.EngineAgreement
import Spned.ReeCapacity
import Spned.VerifierAgreement
import Spned.ScalabilityMain
import Spned.SandboxAgreement
import Spned.BatchLatency
