import Oslec.Builds.Simd
import Oslec.Kernel.Allocation
import Oslec.Kernel.Impulse
import Oslec.Kernel.Monitor
import Oslec.Kernel.ProcReset
import Oslec.Kernel.RoundTrip
import Oslec.Kernel.Zaptap
import Oslec.Properties.BackgroundNoise
import Oslec.Properties.BitScan
import Oslec.Properties.ComfortNoise
import Oslec.Properties.DcEcho
import Oslec.Properties.DcRemoval
import Oslec.Properties.EstimateRange
import Oslec.Properties.FlushFresh
import Oslec.Properties.Hangover
import Oslec.Properties.HighPass
import Oslec.Properties.InformationFlow
import Oslec.Properties.Leakage
import Oslec.Properties.LevelTrackers
import Oslec.Properties.LmsArithmetic
import Oslec.Properties.OutputPath
import Oslec.Properties.PowerEstimate
import Oslec.Properties.ShiftRegister
import Oslec.Properties.Silence
import Oslec.Properties.StepSize
import Oslec.Properties.Transfer
import Oslec.Library.Nlms
import Oslec.Properties.Misalignment
import Oslec.Properties.Convergence
import Oslec.Kernel.Locking
import Oslec.Kernel.Channels
import Oslec.Kernel.Replay
import Oslec.Builds.Canceller
import Oslec.Kernel.Footprint
import Oslec.Kernel.LateReads
import Oslec.Properties.Delay
import Oslec.Codec.G711
import Oslec.Kernel.CycleMeter
import Oslec.Codec.BitReversal
import Oslec.Codec.BitCounts
import Oslec.Codec.LineModel
