import FlashNext.System
import FlashNext.Delimited
import FlashNext.DotSegments
import FlashNext.Chunks
import FlashNext.Segments
import FlashNext.Returns
import FlashNext.While
import FlashNext.NthAfter
import FlashNext.ProbablePrime
import FlashNext.Programs
import FlashNext.CausalFilter
import FlashNext.CopyGroups
import FlashNext.Entries
import FlashNext.Ring
import FlashNext.FloatFormat
import FlashNext.Gateway.Proxy
import FlashNext.Gateway.Reload
import FlashNext.Gateway.Edits
import FlashNext.Gateway.KeyOp
import FlashNext.Gateway.Steps
import FlashNext.Gateway.Revoke
import FlashNext.Gateway.Counters
import FlashNext.Gateway.HandEdit
import FlashNext.Gateway.Target
import FlashNext.Gateway.Credential
import FlashNext.Gateway.Relay
import FlashNext.Gateway.Guard
import FlashNext.Ple.Gather
import FlashNext.Ple.Pool
import FlashNext.Legacy.Gather
import FlashNext.Legacy.Paths
import FlashNext.Legacy.Prewarm
import FlashNext.Ple.NGram
import FlashNext.Ple.Kernel
import FlashNext.Ple.Context
import FlashNext.Ple.Staging
import FlashNext.Ple.Resident
import FlashNext.Ple.Stock
import FlashNext.Ple.Stream
import FlashNext.Ple.Lookup
import FlashNext.Ple.Primes
import FlashNext.Ple.Slices
import FlashNext.Ple.FromDisk
import FlashNext.Ple.ConvRuns
import FlashNext.Mtp.DraftVocab
import FlashNext.Mamba.GuardHits
import FlashNext.Mamba.AlignRuns
import FlashNext.Mamba.HostAgrees
import FlashNext.Mamba.Scalar
import FlashNext.Qsa.ExactTopk
import FlashNext.Qsa.SplitK
import FlashNext.Qsa.CompressRuns
import FlashNext.Qsa.Attention
import FlashNext.Quant.Hybrid
import FlashNext.Quant.Draft
import FlashNext.Quant.Converted
