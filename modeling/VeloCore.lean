import VeloCore.Primitives.Eff
import VeloCore.Primitives.Pairs
import VeloCore.Primitives.Prefix
import VeloCore.Primitives.Continuation
import VeloCore.Primitives.Finmap
import VeloCore.Primitives.Steps
import VeloCore.Primitives.Bytes
import VeloCore.Primitives.Slices
import VeloCore.Objects.Handle
import VeloCore.Objects.SlotPool
import VeloCore.Objects.KvStore
import VeloCore.Objects.PagedAttention
import VeloCore.Objects.Theorems.SlotPool
import VeloCore.Objects.Theorems.PagedAttention
import VeloCore.Objects.Runtime
import VeloCore.Objects.RadixCache.Basic
import VeloCore.Objects.RadixCache.Theorems.Tree
import VeloCore.Objects.RadixCache.Entries
import VeloCore.Objects.RadixCache.Theorems.Rep
import VeloCore.Objects.RadixCache.Theorems.Insert
import VeloCore.Objects.RadixCache.Theorems.Evict
import VeloCore.Objects.RadixCache.Theorems.Lookup
import VeloCore.Objects.RadixCache.Theorems.Refinement
import VeloCore.Objects.RadixCache.Operation
import VeloCore.Objects.RadixCache.Theorems.Accounts
import VeloCore.Objects.RadixCache.Theorems.Recency
import VeloCore.Objects.RadixCache.Theorems.Size
import VeloCore.Objects.Speculative.Model
import VeloCore.Objects.Speculative.Session
import VeloCore.Objects.Speculative.Decoder
import VeloCore.Objects.Speculative.Theorems.Session
import VeloCore.Objects.Memory
import VeloCore.Objects.Engine
import VeloCore.Execution.Engine.Basic
import VeloCore.Execution.Engine.Generate
import VeloCore.Execution.Engine.Theorems.Memory
import VeloCore.Execution.Engine.Theorems.Prefill
import VeloCore.Execution.Engine.Theorems.Phases
import VeloCore.Execution.Engine.Theorems.Stable
import VeloCore.Execution.Engine.Calls
import VeloCore.Execution.Engine.Theorems.Coherent
import VeloCore.Execution.Engine.Theorems.Eviction
import VeloCore.Execution.Engine.Theorems.Rounds
import VeloCore.Execution.Engine.Theorems.Slots
import VeloCore.Execution.Engine.Theorems.Bindings
import VeloCore.Execution.Engine.Theorems.Lockstep
import VeloCore.Execution.Engine.Theorems.Greedy
import VeloCore.Execution.Engine.Theorems.Batch
import VeloCore.Execution.Engine.Theorems.Gains
import VeloCore.Objects.Speculative.Theorems.Batch
import VeloCore.Objects.Speculative.Theorems.Decoder
import VeloCore.Objects.Backend.Basic
import VeloCore.Objects.Backend.Greedy
import VeloCore.Objects.Backend.Recorder
import VeloCore.Objects.Theorems.Constraints
import VeloCore.Execution.Engine.Theorems.Matchers
import VeloCore.Execution.Engine.Theorems.Constrained
import VeloCore.Objects.Backend.LlamaCpu
import VeloCore.Objects.Backend.Theorems.LlamaCpu
import VeloCore.Objects.Backend.LlamaOps
import VeloCore.Objects.Metal.KvStore
import VeloCore.Objects.Metal.Theorems.KvRegions
import VeloCore.Objects.Theorems.KvStores
import VeloCore.Objects.Metal.Runtime
import VeloCore.Objects.Metal.Backend
import VeloCore.Objects.Metal.Theorems.Backend
import VeloCore.Objects.Metal.Model
import VeloCore.Objects.Metal.Theorems.Model
import VeloCore.Objects.Metal.TensorParallel
import VeloCore.Objects.Metal.Theorems.TensorParallel
import VeloCore.Objects.Metal.Kernels
import VeloCore.Objects.Metal.Theorems.KvLayers
import VeloCore.Execution.Engine.Theorems.Pages
import VeloCore.Execution.Engine.Theorems.Atomic
import VeloCore.Execution.Engine.Theorems.Handles
import VeloCore.Execution.Engine.Theorems.Drafts
import VeloCore.Execution.Engine.Theorems.Paths
import VeloCore.Execution.Engine.Theorems.Isolation
import VeloCore.Execution.Engine.Theorems.Metal
import VeloCore.Objects.Speculative.Tree
import VeloCore.Objects.Speculative.Theorems.Tree
import VeloCore.Objects.Speculative.Theorems.LongestPath
import VeloCore.Objects.Speculative.Theorems.BestPath
import VeloCore.Objects.Nixl
import VeloCore.Objects.Theorems.Nixl
import VeloCore.Execution.Fabric.Basic
import VeloCore.Execution.Fabric.Theorems.Step
import VeloCore.Execution.Fabric.Theorems.Conserved
import VeloCore.Execution.Fabric.Theorems.Capacity
import VeloCore.Execution.Disagg.Basic
import VeloCore.Execution.Disagg.Theorems.Accounting
import VeloCore.Execution.Disagg.Theorems.Locality
import VeloCore.Execution.Scheduler.Basic
import VeloCore.Execution.Scheduler.Theorems.Frame
import VeloCore.Execution.Scheduler.Theorems.Slots
import VeloCore.Execution.Scheduler.Theorems.Prefill
import VeloCore.Execution.Scheduler.Theorems.Bindings
import VeloCore.Execution.Scheduler.Theorems.Stream
import VeloCore.Execution.Scheduler.Theorems.Delivery
import VeloCore.Execution.Scheduler.Theorems.Outcomes
import VeloCore.Execution.Scheduler.Theorems.Room
import VeloCore.Execution.Scheduler.Theorems.Progress
import VeloCore.Execution.Scheduler.Theorems.Switch
import VeloCore.Execution.Scheduler.Theorems.Neighbours
import VeloCore.Execution.Scheduler.Theorems.Admission
import VeloCore.Objects.Speculative.Theorems.Calls
import VeloCore.Objects.Backend.Theorems.Greedy
import VeloCore.Objects.Backend.Borrowed
import VeloCore.Objects.Backend.Theorems.Borrowed
import VeloCore.Objects.Backend.LlamaForward
import VeloCore.Objects.Backend.Theorems.LlamaForward
import VeloCore.Objects.Backend.TreeDraft
import VeloCore.Objects.Backend.Theorems.TreeDraft
import VeloCore.Objects.Gguf.File
import VeloCore.Objects.Gguf.Header
import VeloCore.Objects.Gguf.Theorems.RoundTrip
import VeloCore.Objects.Gguf.ModelMeta
import VeloCore.Objects.Gguf.Demands
import VeloCore.Objects.Gguf.Theorems.Demands
import VeloCore.Objects.Gguf.Loader
import VeloCore.Objects.Metal.Matvec
import VeloCore.Objects.Gguf.Theorems.Loader
import VeloCore.Objects.Metal.Theorems.Matvec
import VeloCore.Primitives.Fills
import VeloCore.Primitives.Parts
import VeloCore.Primitives.OnlineSoftmax
import VeloCore.Objects.Backend.Blocks
import VeloCore.Objects.Backend.Exact
import VeloCore.Objects.Backend.Theorems.Blocks
import VeloCore.Objects.Backend.Theorems.Q4k
import VeloCore.Objects.Metal.Q4Matvec
import VeloCore.Objects.Metal.Theorems.Q4Matvec
import VeloCore.Objects.Metal.Paging
import VeloCore.Objects.Metal.Theorems.Paging
import VeloCore.Objects.Metal.Theorems.Unwrapped
import VeloCore.Objects.Metal.Int8
import VeloCore.Objects.Metal.Theorems.Int8
import VeloCore.Objects.Metal.Theorems.HeadGroups
import VeloCore.Objects.Metal.Rope
import VeloCore.Objects.Metal.Theorems.Rope
import VeloCore.Objects.Metal.TreeAttention
import VeloCore.Objects.Metal.Theorems.TreeAttention
import VeloCore.Objects.Metal.FlashAttention
import VeloCore.Objects.Metal.Theorems.FlashAttention
import VeloCore.Objects.Theorems.Wire
import VeloCore.Objects.Theorems.DmaRegions
import VeloCore.Objects.Metal.Sharding
import VeloCore.Objects.Metal.Theorems.Sharding
import VeloCore.Objects.Metal.Theorems.ShardedMlp
import VeloCore.Objects.Metal.Theorems.RowShards
import VeloCore.Objects.Metal.Theorems.ShardFloats
import VeloCore.Objects.Metal.ShardedModel
import VeloCore.Objects.Metal.Theorems.ShardStrategy
import VeloCore.Objects.Metal.Theorems.ShardMeta
import VeloCore.Objects.Tokenizer
import VeloCore.Objects.Theorems.Tokenizer
import VeloCore.Objects.Backend.Samplers
import VeloCore.Objects.Backend.Theorems.Samplers
import VeloCore.Objects.Metal.Argmax
import VeloCore.Objects.Metal.Theorems.Argmax
import VeloCore.Objects.Gguf.Theorems.Spans
import VeloCore.Objects.Gguf.Theorems.ArrayElems
import VeloCore.Primitives.Alike
import VeloCore.Objects.Backend.LlamaSequence
import VeloCore.Objects.Backend.Theorems.LlamaSequence
import VeloCore.Objects.RadixCache.Theorems.Linked
import VeloCore.Execution.Scheduler.Theorems.Metrics
import VeloCore.Primitives.Shares
import VeloCore.Objects.Backend.Theorems.Nucleus
import VeloCore.Execution.Scheduler.Theorems.Order
import VeloCore.Execution.Scheduler.Theorems.Drains
import VeloCore.Execution.Engine.Theorems.Warm
import VeloCore.Objects.Speculative.Theorems.Agreeing
import VeloCore.Objects.Backend.Mock
import VeloCore.Objects.Backend.Theorems.Mock
import VeloCore.Execution.Benchmark.Basic
import VeloCore.Execution.Benchmark.Theorems.Measured
import VeloCore.Execution.Benchmark.Theorems.Sample
import VeloCore.Primitives.Related
import VeloCore.Execution.Engine.Theorems.Transparent
import VeloCore.Execution.Benchmark.Llama
import VeloCore.Execution.Benchmark.Theorems.Llama
import VeloCore.Primitives.Local
import VeloCore.Objects.Gguf.Theorems.Truncation
import VeloCore.Objects.Theorems.Decode
import VeloCore.Objects.Metal.Lora
import VeloCore.Objects.Metal.Theorems.Lora
import VeloCore.Objects.Metal.TreeFlash
import VeloCore.Objects.Metal.Theorems.TreeFlash
import VeloCore.Objects.Metal.Theorems.Int8Runs
