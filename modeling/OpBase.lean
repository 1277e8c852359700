import OpBase.Aicpu.ArgsRegions
import OpBase.Aicpu.ContextCache
import OpBase.Aicpu.DeviceBounds
import OpBase.Aicpu.ExtInfoAgrees
import OpBase.Base.Bfloat16
import OpBase.Base.RoundTrip
import OpBase.Base.Scalar
import OpBase.Cache.Eviction
import OpBase.Cache.Iterator
import OpBase.Cache.KeyBufferRefines
import OpBase.Dag.BufferCounts
import OpBase.Fp16.Compare
import OpBase.Fp16.SaturatingInt
import OpBase.Graph.BreadthFirstRuns
import OpBase.Indv.ArgsRoom
import OpBase.Indv.AttrKey
import OpBase.Indv.PoolDeletes
import OpBase.Indv.PoolIndices
import OpBase.Indv.RegistryFinds
import OpBase.Indv.TensorKey
import OpBase.Indv.TilingContextSafe
import OpBase.Indv.VerbKeyAgrees
import OpBase.Kernel.KeysAgree
import OpBase.Launch.ContextInBuffer
import OpBase.Launch.ErrorDump
import OpBase.Launch.Memset
import OpBase.Launch.Replay
import OpBase.Mem.AllocatorSound
import OpBase.Mem.WorkspacePlan
import OpBase.Pool.HugeMemDisjoint
import OpBase.Pool.Spinlock
import OpBase.Reduce.LoopsCover
import OpBase.Reduce.PreBuffers
import OpBase.Reduce.ProdFolds
import OpBase.Shape.BcastZeros
import OpBase.Shape.Contiguous
import OpBase.Shape.ReduceInfer
import OpBase.Tiling.ElewiseTiling
import OpBase.Tiling.OneDimTiling
import OpBase.Tiling.ReduceCores
import OpBase.Tiling.ReducePreserves
import OpBase.Util.LockFreeQueue
import OpBase.Util.SmallVectorRefines
import OpBase.Base.Bfloat16
