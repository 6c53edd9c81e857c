import Llvm.IR.Core
import Llvm.IR.Cfg
import Llvm.IR.Clone
import Llvm.IR.Fresh
import Llvm.LoopDistribute.Partition
import Llvm.LoopDistribute.Coarsening
import Llvm.LoopDistribute.UniqueLoads
import Llvm.LoopDistribute.Seeding
import Llvm.LoopDistribute.Populate
import Llvm.LoopDistribute.Pipeline
import Llvm.LoopDistribute.LoadClasses
import Llvm.LoopDistribute.Runs
import Llvm.LoopDistribute.Spans
import Llvm.LoopDistribute.Distribute
import Llvm.LoopDistribute.Pointers
import Llvm.LoopDistribute.Chain
import Llvm.LoopDistribute.Relink
import Llvm.LoopDistribute.Versioning
import Llvm.LoopDistribute.ProcessLoop
import Llvm.LoopDistribute.Preheader
import Llvm.LoopDistribute.Entry
import Llvm.LoopDistribute.Prune
import Llvm.LoopDistribute.Fallback
import Llvm.LoopDistribute.Pruning
import Llvm.LoopDistribute.Numbering
import Llvm.LoopDistribute.Frame
import Llvm.LoopDistribute.RunOnFunction
import Llvm.Analysis.TargetLibraryInfo
import Llvm.Dsymutil.BinaryHolder
import Llvm.Dsymutil.Holder
