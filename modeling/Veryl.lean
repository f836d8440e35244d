import Veryl.Analyzer.AssignTableExact
import Veryl.Analyzer.CombLoopDetect.PieceStatesExact
import Veryl.Analyzer.CombLoopDetect.DagExact
import Veryl.Analyzer.CombLoopDetect.Ssa.WrittenExact
import Veryl.Analyzer.CombToFfHoistSafety
import Veryl.Analyzer.FfTableExact
import Veryl.Analyzer.FragmentCodecExact
import Veryl.Analyzer.Operators.KnownBitsExact
import Veryl.Metadata.LockfileExact
import Veryl.Pretty.GroupLawExact
import Veryl.Pretty.RenderExact
import Veryl.Simulator.CombLayoutSafety
import Veryl.Simulator.DerivedClockSafety
import Veryl.Simulator.Opt.ConeOrderSafety
import Veryl.Simulator.Opt.DeadVarSafety
import Veryl.Simulator.Opt.DupAssignSafety
import Veryl.Simulator.TbDirtySafety
import Veryl.Simulator.WideOpsExact
import Veryl.Synthesizer.ConvergeExact
import Veryl.Synthesizer.DynamicIndexNets
import Veryl.Synthesizer.CounterExact
import Veryl.Synthesizer.PostPassExact
import Veryl.Analyzer.BranchCoverageExact
import Veryl.Analyzer.CombLoopDetect.PathLattice
import Veryl.Analyzer.CombLoopDetect.SsaStoreExact
import Veryl.Analyzer.CombLoopDetect.RelationClosingExact
import Veryl.Simulator.Opt.MultiWriteSafety
import Veryl.Analyzer.CombLoopDetect.SplitExact
import Veryl.Analyzer.Peel.CaseExact
import Veryl.Simulator.Opt.LaneMergeExact
import Veryl.Synthesizer.Divide
import Veryl.Synthesizer.MultiplyExact
import Veryl.Synthesizer.BarrelShift
import Veryl.Synthesizer.MinimizeSop
import Veryl.Synthesizer.BalanceExact
import Veryl.Simulator.WideWindowExact
import Veryl.Simulator.PartialIndex
import Veryl.Analyzer.ValueEncoding
import Veryl.Analyzer.ValueParse
import Veryl.Analyzer.WidthExpr
import Veryl.Simulator.Opt.OwnersExact
import Veryl.Analyzer.TypeDag
import Veryl.Simulator.Opt.Ranges
import Veryl.Simulator.BigArrayAliases
import Veryl.Simulator.BitSelect
import Veryl.Synthesizer.DeadCells
