import MLKit.Backend.FrameSlots
import MLKit.Backend.CallRoots
import MLKit.X64.CallArgs
import MLKit.X64.ClosureSkip
import MLKit.X64.Constructors
import MLKit.Lambda.FirstMatch
import MLKit.Regions.VisitedFlags
import MLKit.Runtime.StackRoots
import MLKit.Runtime.ParSafe
import MLKit.Runtime.RegionConserved
import MLKit.MlbMake.ParallelBuild
import MLKit.Elab.EqualityPersists
import MLKit.X64.Peephole
import MLKit.X64.RaiseExn
import MLKit.Backend.FlowSound
import MLKit.Backend.DeclaredOffsets
import MLKit.Lib.LittleEndian
import MLKit.Pickle.Bitstream
import MLKit.Pickle.Picklers
import MLKit.Common.DigitalSets
import MLKit.OptLambda.LambdaExp
import MLKit.OptLambda.RangeFolding
import MLKit.Elab.EqualityMaximisation
import MLKit.Parsing.FunClauses
import MLKit.X64.Literals
import MLKit.Common.TopSort
import MLKit.Lib.Along
import MLKit.Regions.CallConversion
import MLKit.Runtime.PageCounter
import MLKit.X64.CCall
import MLKit.Lib.Traces
