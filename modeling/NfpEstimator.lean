import NfpEstimator.Expr.Syntax
import NfpEstimator.Expr.Eval
import NfpEstimator.Expr.Equality
import NfpEstimator.Expr.Comparison
import NfpEstimator.State.Exec
import NfpEstimator.State.PacketSize
import NfpEstimator.Cfg.UnsatCore
import NfpEstimator.Instr.Basic
import NfpEstimator.State.Perf
import NfpEstimator.Cfg.Graph
import NfpEstimator.Cfg.Cycles
import NfpEstimator.Cfg.Underestimate
import NfpEstimator.Cfg.Pathq
import NfpEstimator.Cfg.Enumerate
import NfpEstimator.Cfg.Transfer
import NfpEstimator.Cfg.Accounting
import NfpEstimator.Cfg.Monotone
import NfpEstimator.Cfg.Unroll
import NfpEstimator.Cfg.Depth
import NfpEstimator.Cfg.Unrolled
import NfpEstimator.Cfg.Acyclic
import NfpEstimator.Cfg.Sizes
import NfpEstimator.Cfg.TopoSort
import NfpEstimator.Cfg.Bitrate
import NfpEstimator.Cfg.Build
import NfpEstimator.Cfg.Unreachable
import NfpEstimator.Cfg.Merge
import NfpEstimator.Expr.Sharing
import NfpEstimator.State.Strategy
import NfpEstimator.State.Printing
import NfpEstimator.State.Incremental
import NfpEstimator.Cfg.Mpathq
import NfpEstimator.Cfg.EnumerateBitrate
import NfpEstimator.Cfg.ReportedOnce
import NfpEstimator.Table
import NfpEstimator.ThreadPool
import NfpEstimator.Cfg.Counts
import NfpEstimator.Bits
import NfpEstimator.Expr.Structural
import NfpEstimator.Expr.Bitwise
import NfpEstimator.Expr.Arithmetic
import NfpEstimator.Expr.Arrays
import NfpEstimator.Instr.Operands
import NfpEstimator.Instr.AluOp
import NfpEstimator.Instr.Perform
import NfpEstimator.State.Apply
import NfpEstimator.Instr.Compare
import NfpEstimator.State.Registers
import NfpEstimator.Instr.PointerCarry
import NfpEstimator.Instr.Multiply
import NfpEstimator.Due
import NfpEstimator.State.Deferred
import NfpEstimator.Expr.CarryFree
import NfpEstimator.State.Asserted
import NfpEstimator.Instr.Addition
import NfpEstimator.Instr.CarryChain
import NfpEstimator.Instr.AluResult
import NfpEstimator.Instr.PointerDifference
import NfpEstimator.Bytes
import NfpEstimator.Instr.MemWrite
import NfpEstimator.Instr.MemRead
import NfpEstimator.Instr.MemAdd
import NfpEstimator.SatChecker.Lexer
import NfpEstimator.SatChecker.Grammar
import NfpEstimator.SatChecker.Model
import NfpEstimator.GenPackets.Ip6Header
import NfpEstimator.GenPackets.Snd
import NfpEstimator.Ereport.Insert
import NfpEstimator.Input.Splice
import NfpEstimator.Ktest
import NfpEstimator.Input.Tar
import NfpEstimator.Gen.Pattern
import NfpEstimator.Gen.Generator
import NfpEstimator.Gen.Mapreads
import NfpEstimator.Ereport.Packet
import NfpEstimator.Qsort
import NfpEstimator.Ereport.MapText
import NfpEstimator.Ereport.MapParse
import NfpEstimator.Segment
import NfpEstimator.Statistics.RadixSort
import NfpEstimator.Histogram
import NfpEstimator.Statistics.Histogram
import NfpEstimator.Statistics.ReadValue
import NfpEstimator.Statistics.ReadData
import NfpEstimator.Increasing
import NfpEstimator.Cfg.SizeVector
import NfpEstimator.Cfg.Extension
import NfpEstimator.Runs
import NfpEstimator.ThreadPool.Workers
import NfpEstimator.ThreadPool.Completion
import NfpEstimator.ThreadPool.Progress
import NfpEstimator.Cfg.Sortable
import NfpEstimator.Cfg.StaticAnalysis
import NfpEstimator.Cfg.StaticSound
import NfpEstimator.Cfg.Whole
import NfpEstimator.Assembly.Listing
import NfpEstimator.Cfg.StaticMerge
