import NReduce.Domain.Graph
import NReduce.Domain.Fix
import NReduce.Compiler.Builtin
import NReduce.Compiler.Syntax
import NReduce.Compiler.Denote
import NReduce.Compiler.Program
import NReduce.Compiler.Renaming
import NReduce.Compiler.RenameDenote
import NReduce.Compiler.RenameAlpha
import NReduce.Compiler.Inlining
import NReduce.Compiler.InlineCorrect
import NReduce.Compiler.CreateScombs
import NReduce.Compiler.Reorder
import NReduce.Compiler.ReorderOrder
import NReduce.Compiler.Need
import NReduce.Compiler.Strictness
import NReduce.Compiler.Demand
import NReduce.Compiler.StrictFix
import NReduce.Compiler.StrictSound
import NReduce.Bytecode.Instr
import NReduce.Bytecode.Emit
import NReduce.Bytecode.Flow
import NReduce.Bytecode.EmitFlow
import NReduce.Bytecode.Peephole
import NReduce.Bytecode.Exec
import NReduce.Bytecode.PeepholeFlow
import NReduce.Bytecode.PeepholeRound
import NReduce.Bytecode.Agree
import NReduce.Bytecode.PeepholeCorrect
import NReduce.Bytecode.EqualTest
import NReduce.Network.Channel
import NReduce.Network.Counting
import NReduce.Network.Framing
import NReduce.Network.Links
import NReduce.Network.Order
import NReduce.Runtime.Group
import NReduce.Runtime.Delivery
import NReduce.Runtime.Marking
import NReduce.Runtime.PauseRounds
import NReduce.Logic.Partial
import NReduce.Logic.Codec
import NReduce.Logic.Circle
import NReduce.Logic.DepthFirst
import NReduce.Logic.Unfold
import NReduce.Runtime.Heap
import NReduce.Runtime.Wire
import NReduce.Runtime.Bytes
import NReduce.Runtime.Describe
import NReduce.Runtime.Reading
import NReduce.Runtime.RoundTrip
import NReduce.Runtime.Handlers
import NReduce.Runtime.Inflight
import NReduce.Runtime.Accounting
import NReduce.Runtime.Simulate
import NReduce.Runtime.Curried
import NReduce.Runtime.Sending
import NReduce.Runtime.Quiesce
import NReduce.Runtime.Blocks
import NReduce.Runtime.BlockWalk
import NReduce.Runtime.Generations
import NReduce.Runtime.Remembered
import NReduce.Runtime.Lists
import NReduce.Runtime.ListDenote
import NReduce.Runtime.Append
import NReduce.Runtime.AppendChain
import NReduce.Runtime.Strcmp
import NReduce.Runtime.Gather
import NReduce.Runtime.GatherBytes
import NReduce.Runtime.Compaction
import NReduce.Runtime.ListSteps
import NReduce.Runtime.BuildArray
import NReduce.Runtime.Java
import NReduce.Runtime.Chord
import NReduce.Runtime.ChordRing
import NReduce.Runtime.ChordLookup
import NReduce.Runtime.ChordFingers
import NReduce.Runtime.ChordLinks
import NReduce.Runtime.Numbers
import NReduce.Native.Assembler
import NReduce.Native.Decode
import NReduce.Native.AssemblerCorrect
import NReduce.Runtime.Suspend
import NReduce.Runtime.SuspendInv
import NReduce.Runtime.SuspendIo
import NReduce.Runtime.SuspendTask
import NReduce.Runtime.SuspendOnce
import NReduce.Xml.Items
import NReduce.Xml.Parse
import NReduce.Xml.Axes
import NReduce.Logic.Fuel
import NReduce.Xml.Layout
import NReduce.Xml.AxesCorrect
import NReduce.Xml.Forest
import NReduce.Xml.Partition
import NReduce.Logic.Sorting
import NReduce.Xml.Steps
import NReduce.Xml.AxisLists
import NReduce.Xml.Shapes
import NReduce.Xml.StepsOrder
import NReduce.Xml.Tokenize
import NReduce.Xml.Print
import NReduce.Xml.TokenizePrint
import NReduce.Xml.PrintParse
import NReduce.Logic.Faults
import NReduce.Network.Fsm
import NReduce.Network.Books
import NReduce.Network.History
import NReduce.Network.FsmCorrect
import NReduce.Network.Events
import NReduce.Network.Iothread
import NReduce.Network.IothreadCorrect
import NReduce.Network.Walk
import NReduce.Network.BooksRun
import NReduce.Network.Exit
import NReduce.Logic.Ring
import NReduce.Logic.Lexing
import NReduce.Compiler.Lexer
import NReduce.Compiler.LexerEscape
import NReduce.Network.Ports
import NReduce.Compiler.Appendopt
import NReduce.Compiler.AppendoptSweep
import NReduce.Runtime.Reduction
import NReduce.Runtime.HeapValue
import NReduce.Runtime.Instantiate
import NReduce.Runtime.Spine
import NReduce.Runtime.ReductionSteps
import NReduce.Domain.Curry
import NReduce.Runtime.ReductionSound
import NReduce.Runtime.PureBuiltins
import NReduce.Runtime.ReductionRun
