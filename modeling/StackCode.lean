import StackCode.Check.Match
import StackCode.Check.Run
import StackCode.Check.Spec
import StackCode.Chunk.Basic
import StackCode.Chunk.Flow
import StackCode.Chunk.Instr
import StackCode.Code.Literal
import StackCode.Code.Numeric
import StackCode.CommandLine
import StackCode.Compile
import StackCode.Error
import StackCode.Graph.Basic
import StackCode.Graph.Builder
import StackCode.Graph.Contract
import StackCode.Intrinsic
import StackCode.Machine.Body
import StackCode.Machine.Depth
import StackCode.Machine.Mnemonic
import StackCode.Machine.Opcode
import StackCode.Machine.Peephole
import StackCode.Main
import StackCode.Member
import StackCode.Numeral.Binary
import StackCode.Numeral.Layout
import StackCode.Numeral.Shortest
import StackCode.Proofs.Acceptance
import StackCode.Proofs.Admission
import StackCode.Proofs.Assembly
import StackCode.Proofs.Built
import StackCode.Proofs.Compiled
import StackCode.Proofs.Delivery
import StackCode.Proofs.Depth
import StackCode.Proofs.Dominance
import StackCode.Proofs.Emission
import StackCode.Proofs.Execution
import StackCode.Proofs.Flows
import StackCode.Proofs.Fusion
import StackCode.Proofs.Guards
import StackCode.Proofs.Heights
import StackCode.Proofs.Improvement
import StackCode.Proofs.Leaving
import StackCode.Proofs.Lists
import StackCode.Proofs.Liveness
import StackCode.Proofs.Lowering
import StackCode.Proofs.Nesting
import StackCode.Proofs.Operands
import StackCode.Proofs.Parsing
import StackCode.Proofs.Paths
import StackCode.Proofs.Plans
import StackCode.Proofs.Reachability
import StackCode.Proofs.Reading
import StackCode.Proofs.Reads
import StackCode.Proofs.Regions
import StackCode.Proofs.Residence
import StackCode.Proofs.Resolution
import StackCode.Proofs.RoundTrip
import StackCode.Proofs.Safety
import StackCode.Proofs.Scratch
import StackCode.Proofs.Segments
import StackCode.Proofs.Simulation
import StackCode.Proofs.Spelling
import StackCode.Proofs.Storage
import StackCode.Proofs.Streams
import StackCode.Proofs.Words
import StackCode.Proofs.Writing
import StackCode.Schedule.Basic
import StackCode.Schedule.Kept
import StackCode.Schedule.Plan
import StackCode.Schedule.Unused
import StackCode.Session
import StackCode.Source.Error
import StackCode.Source.Lexer
import StackCode.Source.Names
import StackCode.Source.Parser
import StackCode.Source.Printer
import StackCode.Source.Token
import StackCode.Source.Tree
import StackCode.Stream.Allocation
import StackCode.Stream.Control
import StackCode.Stream.Emission
import StackCode.Stream.Item
import StackCode.Stream.Liveness
import StackCode.Symbol
import StackCode.Text.Blank
import StackCode.Text.Concealed
import StackCode.Text.Lines
import StackCode.Text.Quoted
import StackCode.Ty
import StackCode.Weight
import StackCode.Proofs.Dispatch
import StackCode.Proofs.Renaming
import StackCode.Proofs.Independence
import StackCode.Proofs.Residues
import StackCode.Proofs.Calculation
import StackCode.Proofs.Conversions
import StackCode.Proofs.Arithmetic
import StackCode.Proofs.Overflow
import StackCode.Proofs.Widths
import StackCode.Proofs.Modifiers
import StackCode.Proofs.Pooling
import StackCode.Proofs.Locals
import StackCode.Proofs.Levels
import StackCode.Proofs.Exhaustion
import StackCode.Proofs.Literals
import StackCode.Proofs.Removal
import StackCode.Proofs.Definitions
import StackCode.Proofs.Traffic
import StackCode.Proofs.Adjacency
import StackCode.Proofs.Naming
import StackCode.Proofs.Interning
import StackCode.Proofs.Quotation
import StackCode.Proofs.Expectations
import StackCode.Proofs.Extraction
import StackCode.Proofs.Demotion
import StackCode.Proofs.Positions
import StackCode.Proofs.Ranges
import StackCode.Proofs.References
import StackCode.Proofs.Steps
import StackCode.Proofs.Straight
