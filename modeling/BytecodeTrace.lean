import BytecodeTrace.Main
import BytecodeTrace.Proofs.Chunk.Edit
import BytecodeTrace.Proofs.Chunk.Tiling
import BytecodeTrace.Proofs.Chunk.Statements
import BytecodeTrace.Proofs.Chunk.Readers
import BytecodeTrace.Proofs.Number.Decimal
import BytecodeTrace.Proofs.Value.ReadBack
import BytecodeTrace.Proofs.Json.Reader
import BytecodeTrace.Proofs.Listing.Written
import BytecodeTrace.Proofs.Listing.FromRows
import BytecodeTrace.Proofs.Chunk.Ledger
import BytecodeTrace.Proofs.Buffer
import BytecodeTrace.Proofs.Chunk.Equality
import BytecodeTrace.Proofs.Chunk.Refusal
import BytecodeTrace.Proofs.Chunk.TraceReading
import BytecodeTrace.Proofs.Number.Rounding
import BytecodeTrace.Proofs.Value.Nearest
import BytecodeTrace.Proofs.Value.TraceText
import BytecodeTrace.Proofs.Listing.FromTrace
import BytecodeTrace.Proofs.Chunk.Extension
import BytecodeTrace.Proofs.Listing.FirstFault
import BytecodeTrace.Proofs.Json.Rows
import BytecodeTrace.Proofs.LineTable.Encoding
import BytecodeTrace.Proofs.Value.GeneralText
import BytecodeTrace.Proofs.Files.Path
import BytecodeTrace.Proofs.Files.Node
import BytecodeTrace.Proofs.Files.Walk
import BytecodeTrace.Proofs.Files.Creation
import BytecodeTrace.Proofs.Files.Destination
import BytecodeTrace.Proofs.Files.Writing
import BytecodeTrace.Proofs.Program.Delivery
import BytecodeTrace.Proofs.Program.Arguments
import BytecodeTrace.Proofs.Program.Run
import BytecodeTrace.Proofs.Word
import BytecodeTrace.Proofs.Instruction.Classification
import BytecodeTrace.Proofs.Chunk.TraceLine
import BytecodeTrace.Proofs.Text.Shapes
import BytecodeTrace.Proofs.Listing.Grammar
import BytecodeTrace.Proofs.Listing.Concatenation
import BytecodeTrace.Proofs.Buffer.Doubling
import BytecodeTrace.Proofs.Buffer.History
import BytecodeTrace.Proofs.Chunk.Warnings
import BytecodeTrace.Proofs.Chunk.BuildLog
import BytecodeTrace.Proofs.Listing.Layout
import BytecodeTrace.Proofs.Program.DefaultName
import BytecodeTrace.Proofs.Value.Shortest
