import TraceGloss.Main
import TraceGloss.Proofs.Provenance.Expansion
import TraceGloss.Proofs.Provenance.History
import TraceGloss.Proofs.Provenance.Rendering
import TraceGloss.Proofs.Tracer.Columns
import TraceGloss.Proofs.Tracer.Frames
import TraceGloss.Proofs.Tracer.Stepping
import TraceGloss.Proofs.Tracer.Bookkeeping
import TraceGloss.Proofs.Tracer.Answers
import TraceGloss.Proofs.Tracer.Gas
import TraceGloss.Proofs.Tracer.Selection
import TraceGloss.Proofs.Tracer.Depths
import TraceGloss.Proofs.Decoder.Instructions
import TraceGloss.Proofs.Decoder.Run
import TraceGloss.Proofs.Decoder.Log
import TraceGloss.Proofs.Provenance.Evaluation
import TraceGloss.Proofs.Decoder.Truth
import TraceGloss.Proofs.Source.Entries
import TraceGloss.Proofs.Text.Lines
import TraceGloss.Proofs.Source.Positions
import TraceGloss.Proofs.Source.Table
import TraceGloss.Proofs.Source.Cuts
import TraceGloss.Proofs.Source.Excerpts
import TraceGloss.Proofs.Source.Disassembly
import TraceGloss.Proofs.Tracer.Nesting
import TraceGloss.Proofs.Tracer.Conservation
import TraceGloss.Proofs.Tracer.Independence
import TraceGloss.Proofs.Json.Records
import TraceGloss.Proofs.Step.RoundTrip
import TraceGloss.Proofs.Json.Compact
import TraceGloss.Proofs.Word.Text
import TraceGloss.Proofs.Word.Numeric
import TraceGloss.Proofs.Decoder.Preimages
import TraceGloss.Proofs.Supply.Requests
import TraceGloss.Proofs.Tracer.Reuse
import TraceGloss.Proofs.Annotation.Calls
import TraceGloss.Proofs.Annotation.Delivery
import TraceGloss.Proofs.Provenance.Termination
import TraceGloss.Proofs.Tracer.CallGas
import TraceGloss.Proofs.Tracer.Learning
import TraceGloss.Proofs.Decoder.Windows
import TraceGloss.Proofs.Decoder.Memory
import TraceGloss.Proofs.Source.Snippets
import TraceGloss.Proofs.Artifact.Loading
import TraceGloss.Proofs.Artifact.Matching
import TraceGloss.Proofs.Json.Columns
import TraceGloss.Proofs.Artifact.Files
import TraceGloss.Proofs.Tracer.Diagnostics
import TraceGloss.Proofs.Tracer.Navigation
import TraceGloss.Proofs.Provenance.Revision
import TraceGloss.Proofs.Table.Entries
import TraceGloss.Proofs.Annotation.Profile
import TraceGloss.Proofs.Text.Lenient
import TraceGloss.Proofs.Source.LineIndex
import TraceGloss.Proofs.Json.Parts
import TraceGloss.Proofs.Json.Respelling
import TraceGloss.Proofs.Text.Quantity
import TraceGloss.Proofs.Step.Dialects
