import LiveSketch.CommandLine.Simulation
import LiveSketch.Main
import LiveSketch.Pattern.Reading
import LiveSketch.Proofs.Outcome
import LiveSketch.Proofs.Script.Evaluation
import LiveSketch.Proofs.Script.Compilation
import LiveSketch.Proofs.Script.Faults
import LiveSketch.Proofs.Live.Actions
import LiveSketch.Proofs.Live.Steps
import LiveSketch.Proofs.Sketch.Ticks
import LiveSketch.Proofs.Live.Stability
import LiveSketch.Proofs.Number.Plain
import LiveSketch.Proofs.Script.Printing
import LiveSketch.Proofs.Script.Lexing
import LiveSketch.Proofs.Script.Descent
import LiveSketch.Proofs.Script.RoundTrip
import LiveSketch.Proofs.Number.Counts
import LiveSketch.Proofs.Sketch.Comments
import LiveSketch.Proofs.Sketch.Postfix
import LiveSketch.Proofs.Sketch.Headers
import LiveSketch.Proofs.Sketch.Reports
import LiveSketch.Proofs.Sketch.Statements
import LiveSketch.Proofs.Script.ReportTokens
import LiveSketch.Proofs.Script.ReportTrees
import LiveSketch.Proofs.Live.Pacing
import LiveSketch.Proofs.Live.Texts
import LiveSketch.Proofs.Live.Promotion
import LiveSketch.Proofs.Sketch.Newlines
import LiveSketch.Proofs.Script.Reported
import LiveSketch.Proofs.Live.Once
import LiveSketch.Proofs.Live.Failing
import LiveSketch.Proofs.Live.Ticked
import LiveSketch.Proofs.Number.Order
import LiveSketch.Proofs.Script.Assignments
import LiveSketch.Proofs.Live.Timing
import LiveSketch.Proofs.Sketch.Loops
import LiveSketch.Proofs.Script.Places
import LiveSketch.Proofs.Script.Erasure
import LiveSketch.Proofs.Script.Parts
import LiveSketch.Proofs.Script.Agreement
import LiveSketch.Proofs.Script.Attaching
import LiveSketch.Proofs.Script.Rows
import LiveSketch.Proofs.Script.RowTrees
import LiveSketch.Proofs.Script.Scanning
import LiveSketch.Proofs.Sketch.HeaderRows
import LiveSketch.Proofs.Sketch.Instrumented
import LiveSketch.Proofs.Autocoder.Streams
import LiveSketch.Proofs.Script.Totality
import LiveSketch.Proofs.Random.Choices
import LiveSketch.Proofs.Autocoder.Mutation
import LiveSketch.Proofs.Autocoder.Mutability
import LiveSketch.Proofs.Live.Isolation
import LiveSketch.Proofs.Sketch.Literals
import LiveSketch.Proofs.Sketch.Settled
import LiveSketch.Proofs.Script.Spelling
import LiveSketch.Proofs.Script.Parentheses
import LiveSketch.Proofs.Sketch.Precheck
import LiveSketch.Proofs.Script.Renumbering
import LiveSketch.Proofs.Script.Mirrors
import LiveSketch.Proofs.Script.SameLines
import LiveSketch.Proofs.Sketch.Separating
import LiveSketch.Proofs.Sketch.DrawCalls
import LiveSketch.Proofs.Sketch.LastLine
import LiveSketch.Proofs.Sketch.Insertions
import LiveSketch.Proofs.Sketch.Survival
import LiveSketch.Proofs.Script.Accepted
import LiveSketch.Proofs.Script.Delimiting
import LiveSketch.Proofs.Autocoder.Chains
import LiveSketch.Proofs.Script.Brackets
import LiveSketch.Proofs.Script.ElseChains
import LiveSketch.Proofs.Script.Tiling
import LiveSketch.Proofs.Script.Wrapping
import LiveSketch.Proofs.Sketch.Prefixed
import LiveSketch.Proofs.Sketch.CommandStarts
import LiveSketch.Proofs.Sketch.Returns
import LiveSketch.Proofs.Sketch.Stripping
import LiveSketch.Proofs.Autocoder.Precedence
import LiveSketch.Proofs.Live.Varying
import LiveSketch.Proofs.Sketch.LineEnds
import LiveSketch.Proofs.Sketch.Remarks
import LiveSketch.Proofs.Script.WithoutSemicolons
import LiveSketch.Proofs.Script.CountedLines
import LiveSketch.Proofs.Sketch.CountedLoops
import LiveSketch.Proofs.Sketch.LineStarts
import LiveSketch.Proofs.Sketch.NumericForms
import LiveSketch.Proofs.Scene.Effects
import LiveSketch.Proofs.Scene.Balance
import LiveSketch.Proofs.Number.Exact
import LiveSketch.Proofs.Scene.Affine
import LiveSketch.Proofs.Scene.Points
import LiveSketch.Proofs.Number.Nearest
import LiveSketch.Proofs.Scene.Settings
import LiveSketch.Proofs.Noise.Seams
import LiveSketch.Proofs.Noise.Range
import LiveSketch.Proofs.Noise.Lookups
import LiveSketch.Proofs.Autocoder.Intervals
