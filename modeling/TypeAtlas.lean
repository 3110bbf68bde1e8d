import TypeAtlas.Analysis
import TypeAtlas.Bound
import TypeAtlas.Closure.Exploration
import TypeAtlas.Closure.Reachable
import TypeAtlas.Closure.Tree
import TypeAtlas.Codebase.Description
import TypeAtlas.Codebase.Evaluation
import TypeAtlas.Codebase.Execution
import TypeAtlas.Codebase.Linearization
import TypeAtlas.Codebase.Provider
import TypeAtlas.Codebase.Source
import TypeAtlas.Codebase.Term
import TypeAtlas.Codebase.World
import TypeAtlas.CommandLine.Invocation
import TypeAtlas.CommandLine.Outcome
import TypeAtlas.CommandLine.Sources
import TypeAtlas.CommandLine.Words
import TypeAtlas.Config
import TypeAtlas.Console.Block
import TypeAtlas.Console.Layout
import TypeAtlas.Console.Markup
import TypeAtlas.Console.Outline
import TypeAtlas.Console.Table
import TypeAtlas.Failure
import TypeAtlas.Files.Path
import TypeAtlas.Files.Tree
import TypeAtlas.Graph
import TypeAtlas.Graph.Store
import TypeAtlas.Index
import TypeAtlas.Json.Document
import TypeAtlas.Json.Printer
import TypeAtlas.Json.Reading
import TypeAtlas.Json.Value
import TypeAtlas.Main
import TypeAtlas.Member
import TypeAtlas.Metrics
import TypeAtlas.Name
import TypeAtlas.Neighbourhood
import TypeAtlas.Ordered.Entries
import TypeAtlas.Ordered.Map
import TypeAtlas.Ordered.Set
import TypeAtlas.Provider
import TypeAtlas.References
import TypeAtlas.Report.Blocks
import TypeAtlas.Report.Csv
import TypeAtlas.Report.Objects
import TypeAtlas.Report.Tables
import TypeAtlas.Resolution
import TypeAtlas.Roots
import TypeAtlas.Schema.Basic
import TypeAtlas.Schema.Reading
import TypeAtlas.Schema.Writing
import TypeAtlas.Session
import TypeAtlas.Step
import TypeAtlas.Text.Blank
import TypeAtlas.Text.Casing
import TypeAtlas.Text.Lines
import TypeAtlas.Text.Lowercase
import TypeAtlas.Text.Numeral
import TypeAtlas.Text.Quoted
import TypeAtlas.Text.Utf8
import TypeAtlas.Text.Width
import TypeAtlas.Proofs.Closure.Reach
import TypeAtlas.Proofs.Closure.Walk
import TypeAtlas.Proofs.Closure.Record
import TypeAtlas.Proofs.Session.Gain
import TypeAtlas.Proofs.Session.Index
import TypeAtlas.Proofs.Index.Building
import TypeAtlas.Proofs.Index.References
import TypeAtlas.Proofs.Index.Search
import TypeAtlas.Proofs.Closure.Exploration
import TypeAtlas.Proofs.Session.Steps
import TypeAtlas.Proofs.Closure.Reachability
import TypeAtlas.Proofs.Closure.Widening
import TypeAtlas.Proofs.Closure.ShortestPaths
import TypeAtlas.Proofs.Session.Effect
import TypeAtlas.Proofs.Session.Order
import TypeAtlas.Proofs.Session.Invariant
import TypeAtlas.Proofs.Graph.Readings
import TypeAtlas.Proofs.Graph.History
import TypeAtlas.Proofs.Graph.Store
import TypeAtlas.Proofs.Session.Coherence
import TypeAtlas.Proofs.Session.Primitives
import TypeAtlas.Proofs.Session.Transparency
import TypeAtlas.Proofs.Closure.Levels
import TypeAtlas.Proofs.Closure.Tree
import TypeAtlas.Proofs.Closure.Truncation
import TypeAtlas.Proofs.Closure.Spanning
import TypeAtlas.Proofs.Analysis.Gains
import TypeAtlas.Proofs.Analysis.Tables
import TypeAtlas.Proofs.Session.Failures
import TypeAtlas.Proofs.Session.Lockstep
import TypeAtlas.Proofs.Session.Recording
import TypeAtlas.Proofs.Index.Arrangement
import TypeAtlas.Proofs.Analysis.Listing
import TypeAtlas.Proofs.Analysis.Accounting
import TypeAtlas.Proofs.Session.Computations
import TypeAtlas.Proofs.Report.Csv
import TypeAtlas.Proofs.Report.Tables
import TypeAtlas.Proofs.Json.Spelling
import TypeAtlas.Proofs.Json.Printing
import TypeAtlas.Proofs.Json.Abridgement
import TypeAtlas.Proofs.Schema.RoundTrip
import TypeAtlas.Proofs.CommandLine.Settings
import TypeAtlas.Proofs.Console.Layout
import TypeAtlas.Proofs.Console.Symbols
import TypeAtlas.Proofs.Console.Verbatim
import TypeAtlas.Proofs.Console.Shown
import TypeAtlas.Proofs.Console.Red
import TypeAtlas.Proofs.Json.Gaps
import TypeAtlas.Proofs.Json.Faults
import TypeAtlas.Proofs.Json.WellFormed
import TypeAtlas.Proofs.Json.Rearrangement
import TypeAtlas.Proofs.Schema.Faults
import TypeAtlas.Proofs.Schema.Rearrangement
import TypeAtlas.Proofs.CommandLine.Complaints
import TypeAtlas.Proofs.Session.OnRecord
import TypeAtlas.Proofs.Closure.Locality
import TypeAtlas.Proofs.Closure.Merge
import TypeAtlas.Proofs.CommandLine.Documents
import TypeAtlas.Proofs.CommandLine.MissingNames
import TypeAtlas.Proofs.CommandLine.UnknownMembers
import TypeAtlas.Proofs.Codebase.Annotations
import TypeAtlas.Proofs.Codebase.Descriptions
import TypeAtlas.Proofs.Codebase.Finding
import TypeAtlas.Proofs.Codebase.References
import TypeAtlas.Proofs.Codebase.Questions
import TypeAtlas.Proofs.Codebase.NamesTaken
import TypeAtlas.Proofs.Codebase.Serving
import TypeAtlas.Proofs.Codebase.Lookups
import TypeAtlas.Proofs.Codebase.Analyses
import TypeAtlas.Proofs.Roots.Lines
import TypeAtlas.Proofs.Session.EmptyName
import TypeAtlas.Proofs.Analysis.Depth
import TypeAtlas.Proofs.Metrics.Agreement
import TypeAtlas.Proofs.Closure.Loops
import TypeAtlas.Proofs.Closure.Searches
import TypeAtlas.Proofs.Closure.Assembly
import TypeAtlas.Proofs.Closure.Traversal
import TypeAtlas.Proofs.Index.Duplicates
import TypeAtlas.Proofs.Codebase.Flattening
