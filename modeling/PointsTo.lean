import PointsTo.Assoc
import PointsTo.Builder
import PointsTo.CallGraph.Basic
import PointsTo.CallGraph.Condensation
import PointsTo.CallGraph.Encoding
import PointsTo.CallGraph.Query
import PointsTo.CallGraph.Search
import PointsTo.CallGraph.Summary
import PointsTo.Casting
import PointsTo.Casting.ClassMasks
import PointsTo.Command.Condense
import PointsTo.Command.Console
import PointsTo.Command.Flags
import PointsTo.Command.Hint
import PointsTo.Command.Query
import PointsTo.Command.Render
import PointsTo.Command.Run
import PointsTo.Command.Statistics
import PointsTo.Config.Basic
import PointsTo.Config.Load
import PointsTo.Config.Mode
import PointsTo.Context
import PointsTo.Digraph.Basic
import PointsTo.Digraph.Components
import PointsTo.Digraph.Cycles
import PointsTo.Digraph.Dot
import PointsTo.Digraph.Explore
import PointsTo.Disk
import PointsTo.Document.Basic
import PointsTo.Document.Meaning
import PointsTo.Document.Reading
import PointsTo.Document.Scalar
import PointsTo.Document.Scanner
import PointsTo.Document.Token
import PointsTo.Facts
import PointsTo.Fault
import PointsTo.HeapContext
import PointsTo.Hierarchy
import PointsTo.Ids
import PointsTo.Log
import PointsTo.Main
import PointsTo.Program.Basic
import PointsTo.Program.Build
import PointsTo.Program.Description
import PointsTo.Program.Query
import PointsTo.Source.Access
import PointsTo.Source.Analysis
import PointsTo.Source.Annotations
import PointsTo.Source.Calls
import PointsTo.Source.Flow
import PointsTo.Source.Grammar.Basic
import PointsTo.Source.Grammar.Expressions
import PointsTo.Source.Grammar.File
import PointsTo.Source.Grammar.Statements
import PointsTo.Source.Grammar.Types
import PointsTo.Source.Hierarchy
import PointsTo.Source.Inclusion
import PointsTo.Source.Lexeme
import PointsTo.Source.Lifting
import PointsTo.Source.LineOrigin
import PointsTo.Source.Program
import PointsTo.Source.Type
import PointsTo.Text.Category
import PointsTo.Text.Decimal
import PointsTo.Text.Folding
import PointsTo.Text.Numeral
import PointsTo.Text.Pattern
import PointsTo.Text.Pattern.CharSet
import PointsTo.Text.Pattern.Parser
import PointsTo.Text.Quoted
import PointsTo.Text.Script
import PointsTo.Text.Style
import PointsTo.Text.Template
import PointsTo.Universe.Basic
import PointsTo.Workers
import PointsTo.Workspace
import PointsTo.Proofs.Reachability
import PointsTo.Proofs.Tables
import PointsTo.Proofs.Attempts
import PointsTo.Proofs.Graphs
import PointsTo.Proofs.Components
import PointsTo.Proofs.Classes
import PointsTo.Proofs.Digraphs
import PointsTo.Proofs.Circuits
import PointsTo.Proofs.Cycles
import PointsTo.Proofs.Traversal
import PointsTo.Proofs.Condensation
import PointsTo.Proofs.Ranks
import PointsTo.Proofs.Paths
import PointsTo.Proofs.Search
import PointsTo.Proofs.AnyEdge
import PointsTo.Proofs.Packing
import PointsTo.Proofs.Encoding
import PointsTo.Proofs.Ranges
import PointsTo.Proofs.Contexts
import PointsTo.Proofs.Chains
import PointsTo.Proofs.Translation
import PointsTo.Proofs.Exactness
import PointsTo.Proofs.AllContexts
import PointsTo.Proofs.Independence
import PointsTo.Proofs.Universes
import PointsTo.Proofs.Casts
import PointsTo.Proofs.Hierarchies
import PointsTo.Proofs.ClassMasks
import PointsTo.Proofs.Recondensing
import PointsTo.Proofs.Steps
import PointsTo.Proofs.Growth
import PointsTo.Proofs.Closure
import PointsTo.Proofs.Frames
import PointsTo.Proofs.Freezing
import PointsTo.Proofs.Programs
import PointsTo.Proofs.Declarations
import PointsTo.Proofs.TypeNames
import PointsTo.Proofs.Answers
import PointsTo.Proofs.Schedules
import PointsTo.Proofs.FactStores
import PointsTo.Proofs.Builds
import PointsTo.Proofs.Names
import PointsTo.Proofs.Filters
import PointsTo.Proofs.Windows
import PointsTo.Proofs.Storability
import PointsTo.Proofs.DerivedTypes
import PointsTo.Proofs.TypeTexts
import PointsTo.Proofs.TypeHistories
import PointsTo.Proofs.Expectations
import PointsTo.Proofs.Accesses
import PointsTo.Proofs.Rounds
import PointsTo.Proofs.Registries
