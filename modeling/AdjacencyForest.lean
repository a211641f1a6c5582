import AdjacencyForest.Configuration
import AdjacencyForest.Error
import AdjacencyForest.Json.Basic
import AdjacencyForest.Json.Parser
import AdjacencyForest.Json.Printer
import AdjacencyForest.Model
import AdjacencyForest.Number.Binary64
import AdjacencyForest.Number.IntegerText
import AdjacencyForest.Number.Layout
import AdjacencyForest.Number.Shortest
import AdjacencyForest.Proofs.Acceptance
import AdjacencyForest.Proofs.AncestorLines
import AdjacencyForest.Proofs.AndSelf
import AdjacencyForest.Proofs.Answerable
import AdjacencyForest.Proofs.Answers
import AdjacencyForest.Proofs.Asking
import AdjacencyForest.Proofs.BaseQueries
import AdjacencyForest.Proofs.Batch
import AdjacencyForest.Proofs.Cells
import AdjacencyForest.Proofs.Chains
import AdjacencyForest.Proofs.ColumnKinds
import AdjacencyForest.Proofs.Columns
import AdjacencyForest.Proofs.Compilation
import AdjacencyForest.Proofs.Consistency
import AdjacencyForest.Proofs.Counts
import AdjacencyForest.Proofs.Cycles
import AdjacencyForest.Proofs.Decimals
import AdjacencyForest.Proofs.Demands
import AdjacencyForest.Proofs.DepthFirst
import AdjacencyForest.Proofs.DepthLimits
import AdjacencyForest.Proofs.Descendants
import AdjacencyForest.Proofs.Descriptions
import AdjacencyForest.Proofs.Editing
import AdjacencyForest.Proofs.Enumeration
import AdjacencyForest.Proofs.Escapes
import AdjacencyForest.Proofs.Evaluation
import AdjacencyForest.Proofs.Exporting
import AdjacencyForest.Proofs.Fetching
import AdjacencyForest.Proofs.FiniteWalks
import AdjacencyForest.Proofs.FlushedNodes
import AdjacencyForest.Proofs.Flushing
import AdjacencyForest.Proofs.Forest
import AdjacencyForest.Proofs.Histories
import AdjacencyForest.Proofs.Holding
import AdjacencyForest.Proofs.Keys
import AdjacencyForest.Proofs.LabelReading
import AdjacencyForest.Proofs.LabelRoundTrip
import AdjacencyForest.Proofs.Likeness
import AdjacencyForest.Proofs.Links
import AdjacencyForest.Proofs.Loading
import AdjacencyForest.Proofs.Numerals
import AdjacencyForest.Proofs.Opposite
import AdjacencyForest.Proofs.Outlines
import AdjacencyForest.Proofs.Overflows
import AdjacencyForest.Proofs.Paging
import AdjacencyForest.Proofs.PathAnswers
import AdjacencyForest.Proofs.PathDecoding
import AdjacencyForest.Proofs.PathFragments
import AdjacencyForest.Proofs.PathOrder
import AdjacencyForest.Proofs.Patterns
import AdjacencyForest.Proofs.PayloadCells
import AdjacencyForest.Proofs.PreOrder
import AdjacencyForest.Proofs.Presentation
import AdjacencyForest.Proofs.Printing
import AdjacencyForest.Proofs.Provenance
import AdjacencyForest.Proofs.ReadBack
import AdjacencyForest.Proofs.Relatives
import AdjacencyForest.Proofs.RepeatedKeys
import AdjacencyForest.Proofs.Requests
import AdjacencyForest.Proofs.RootPaths
import AdjacencyForest.Proofs.RoundTrip
import AdjacencyForest.Proofs.Rounding
import AdjacencyForest.Proofs.Rules
import AdjacencyForest.Proofs.Searching
import AdjacencyForest.Proofs.ServerFaults
import AdjacencyForest.Proofs.Serving
import AdjacencyForest.Proofs.SheetReading
import AdjacencyForest.Proofs.Sorting
import AdjacencyForest.Proofs.SourceNames
import AdjacencyForest.Proofs.SourceRows
import AdjacencyForest.Proofs.SqlReading
import AdjacencyForest.Proofs.Staging
import AdjacencyForest.Proofs.Steps
import AdjacencyForest.Proofs.Subtree
import AdjacencyForest.Proofs.SubtreeAnswers
import AdjacencyForest.Proofs.Tracking
import AdjacencyForest.Proofs.Transactions
import AdjacencyForest.Proofs.Transparency
import AdjacencyForest.Proofs.Upsert
import AdjacencyForest.Proofs.ValueOrder
import AdjacencyForest.Proofs.Walks
import AdjacencyForest.Proofs.Writing
import AdjacencyForest.Query
import AdjacencyForest.Relation
import AdjacencyForest.Service.Api
import AdjacencyForest.Service.Columns
import AdjacencyForest.Service.Editing
import AdjacencyForest.Service.Export
import AdjacencyForest.Service.Forest
import AdjacencyForest.Service.Import
import AdjacencyForest.Service.Listing
import AdjacencyForest.Service.Request
import AdjacencyForest.Service.Routing
import AdjacencyForest.Service.Schema
import AdjacencyForest.Service.Seed
import AdjacencyForest.Service.Transaction
import AdjacencyForest.Service.Validation
import AdjacencyForest.Service.Walks
import AdjacencyForest.Service.Workbook
import AdjacencyForest.Session.Entity
import AdjacencyForest.Session.State
import AdjacencyForest.Session.Writing
import AdjacencyForest.Sql.Engine
import AdjacencyForest.Sql.PathGrammar
import AdjacencyForest.Sql.ReservedWords
import AdjacencyForest.Sql.Statement
import AdjacencyForest.Store.Like
import AdjacencyForest.Store.Table
import AdjacencyForest.Store.Value
import AdjacencyForest.Text.Blank
import AdjacencyForest.Text.Digit
import AdjacencyForest.Text.Percent
import AdjacencyForest.Text.Printable
import AdjacencyForest.Text.Quoted
import AdjacencyForest.Text.UpperCase
import AdjacencyForest.Traversal.Basic
import AdjacencyForest.Traversal.Criterion
import AdjacencyForest.Traversal.Evaluation
import AdjacencyForest.Traversal.Expression
import AdjacencyForest.Traversal.Source
