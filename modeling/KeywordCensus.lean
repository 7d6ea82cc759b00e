import KeywordCensus.Census.Basic
import KeywordCensus.Census.Discovery
import KeywordCensus.Census.Scan
import KeywordCensus.Colour.Basic
import KeywordCensus.Colour.Gradient
import KeywordCensus.Corpus.Index
import KeywordCensus.Corpus.KeyCount
import KeywordCensus.Corpus.Specification
import KeywordCensus.Corpus.Usage
import KeywordCensus.FileTree.Basic
import KeywordCensus.FileTree.Disk
import KeywordCensus.FileTree.Edit
import KeywordCensus.FileTree.Resolve
import KeywordCensus.FileTree.Walk
import KeywordCensus.Floating.Basic
import KeywordCensus.Floating.Shortest
import KeywordCensus.Json.Basic
import KeywordCensus.Json.Numeral
import KeywordCensus.Json.Printer
import KeywordCensus.Json.Quoted
import KeywordCensus.Json.Reader
import KeywordCensus.Json.Token
import KeywordCensus.Main
import KeywordCensus.Oracle.Basic
import KeywordCensus.Oracle.Process
import KeywordCensus.Oracle.Version
import KeywordCensus.Oracle.Waiting
import KeywordCensus.Path.Basic
import KeywordCensus.Path.Normal
import KeywordCensus.Pattern.Basic
import KeywordCensus.Pattern.Parser
import KeywordCensus.Power
import KeywordCensus.Program
import KeywordCensus.Release.Cache
import KeywordCensus.Release.Install
import KeywordCensus.Release.Listing
import KeywordCensus.Release.Service
import KeywordCensus.Remote.Basic
import KeywordCensus.Remote.Sync
import KeywordCensus.Remote.Url
import KeywordCensus.Report.Basic
import KeywordCensus.Report.Csv
import KeywordCensus.Report.HeatMap
import KeywordCensus.Report.Moment
import KeywordCensus.Report.Page
import KeywordCensus.Report.Table
import KeywordCensus.Settings.Arguments
import KeywordCensus.Settings.Basic
import KeywordCensus.Settings.Choice
import KeywordCensus.Settings.CommandLine
import KeywordCensus.Settings.Validated
import KeywordCensus.SortedMap
import KeywordCensus.Text.Blank
import KeywordCensus.Text.Bytes
import KeywordCensus.Text.Digit
import KeywordCensus.Text.Split
import KeywordCensus.Proofs.Map.Lookup
import KeywordCensus.Proofs.Corpus.Tally
import KeywordCensus.Proofs.Text.Bytes
import KeywordCensus.Proofs.Path.Canonical
import KeywordCensus.Proofs.Path.Child
import KeywordCensus.Proofs.Corpus.Loading
import KeywordCensus.Proofs.Corpus.Counting
import KeywordCensus.Proofs.Corpus.Consistency
import KeywordCensus.Proofs.Corpus.Reachable
import KeywordCensus.Proofs.Corpus.Splitting
import KeywordCensus.Proofs.Census.Partition
import KeywordCensus.Proofs.FileTree.Shell
import KeywordCensus.Proofs.FileTree.Following
import KeywordCensus.Proofs.FileTree.Growth
import KeywordCensus.Proofs.FileTree.Plain
import KeywordCensus.Proofs.Remote.WorkTree
import KeywordCensus.Proofs.Remote.Reach
import KeywordCensus.Proofs.Remote.Cloning
import KeywordCensus.Proofs.Remote.Mirror
import KeywordCensus.Proofs.Remote.Layout
import KeywordCensus.Proofs.Remote.CheckOut
import KeywordCensus.Proofs.FileTree.Difference
import KeywordCensus.Proofs.Remote.Turn
import KeywordCensus.Proofs.Remote.Collection
import KeywordCensus.Proofs.Corpus.Gathering
import KeywordCensus.Proofs.Remote.Boundary
import KeywordCensus.Proofs.FileTree.Walking
import KeywordCensus.Proofs.FileTree.Order
import KeywordCensus.Proofs.FileTree.Missing
import KeywordCensus.Proofs.FileTree.Writing
import KeywordCensus.Proofs.FileTree.Paving
import KeywordCensus.Proofs.FileTree.Fixed
import KeywordCensus.Proofs.Release.Pinning
import KeywordCensus.Proofs.Release.Selection
import KeywordCensus.Proofs.Release.Extraction
import KeywordCensus.Proofs.Report.Records
import KeywordCensus.Proofs.Report.Markup
import KeywordCensus.Proofs.Report.Outline
import KeywordCensus.Proofs.Census.Withholding
import KeywordCensus.Proofs.Census.Snapshot
import KeywordCensus.Proofs.Census.Ranking
import KeywordCensus.Proofs.Report.Template
import KeywordCensus.Proofs.Census.Discovery
import KeywordCensus.Proofs.Census.Roots
import KeywordCensus.Proofs.Report.UsageTable
import KeywordCensus.Proofs.Report.Agreement
import KeywordCensus.Proofs.FileTree.Canonical
import KeywordCensus.Proofs.Census.Accounting
import KeywordCensus.Proofs.Json.Numerals
import KeywordCensus.Proofs.Json.Tokens
import KeywordCensus.Proofs.Json.Reading
import KeywordCensus.Proofs.Json.Numbers
import KeywordCensus.Proofs.Floating.Decimals
import KeywordCensus.Proofs.Json.Floats
import KeywordCensus.Proofs.Report.ReadBack
import KeywordCensus.Proofs.Path.Lexical
import KeywordCensus.Proofs.Path.Trimming
import KeywordCensus.Proofs.Remote.Spelling
import KeywordCensus.Proofs.Oracle.Verdict
import KeywordCensus.Proofs.Colour.Hexadecimal
import KeywordCensus.Proofs.Census.Tagging
import KeywordCensus.Proofs.Release.Newest
import KeywordCensus.Proofs.Report.Delivery
import KeywordCensus.Proofs.Corpus.Contribution
import KeywordCensus.Proofs.Census.Finding
import KeywordCensus.Proofs.Floating.Range
import KeywordCensus.Proofs.Floating.Rounding
import KeywordCensus.Proofs.Floating.Value
import KeywordCensus.Proofs.Colour.Gradient
import KeywordCensus.Proofs.Corpus.Shading
