import LintMend.Analysis.Error
import LintMend.Analysis.Input
import LintMend.Analysis.Report
import LintMend.Analysis.Run
import LintMend.Analysis.Workers
import LintMend.Check.Checker
import LintMend.Check.Dispatch
import LintMend.Check.Entity
import LintMend.Command.Arguments
import LintMend.Command.Run
import LintMend.Config.Basic
import LintMend.Config.Load
import LintMend.Config.Text
import LintMend.Defect.Issue
import LintMend.Defect.Patching
import LintMend.Defect.Severity
import LintMend.Directive
import LintMend.Disk.Path
import LintMend.Disk.Shared
import LintMend.Disk.Tree
import LintMend.Editor.Cursor
import LintMend.Editor.Session
import LintMend.Editor.Uri
import LintMend.Frontend
import LintMend.Ignore.Glob
import LintMend.Ignore.Rules
import LintMend.Ignore.Walk
import LintMend.Json.Reader
import LintMend.Json.Value
import LintMend.Json.Writer
import LintMend.Main
import LintMend.Number.Decimal
import LintMend.Number.Double
import LintMend.Outcome
import LintMend.Program.Exchange
import LintMend.Program.Printer
import LintMend.Program.Span
import LintMend.Program.Splice
import LintMend.Program.Unit
import LintMend.Proofs.AdmittedUnits
import LintMend.Proofs.AnnotationLines
import LintMend.Proofs.BackendIsolation
import LintMend.Proofs.BlockLayout
import LintMend.Proofs.BlockTrees
import LintMend.Proofs.ClearedDirectories
import LintMend.Proofs.CoveredTokens
import LintMend.Proofs.CursorOffsets
import LintMend.Proofs.Cutting
import LintMend.Proofs.DefectColumns
import LintMend.Proofs.DiskPlaces
import LintMend.Proofs.DiskWalks
import LintMend.Proofs.DispatchReference
import LintMend.Proofs.EditOrder
import LintMend.Proofs.EditorPositions
import LintMend.Proofs.ExpressionExtents
import LintMend.Proofs.FaithfulPrinting
import LintMend.Proofs.FaultyWrites
import LintMend.Proofs.FoundText
import LintMend.Proofs.GrammarExtents
import LintMend.Proofs.InlineToml
import LintMend.Proofs.ItemExtents
import LintMend.Proofs.JsonText
import LintMend.Proofs.KeptCode
import LintMend.Proofs.LinePositions
import LintMend.Proofs.LoweredFunctions
import LintMend.Proofs.LoweredPlaces
import LintMend.Proofs.LoweredUnits
import LintMend.Proofs.MadeDirectories
import LintMend.Proofs.ModelExchange
import LintMend.Proofs.OutputPreparation
import LintMend.Proofs.OutputWriting
import LintMend.Proofs.PatchApplication
import LintMend.Proofs.PatchedFindings
import LintMend.Proofs.PathPieces
import LintMend.Proofs.PatternMeaning
import LintMend.Proofs.PlaceholderSecrets
import LintMend.Proofs.Printing
import LintMend.Proofs.ProperTrees
import LintMend.Proofs.PublishedDiagnostics
import LintMend.Proofs.QueryArguments
import LintMend.Proofs.QuickFixes
import LintMend.Proofs.ReaderSteps
import LintMend.Proofs.RemovedOutput
import LintMend.Proofs.RemovedStatements
import LintMend.Proofs.RepairConservation
import LintMend.Proofs.RepairTurns
import LintMend.Proofs.RepeatedPreparation
import LintMend.Proofs.RepeatedRepair
import LintMend.Proofs.ReportAccounts
import LintMend.Proofs.ReportOrder
import LintMend.Proofs.ReportedOffsets
import LintMend.Proofs.RuleFaults
import LintMend.Proofs.RunArtifacts
import LintMend.Proofs.SettingsText
import LintMend.Proofs.SharedWriting
import LintMend.Proofs.SilencedIssues
import LintMend.Proofs.SourceLines
import LintMend.Proofs.SplicerAgreement
import LintMend.Proofs.Splicing
import LintMend.Proofs.StatementEdits
import LintMend.Proofs.SwallowedText
import LintMend.Proofs.TokenColumns
import LintMend.Proofs.TokenPlaces
import LintMend.Proofs.TokenSpans
import LintMend.Proofs.TreePlaces
import LintMend.Proofs.TreeStatements
import LintMend.Proofs.WeakSegments
import LintMend.Proofs.WorkerArtifacts
import LintMend.Repair.Attempt
import LintMend.Repair.Engine
import LintMend.Repair.Output
import LintMend.Repair.Suggestion
import LintMend.Repair.Turns
import LintMend.Report.Annotation
import LintMend.Report.Exchange
import LintMend.Report.Style
import LintMend.Report.Terminal
import LintMend.Rules.ConsoleOutput
import LintMend.Rules.HardcodedSecret
import LintMend.Rules.Registry
import LintMend.Rules.Size
import LintMend.Rules.SqlInjection
import LintMend.Rules.WeakCrypto
import LintMend.Rust.File
import LintMend.Rust.Grammar.Basic
import LintMend.Rust.Grammar.Expression
import LintMend.Rust.Grammar.Item
import LintMend.Rust.Grammar.Path
import LintMend.Rust.Grammar.Pattern
import LintMend.Rust.Grammar.Statement
import LintMend.Rust.Grammar.Type
import LintMend.Rust.Lexer
import LintMend.Rust.Lowering
import LintMend.Rust.Node
import LintMend.Rust.Reader
import LintMend.Rust.Token
import LintMend.Text.Blank
import LintMend.Text.Bytes
import LintMend.Text.CaseFold
import LintMend.Text.Identifier
import LintMend.Text.Line
import LintMend.Text.Pattern
import LintMend.Text.Search
import LintMend.Text.Utf8
import LintMend.Toml.Reader
import LintMend.Toml.Value
import LintMend.Toml.Writer
