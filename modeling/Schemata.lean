import Schemata.Command.Args
import Schemata.Command.Error
import Schemata.Command.Options
import Schemata.Command.Run
import Schemata.Command.Sources
import Schemata.Config
import Schemata.DataType
import Schemata.Diagnostic
import Schemata.Dialect
import Schemata.Dialect.ColumnChange
import Schemata.Dialect.ColumnCopy
import Schemata.Dialect.Ddl
import Schemata.Dialect.Naming
import Schemata.Dialect.NativeType
import Schemata.Dialect.Profile
import Schemata.Dialect.Reserved
import Schemata.Dialect.Trigger
import Schemata.Dml
import Schemata.Expr
import Schemata.Expr.Render
import Schemata.FileSystem
import Schemata.FullScript
import Schemata.GenerateError
import Schemata.Glob
import Schemata.Grammar.Dml
import Schemata.Grammar.Expr
import Schemata.Grammar.Hint
import Schemata.Grammar.Reader
import Schemata.Grammar.Schema
import Schemata.Grammar.Table
import Schemata.Grammar.View
import Schemata.Hint
import Schemata.Json
import Schemata.Json.Decode
import Schemata.Json.Model
import Schemata.Json.Plan
import Schemata.Literal
import Schemata.Main
import Schemata.Migration
import Schemata.Mistake
import Schemata.Name
import Schemata.Path
import Schemata.Plan
import Schemata.Plan.Diff
import Schemata.Proofs.Built
import Schemata.Proofs.Catalog
import Schemata.Proofs.ColumnStatements
import Schemata.Proofs.CombinedText
import Schemata.Proofs.CommentSafety
import Schemata.Proofs.Constraint
import Schemata.Proofs.CopyRetype
import Schemata.Proofs.DefaultProcedure
import Schemata.Proofs.DroppedViews
import Schemata.Proofs.ElementGrammar
import Schemata.Proofs.ElementMistakes
import Schemata.Proofs.ElementReading
import Schemata.Proofs.ElementRecognition
import Schemata.Proofs.Emission
import Schemata.Proofs.EmptyPlan
import Schemata.Proofs.ExprGrammar
import Schemata.Proofs.ExprReading
import Schemata.Proofs.ExprRecognition
import Schemata.Proofs.FreshMigration
import Schemata.Proofs.GenerateRun
import Schemata.Proofs.HintIsolation
import Schemata.Proofs.IndependentStatements
import Schemata.Proofs.InlineForeignKeys
import Schemata.Proofs.InstalledTriggers
import Schemata.Proofs.Lexing
import Schemata.Proofs.Locality
import Schemata.Proofs.Looking
import Schemata.Proofs.MistakePlaces
import Schemata.Proofs.MistakesByFile
import Schemata.Proofs.NativeTypes
import Schemata.Proofs.ParsedConsistent
import Schemata.Proofs.ParsedWellFormed
import Schemata.Proofs.Placeholders
import Schemata.Proofs.PlanOrder
import Schemata.Proofs.PlanSoundness
import Schemata.Proofs.PlanSteps
import Schemata.Proofs.PrintedExpr
import Schemata.Proofs.Provenance
import Schemata.Proofs.Reading
import Schemata.Proofs.Recognition
import Schemata.Proofs.RecoveryProgress
import Schemata.Proofs.Repetition
import Schemata.Proofs.Resolved
import Schemata.Proofs.RoundTrip
import Schemata.Proofs.Scanning
import Schemata.Proofs.SchemaReading
import Schemata.Proofs.ScriptOrder
import Schemata.Proofs.SignFolding
import Schemata.Proofs.SkippedTokens
import Schemata.Proofs.StatementLocality
import Schemata.Proofs.StatementRun
import Schemata.Proofs.StatementScope
import Schemata.Proofs.StrayText
import Schemata.Proofs.StringLiterals
import Schemata.Proofs.TablePlan
import Schemata.Proofs.TokenForm
import Schemata.Proofs.TriggerCleanup
import Schemata.Proofs.UntouchedTables
import Schemata.Proofs.ViewClosure
import Schemata.Proofs.ViewCreation
import Schemata.Proofs.WellFormed
import Schemata.Proofs.WidthAlters
import Schemata.Proofs.Wording
import Schemata.Proofs.WrittenFiles
import Schemata.Resolve
import Schemata.Schema
import Schemata.Schema.Print
import Schemata.SchemaError
import Schemata.Script
import Schemata.SourceSet
import Schemata.Table
import Schemata.Text.Blank
import Schemata.Text.Fingerprint
import Schemata.Text.Lines
import Schemata.Text.Quoted
import Schemata.Text.Split
import Schemata.Token
import Schemata.Token.Lexer
import Schemata.Toml
import Schemata.Toml.Reader
import Schemata.Toml.Scalar
import Schemata.View
