import LiquidLint.Analyzer
import LiquidLint.Check.Basic
import LiquidLint.Check.Definition
import LiquidLint.Command.Run
import LiquidLint.Config
import LiquidLint.Main
import LiquidLint.Proofs.Analyzer.Alone
import LiquidLint.Proofs.Analyzer.Kept
import LiquidLint.Proofs.Edit.Safety
import LiquidLint.Proofs.Liquid.Grammar
import LiquidLint.Proofs.Liquid.Tiling
import LiquidLint.Registry
import LiquidLint.Setup
import LiquidLint.Proofs.Analyzer.Effect
import LiquidLint.Proofs.Config.Choice
import LiquidLint.Proofs.Analyzer.Selection
import LiquidLint.Proofs.Regex.Spans
import LiquidLint.Proofs.Analyzer.Valid
import LiquidLint.Proofs.Analyzer.Memory
import LiquidLint.Proofs.FileTree.Listing
import LiquidLint.Proofs.Theme.Stored
import LiquidLint.Proofs.Command.Reload
import LiquidLint.Proofs.Liquid.Concatenation
import LiquidLint.Proofs.Check.Visit
import LiquidLint.Proofs.Yaml.Equality
import LiquidLint.Proofs.Config.Resolution
import LiquidLint.Proofs.Path.Relative
import LiquidLint.Proofs.Theme.Order
import LiquidLint.Proofs.Analyzer.Reordered
import LiquidLint.Proofs.Correction.Together
import LiquidLint.Proofs.Text.Line
import LiquidLint.Proofs.Analyzer.Broken
import LiquidLint.Proofs.Report.Reread
import LiquidLint.Proofs.Check.Unread
import LiquidLint.Proofs.Correction.Arrangement
import LiquidLint.Proofs.Text.Position
import LiquidLint.Proofs.Liquid.Continuation
import LiquidLint.Proofs.Analyzer.OnePass
import LiquidLint.Proofs.Check.Translations
import LiquidLint.Proofs.Check.Pattern
import LiquidLint.Proofs.Analyzer.References
import LiquidLint.Proofs.Edit.Convert
import LiquidLint.Proofs.Analyzer.Conversion
import LiquidLint.Proofs.Liquid.Markup
import LiquidLint.Proofs.Liquid.Strings
import LiquidLint.Proofs.Config.Required
import LiquidLint.Proofs.Config.Naming
import LiquidLint.Proofs.Config.Nearest
