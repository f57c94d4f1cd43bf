import DeclSchema.Main
import DeclSchema.Proofs.Generation.Restriction
import DeclSchema.Proofs.Generation.SelfContained
import DeclSchema.Proofs.Inheritance.Order
import DeclSchema.Proofs.Decimal.Shortest
import DeclSchema.Proofs.Json.Numbers
import DeclSchema.Proofs.Json.Writing
import DeclSchema.Proofs.Json.Blanks
import DeclSchema.Proofs.Schema.Alike
import DeclSchema.Proofs.Generation.Rendering
import DeclSchema.Proofs.Syntax.Spelling
import DeclSchema.Proofs.Syntax.Steady
import DeclSchema.Proofs.Syntax.SteadyTypes
import DeclSchema.Proofs.Syntax.Tokens
import DeclSchema.Proofs.Text.Trim
import DeclSchema.Proofs.Syntax.TypeSpelling
import DeclSchema.Proofs.Syntax.SteadyValues
import DeclSchema.Proofs.Syntax.SteadyStatements
import DeclSchema.Proofs.Syntax.Written
import DeclSchema.Proofs.Syntax.Places
import DeclSchema.Proofs.Syntax.Clear
import DeclSchema.Proofs.Syntax.WrittenTexts
import DeclSchema.Proofs.Syntax.WrittenTypes
import DeclSchema.Proofs.Syntax.WrittenDeclarations
import DeclSchema.Proofs.Syntax.WrittenEnums
import DeclSchema.Proofs.Syntax.WrittenSources
import DeclSchema.Proofs.Extraction.Visits
import DeclSchema.Proofs.Extraction.Merging
import DeclSchema.Proofs.Reference.Graph
import DeclSchema.Proofs.Reference.Cycle
import DeclSchema.Proofs.Generation.Dangling
import DeclSchema.Proofs.Extraction.Meets
import DeclSchema.Proofs.Extraction.Bodies
import DeclSchema.Proofs.Extraction.Calls
import DeclSchema.Proofs.Extraction.Classes
import DeclSchema.Proofs.Extraction.Hosts
import DeclSchema.Proofs.TypeText.Agreement
import DeclSchema.Proofs.Reference.Views
import DeclSchema.Proofs.Generation.Dependence
import DeclSchema.Proofs.Command.Effects
import DeclSchema.Proofs.Settings.Saving
import DeclSchema.Proofs.Syntax.WellFormed
import DeclSchema.Proofs.Settings.Sources
import DeclSchema.Proofs.TypeText.Composition
import DeclSchema.Proofs.TypeText.NormalForms
import DeclSchema.Proofs.Generation.Starts
import DeclSchema.Proofs.Extraction.Grouping
import DeclSchema.Proofs.Inheritance.Sources
import DeclSchema.Proofs.Suggestion
import DeclSchema.Proofs.Syntax.StringLiterals
import DeclSchema.Proofs.Generation.Synthesis
import DeclSchema.Proofs.Reference.DotReading
import DeclSchema.Proofs.Reference.DotWriting
import DeclSchema.Proofs.TypeText.Partition
import DeclSchema.Proofs.Decimal.Literals
import DeclSchema.Proofs.Settings.Environment
