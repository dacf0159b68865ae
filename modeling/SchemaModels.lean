import SchemaModels.CommandLine
import SchemaModels.FileTree
import SchemaModels.Graph
import SchemaModels.Graph.Order
import SchemaModels.Graph.Search
import SchemaModels.Lexeme
import SchemaModels.Main
import SchemaModels.Model.Attribute
import SchemaModels.Model.Declaration
import SchemaModels.Model.Imports
import SchemaModels.Model.Module
import SchemaModels.Model.Outline
import SchemaModels.Model.ScalarTable
import SchemaModels.Model.TypeHint
import SchemaModels.Proofs.BaseClasses
import SchemaModels.Proofs.Lines
import SchemaModels.Proofs.Pieces
import SchemaModels.Proofs.Search
import SchemaModels.Proofs.Walk
import SchemaModels.Registry
import SchemaModels.Run
import SchemaModels.Samples
import SchemaModels.Schema.Definition
import SchemaModels.Schema.Document
import SchemaModels.Schema.Extension
import SchemaModels.Schema.Fault
import SchemaModels.Schema.Grammar
import SchemaModels.Schema.Source
import SchemaModels.Schema.TokenParser
import SchemaModels.Schema.TypeExpr
import SchemaModels.Schema.Value
import SchemaModels.Settings
import SchemaModels.Settings.EnumStyle
import SchemaModels.Settings.File
import SchemaModels.Settings.ScalarTarget
import SchemaModels.Settings.SettingError
import SchemaModels.Text.Blank
import SchemaModels.Text.ByteOrderMark
import SchemaModels.Text.Hidden
import SchemaModels.Text.Position
import SchemaModels.Text.Quoted
import SchemaModels.Token
import SchemaModels.Token.BlockString
import SchemaModels.Token.Number
import SchemaModels.Token.StringLiteral
import SchemaModels.Toml.Entry
import SchemaModels.Toml.Moment
import SchemaModels.Toml.Text
import SchemaModels.Toml.Token
import SchemaModels.Proofs.Splitting
import SchemaModels.Proofs.Erasure
import SchemaModels.Proofs.TokenRules
import SchemaModels.Proofs.Layout
import SchemaModels.Proofs.Predictive
import SchemaModels.Proofs.ViablePrefix
import SchemaModels.Proofs.Header
import SchemaModels.Proofs.FileTree
import SchemaModels.Proofs.Respacing
import SchemaModels.Proofs.Runs
import SchemaModels.Proofs.Shapes
import SchemaModels.Proofs.LeastOrder
import SchemaModels.Proofs.PostOrder
import SchemaModels.Proofs.Trimming
import SchemaModels.Proofs.FirstDeclarations
import SchemaModels.Proofs.MergedEntries
import SchemaModels.Proofs.HintTexts
import SchemaModels.Proofs.Aliases
import SchemaModels.Proofs.BlockRoundTrip
import SchemaModels.Proofs.StringEscapes
import SchemaModels.Proofs.Precedence
import SchemaModels.Proofs.EdgeRecords
import SchemaModels.Proofs.NestingGuard
import SchemaModels.Proofs.Positions
import SchemaModels.Proofs.SampleTexts
import SchemaModels.Proofs.RingOrder
import SchemaModels.Proofs.SampleModules
import SchemaModels.Proofs.Overrides
