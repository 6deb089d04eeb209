import TupleLogic.Encoding.Compile
import TupleLogic.Encoding.Counting
import TupleLogic.Encoding.Encoder
import TupleLogic.Encoding.Error
import TupleLogic.Encoding.Formula
import TupleLogic.Encoding.Structure
import TupleLogic.Encoding.Witness
import TupleLogic.Error
import TupleLogic.Layout.Block
import TupleLogic.Layout.Colour
import TupleLogic.NameSupply
import TupleLogic.Operator
import TupleLogic.Proofs.Accumulation
import TupleLogic.Proofs.Assertions
import TupleLogic.Proofs.Balance
import TupleLogic.Proofs.Binders
import TupleLogic.Proofs.BoundedAccess
import TupleLogic.Proofs.CallOperands
import TupleLogic.Proofs.ClosedScripts
import TupleLogic.Proofs.ColouredText
import TupleLogic.Proofs.Commands
import TupleLogic.Proofs.CommentedModels
import TupleLogic.Proofs.Comments
import TupleLogic.Proofs.CompiledScripts
import TupleLogic.Proofs.Conformance
import TupleLogic.Proofs.Correspondence
import TupleLogic.Proofs.CountPositions
import TupleLogic.Proofs.Declarations
import TupleLogic.Proofs.DisjointSignatures
import TupleLogic.Proofs.DrawnNames
import TupleLogic.Proofs.EncoderBinders
import TupleLogic.Proofs.EncoderState
import TupleLogic.Proofs.EncodingSteps
import TupleLogic.Proofs.Enumeration
import TupleLogic.Proofs.ExactCounting
import TupleLogic.Proofs.ExprEncoding
import TupleLogic.Proofs.FactEncoding
import TupleLogic.Proofs.FieldEncoding
import TupleLogic.Proofs.FieldTyping
import TupleLogic.Proofs.FormulaEncoding
import TupleLogic.Proofs.FreeVariables
import TupleLogic.Proofs.GroundedEncoding
import TupleLogic.Proofs.GroundedTerms
import TupleLogic.Proofs.Growth
import TupleLogic.Proofs.InferenceFailures
import TupleLogic.Proofs.Instance
import TupleLogic.Proofs.IntegerSoundness
import TupleLogic.Proofs.Interpretation
import TupleLogic.Proofs.LayoutTokens
import TupleLogic.Proofs.Legibility
import TupleLogic.Proofs.Lexing
import TupleLogic.Proofs.MeaningPreservation
import TupleLogic.Proofs.ModelBinders
import TupleLogic.Proofs.ModelEncoding
import TupleLogic.Proofs.ModelGrounding
import TupleLogic.Proofs.ModelSpellings
import TupleLogic.Proofs.ModelSteps
import TupleLogic.Proofs.NameIndependence
import TupleLogic.Proofs.Normalization
import TupleLogic.Proofs.OperatorSorts
import TupleLogic.Proofs.Persistence
import TupleLogic.Proofs.Printability
import TupleLogic.Proofs.QuantifierEncoding
import TupleLogic.Proofs.ReaderBinders
import TupleLogic.Proofs.ReaderErrors
import TupleLogic.Proofs.ReaderOutput
import TupleLogic.Proofs.Reading
import TupleLogic.Proofs.ReadingSteps
import TupleLogic.Proofs.Realization
import TupleLogic.Proofs.RelationEncoding
import TupleLogic.Proofs.ReportedCardinalities
import TupleLogic.Proofs.Representation
import TupleLogic.Proofs.Restriction
import TupleLogic.Proofs.Returns
import TupleLogic.Proofs.RoundTrip
import TupleLogic.Proofs.SExprTokens
import TupleLogic.Proofs.SameText
import TupleLogic.Proofs.Satisfaction
import TupleLogic.Proofs.ScriptForms
import TupleLogic.Proofs.ScriptReading
import TupleLogic.Proofs.SignatureEncoding
import TupleLogic.Proofs.SolverValues
import TupleLogic.Proofs.SortAgreement
import TupleLogic.Proofs.Specimens
import TupleLogic.Proofs.StrictSorts
import TupleLogic.Proofs.Structure
import TupleLogic.Proofs.SymbolSpelling
import TupleLogic.Proofs.TextStructure
import TupleLogic.Proofs.TokenContent
import TupleLogic.Proofs.TokenGrammar
import TupleLogic.Proofs.Tuples
import TupleLogic.Proofs.TypedFacts
import TupleLogic.Proofs.TypedFormulas
import TupleLogic.Proofs.TypedRelations
import TupleLogic.Proofs.Understanding
import TupleLogic.Proofs.Witnesses
import TupleLogic.Relational.Expr
import TupleLogic.Relational.Model
import TupleLogic.SExpr
import TupleLogic.SExpr.Token
import TupleLogic.Script
import TupleLogic.Script.Printer
import TupleLogic.Script.ReadError
import TupleLogic.Script.Reader
import TupleLogic.Settings
import TupleLogic.Settings.Load
import TupleLogic.SortInference
import TupleLogic.Symbol
import TupleLogic.Term
import TupleLogic.Term.Build
import TupleLogic.TermSort
import TupleLogic.Text.Blank
import TupleLogic.Text.Combining
import TupleLogic.Text.Decimal
import TupleLogic.Text.DisplayWidth
import TupleLogic.Text.Emoji
import TupleLogic.Text.Ignorable
import TupleLogic.Text.Ligature
import TupleLogic.Text.Quoted
import TupleLogic.Text.Ranges
import TupleLogic.Text.Unprintable
import TupleLogic.Text.Wide
import TupleLogic.Text.ZeroWidth
import TupleLogic.Toml.Datetime
import TupleLogic.Toml.Document
import TupleLogic.Toml.Number
import TupleLogic.Toml.Strings
import TupleLogic.Toml.Value
import TupleLogic.Proofs.SortCounts
