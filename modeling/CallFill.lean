import CallFill.Binding.Scope
import CallFill.Document
import CallFill.Failure
import CallFill.Grammar.Expressions
import CallFill.Grammar.Source
import CallFill.Grammar.Statements
import CallFill.Grammar.Step
import CallFill.Grammar.Types
import CallFill.Host.Basic
import CallFill.Host.Scripted
import CallFill.Json.Reader
import CallFill.Json.Value
import CallFill.Json.Writer
import CallFill.Lexical.Lexeme
import CallFill.Lexical.Tokens
import CallFill.Lexical.Trivia
import CallFill.Offer.Candidate
import CallFill.Offer.Request
import CallFill.Offer.Rewrite
import CallFill.Offer.Summary
import CallFill.Session.Basic
import CallFill.Session.Bench
import CallFill.Settings.Basic
import CallFill.Settings.File
import CallFill.Symbol.Method
import CallFill.Symbol.Type
import CallFill.Text.Basic
import CallFill.Text.Position
import CallFill.Text.Quoted
import CallFill.Text.Span
import CallFill.Toml.Numbers
import CallFill.Toml.Reader
import CallFill.Toml.Strings
import CallFill.Toml.Value
import CallFill.Tree.Basic
import CallFill.Tree.Build
import CallFill.Tree.Edit
import CallFill.Tree.Kind
import CallFill.Tree.Labelled
import CallFill.Tree.Outline
import CallFill.Tree.Place
import CallFill.Tree.Role
import CallFill.Tree.Selection
import CallFill.Tree.Token
import CallFill.Wire.Settings
import CallFill.Wire.Summary
import CallFill.Wire.Symbols
import CallFill.Proofs.Arrangement
import CallFill.Proofs.Trailing
import CallFill.Proofs.Soundness
import CallFill.Proofs.Lossless
import CallFill.Proofs.Shape
import CallFill.Proofs.Completeness
import CallFill.Proofs.Rereading
import CallFill.Proofs.TokenText
import CallFill.Proofs.Cutting
import CallFill.Proofs.Dividers
import CallFill.Proofs.Derivation
import CallFill.Proofs.Acceptance
import CallFill.Proofs.Around
import CallFill.Proofs.Settling
import CallFill.Proofs.LineFeed
import CallFill.Proofs.TypeNames
import CallFill.Proofs.Generated
import CallFill.Proofs.Rewriting
import CallFill.Proofs.Splice
import CallFill.Proofs.Neighbours
import CallFill.Proofs.Spans
import CallFill.Proofs.Selecting
import CallFill.Proofs.Roles
import CallFill.Proofs.Candidates
import CallFill.Proofs.OuterTrivia
import CallFill.Proofs.Parentheses
import CallFill.Proofs.QualifiedNames
import CallFill.Proofs.Declarations
import CallFill.Proofs.Serving
import CallFill.Proofs.Offering
import CallFill.Proofs.Recording
import CallFill.Proofs.Positions
import CallFill.Proofs.Applying
import CallFill.Proofs.TypeGrammar
import CallFill.Proofs.OperandText
import CallFill.Proofs.Respelling
import CallFill.Proofs.Spacing
import CallFill.Proofs.LongestPrefix
import CallFill.Proofs.SoleExpression
import CallFill.Proofs.Replacing
import CallFill.Proofs.Innermost
import CallFill.Proofs.FilledCalls
import CallFill.Proofs.Following
import CallFill.Proofs.LinesAndColumns
import CallFill.Proofs.ClampedPositions
import CallFill.Proofs.Resolving
import CallFill.Proofs.Wrapping
import CallFill.Proofs.Spellings
import CallFill.Proofs.Labels
import CallFill.Proofs.InnerText
import CallFill.Proofs.TriviaOwnership
import CallFill.Proofs.JsonText
import CallFill.Proofs.RoundTrip
import CallFill.Proofs.LastToken
