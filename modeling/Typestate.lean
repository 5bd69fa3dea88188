import Typestate.Main
import Typestate.Proofs.SortedMap
import Typestate.Proofs.Run
import Typestate.Proofs.Numbering
import Typestate.Proofs.Graph.Drafting
import Typestate.Proofs.Graph.Mention
import Typestate.Proofs.Graph.EdgeMention
import Typestate.Proofs.Graph.Leaving
import Typestate.Proofs.Graph.MethodNames
import Typestate.Proofs.Graph.Building
import Typestate.Proofs.Graph.Contents
import Typestate.Proofs.Graph.Placing
import Typestate.Proofs.Code.Spans
import Typestate.Proofs.Graph.Reordering
import Typestate.Proofs.Identifier
import Typestate.Proofs.Token.Words
import Typestate.Proofs.Token.Written
import Typestate.Proofs.Grammar.Searching
import Typestate.Proofs.Grammar.Reading
import Typestate.Proofs.Grammar.Origin
import Typestate.Proofs.Grammar.Names
import Typestate.Proofs.Code.Accessors
import Typestate.Proofs.Code.Inherent
import Typestate.Proofs.Machine.Load
import Typestate.Proofs.Machine.Methods
import Typestate.Proofs.Graph.Names
import Typestate.Proofs.NodeName
import Typestate.Proofs.Digraph.Names
import Typestate.Proofs.Code.TypeNames
import Typestate.Proofs.Machine.TypeNames
import Typestate.Proofs.Token.Locality
import Typestate.Proofs.Token.Piece
import Typestate.Proofs.Grammar.Moving
import Typestate.Proofs.Grammar.Passing
import Typestate.Proofs.Grammar.Paths
import Typestate.Proofs.Grammar.Attributes
import Typestate.Proofs.Grammar.Arrows
import Typestate.Proofs.Grammar.Capture
import Typestate.Proofs.Machine.Compile
import Typestate.Proofs.Text.Squeeze
import Typestate.Proofs.Token.Fragment
import Typestate.Proofs.Token.Shape
import Typestate.Proofs.Token.Squeezing
import Typestate.Proofs.Token.Parting
import Typestate.Proofs.Grammar.Rereading
import Typestate.Proofs.Text.Fields
import Typestate.Proofs.Grammar.Spelling
import Typestate.Proofs.Grammar.Writing
import Typestate.Proofs.Grammar.RoundTrip
import Typestate.Proofs.Unicode
import Typestate.Proofs.Token.Place
import Typestate.Proofs.Token.Cover
import Typestate.Proofs.Code.Blocks
import Typestate.Proofs.Code.Parts
import Typestate.Proofs.Machine.Generate
import Typestate.Proofs.Machine.Agreement
import Typestate.Proofs.Comparison
import Typestate.Proofs.Machine.Decoration
import Typestate.Proofs.Machine.Trust
import Typestate.Proofs.Code.DocComments
import Typestate.Proofs.Graph.Blaming
import Typestate.Proofs.Source.Snippet
import Typestate.Proofs.Machine.Complaints
import Typestate.Proofs.Machine.CanonicalNames
import Typestate.Proofs.Graph.Restating
import Typestate.Proofs.Machine.Restating
import Typestate.Proofs.Token.Word
import Typestate.Proofs.Token.Behind
import Typestate.Proofs.Grammar.Options
import Typestate.Proofs.Grammar.Mirror
import Typestate.Proofs.Grammar.MirroredDocument
import Typestate.Proofs.Grammar.OptionLine
import Typestate.Proofs.Machine.Options
import Typestate.Proofs.Grammar.Trails
import Typestate.Proofs.Digraph.Reading
import Typestate.Proofs.Digraph.Trails
import Typestate.Proofs.Digraph.Listing
import Typestate.Proofs.Machine.Languages
import Typestate.Proofs.Graph.History
import Typestate.Proofs.Graph.Settling
import Typestate.Proofs.Grammar.TypeEnd
import Typestate.Proofs.Grammar.Groups
import Typestate.Proofs.Token.Nesting
import Typestate.Proofs.Grammar.Derivation
import Typestate.Proofs.Machine.Preamble
import Typestate.Proofs.Text.Brackets
import Typestate.Proofs.Token.Brackets
import Typestate.Proofs.Token.Plain
import Typestate.Proofs.Code.Parameters
import Typestate.Proofs.Grammar.Parameters
import Typestate.Proofs.Machine.Parameters
import Typestate.Proofs.Code.Padding
import Typestate.Proofs.Graph.Neighbors
import Typestate.Proofs.Graph.Drawing
import Typestate.Proofs.AsciiName
import Typestate.Proofs.MethodName
import Typestate.Proofs.Machine.Lifetimes
import Typestate.Proofs.Machine.LegalNames
import Typestate.Proofs.Token.Alone
import Typestate.Proofs.Token.Literal
import Typestate.Proofs.Grammar.Brackets
import Typestate.Proofs.Grammar.Header
import Typestate.Proofs.Grammar.Lookahead
import Typestate.Proofs.Digraph.NodeNames
import Typestate.Proofs.Digraph.Unquoted
import Typestate.Proofs.Digraph.Reference
import Typestate.Proofs.Digraph.Diagrams
import Typestate.Proofs.Machine.Redrawing
import Typestate.Proofs.Text.Rejoining
import Typestate.Proofs.Token.TypeParts
import Typestate.Proofs.Report.Console
import Typestate.Proofs.Report.Markup
import Typestate.Proofs.Report.Table
import Typestate.Proofs.Text.LineEnds
import Typestate.Proofs.Token.LineEnds
import Typestate.Proofs.Grammar.LineEnds
