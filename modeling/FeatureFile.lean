import FeatureFile.Indent.LineBreak
import FeatureFile.Proofs.Token.Tiling
import FeatureFile.Reference.Cache
import FeatureFile.Token.Stream
import FeatureFile.Proofs.Outline.Growth
import FeatureFile.Proofs.Token.Stream
import FeatureFile.Proofs.Outline.Run
import FeatureFile.Proofs.Outline.Tree
import FeatureFile.Proofs.Outline.Arena
import FeatureFile.Proofs.Outline.Stored
import FeatureFile.Proofs.Outline.WellFormed
import FeatureFile.Proofs.Token.Grammar
import FeatureFile.Proofs.Outline.Nesting
import FeatureFile.Proofs.Outline.Faults
import FeatureFile.Proofs.Outline.Degradations
import FeatureFile.Proofs.Outline.Likeness
import FeatureFile.Proofs.Outline.Sight
import FeatureFile.Proofs.Token.Join
import FeatureFile.Proofs.Outline.Resync
import FeatureFile.Proofs.Token.Layout
import FeatureFile.Proofs.Outline.StepLine
import FeatureFile.Proofs.Outline.Frame
import FeatureFile.Proofs.Outline.Effective
import FeatureFile.Proofs.Outline.Plain
import FeatureFile.Proofs.Outline.Layout
import FeatureFile.Proofs.CharSet.Members
import FeatureFile.Proofs.Regex.Matches
import FeatureFile.Proofs.Regex.Program
import FeatureFile.Proofs.Regex.Search
import FeatureFile.Proofs.Regex.Reader
import FeatureFile.Proofs.Pattern.Words
import FeatureFile.Proofs.Pattern.Fragment
import FeatureFile.Proofs.Pattern.Source
import FeatureFile.Proofs.Pattern.Arguments
import FeatureFile.Proofs.Catalog.History
import FeatureFile.Proofs.Catalog.Ranking
import FeatureFile.Proofs.Reference.Requests
import FeatureFile.Proofs.Outline.Openers
import FeatureFile.Proofs.Token.DocString
import FeatureFile.Proofs.Outline.DocString
import FeatureFile.Proofs.Token.Classes
import FeatureFile.Proofs.Indent.Repeat
import FeatureFile.Proofs.Token.StepLine
import FeatureFile.Proofs.Outline.StepTree
import FeatureFile.Proofs.Text.Cuts
import FeatureFile.Proofs.Outline.StepText
import FeatureFile.Proofs.Outline.StepParameters
import FeatureFile.Proofs.Pattern.Rank
import FeatureFile.Proofs.Pattern.Anchors
import FeatureFile.Proofs.Outline.Table
import FeatureFile.Proofs.Pattern.Notation
import FeatureFile.Proofs.Regex.Rest
import FeatureFile.Proofs.Regex.Groups
import FeatureFile.Proofs.CharSet.Inert
import FeatureFile.Proofs.Regex.Quiet
import FeatureFile.Proofs.Pattern.Placeholders
import FeatureFile.Proofs.Indent.LastKeyword
import FeatureFile.Proofs.Indent.Answers
import FeatureFile.Proofs.Outline.Apart
import FeatureFile.Proofs.Outline.Edges
import FeatureFile.Proofs.Token.Locality
import FeatureFile.Proofs.Outline.StepsApart
import FeatureFile.Proofs.Token.Breaks
import FeatureFile.Proofs.Indent.Split
import FeatureFile.Proofs.Examples.Rows
import FeatureFile.Proofs.Text.Brackets
import FeatureFile.Proofs.Pattern.Grammar
import FeatureFile.Proofs.Pattern.Braces
import FeatureFile.Proofs.Token.Neighbours
import FeatureFile.Proofs.Token.Headed
import FeatureFile.Proofs.Token.Lexical
import FeatureFile.Proofs.Text.Octets
import FeatureFile.Proofs.Pattern.Offsets
import FeatureFile.Proofs.Pattern.Cursor
