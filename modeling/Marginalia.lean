import Marginalia.Json.Reader
import Marginalia.Main
import Marginalia.Proofs.Comment.Edges
import Marginalia.Proofs.Text.Trim
import Marginalia.Proofs.Comment.Tags
import Marginalia.Proofs.Comment.Lines
import Marginalia.Proofs.Comment.LineEnds
import Marginalia.Proofs.Comment.Respelling
import Marginalia.Proofs.Comment.Margin
import Marginalia.Proofs.Comment.WellFormed
import Marginalia.Proofs.Comment.TagOptions
import Marginalia.Proofs.Comment.Trimming
import Marginalia.Proofs.Comment.Rereading
import Marginalia.Proofs.Source.Lexemes
import Marginalia.Proofs.Source.Scan
import Marginalia.Proofs.Source.Places
import Marginalia.Proofs.Source.Walk
import Marginalia.Proofs.Source.CommentScript
import Marginalia.Proofs.Comment.DocBlock
import Marginalia.Proofs.Json.ReadBack
import Marginalia.Proofs.Comment.Encoding
import Marginalia.Proofs.Report.ReadBack
import Marginalia.Proofs.Report.TextLayout
import Marginalia.Proofs.Report.LineCount
import Marginalia.Proofs.Language.Registry
import Marginalia.Proofs.Language.History
import Marginalia.Proofs.Path.Join
import Marginalia.Proofs.Path.Relative
import Marginalia.Proofs.Path.Order
import Marginalia.Proofs.FileTree.Reach
import Marginalia.Proofs.Extract.Collection
import Marginalia.Proofs.FileTree.Ways
import Marginalia.Proofs.FileTree.Trail
import Marginalia.Proofs.Extract.DefaultRoot
import Marginalia.Proofs.Extract.Output
import Marginalia.Proofs.Extract.Isolation
import Marginalia.Proofs.Extract.StandardInput
import Marginalia.Proofs.Extract.Labels
import Marginalia.Proofs.CommandLine.Reading
import Marginalia.Proofs.CommandLine.Precedence
