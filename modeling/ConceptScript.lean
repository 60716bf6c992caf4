import ConceptScript.Text.Lines
import ConceptScript.Text.Letter
import ConceptScript.Text.Blank
import ConceptScript.Text.Lowercase
import ConceptScript.Files.FilePath
import ConceptScript.Script.Lexeme
import ConceptScript.Script.TokenStream
import ConceptScript.Script.Reader
import ConceptScript.Model.Declaration
import ConceptScript.Model.Signature
import ConceptScript.Model.Nesting
import ConceptScript.Script.Interpretation
import ConceptScript.Script.Parse
import ConceptScript.Model.Format
import ConceptScript.Script.StoredTexts
import ConceptScript.Cursor.Analysis
import ConceptScript.Assist.Completion
import ConceptScript.Assist.Hover
import ConceptScript.Assist.SignatureHelp
import ConceptScript.Project.Directive
import ConceptScript.Project.Provider
import ConceptScript.Workspace.Publisher
import ConceptScript.Workspace.PeriodicTask
import ConceptScript.Proofs.Text.LineOf
import ConceptScript.Proofs.Text.RoundTrip
import ConceptScript.Proofs.Text.Boundaries
import ConceptScript.Proofs.Cursor.TextRead
import ConceptScript.Proofs.Files.Places
import ConceptScript.Proofs.Project.Install
import ConceptScript.Proofs.Project.ModelFile
import ConceptScript.Proofs.Project.Directive
import ConceptScript.Proofs.Workspace.Run
import ConceptScript.Proofs.Workspace.Coherence
import ConceptScript.Proofs.Workspace.Changes
import ConceptScript.Proofs.Workspace.Session
import ConceptScript.Proofs.Workspace.Publishing
import ConceptScript.Proofs.Model.KeyDepth
import ConceptScript.Proofs.Model.KeyCircle
import ConceptScript.Proofs.Model.KeySearch
import ConceptScript.Proofs.Model.Nesting
import ConceptScript.Proofs.Model.NestedKeywords
import ConceptScript.Proofs.Model.Signature
import ConceptScript.Proofs.Script.Reads
import ConceptScript.Proofs.Script.Grammar
import ConceptScript.Proofs.Script.Recognize
import ConceptScript.Proofs.Script.Derivation
import ConceptScript.Proofs.Script.Marks
import ConceptScript.Proofs.Cursor.Keyword
import ConceptScript.Proofs.Script.LexCut
import ConceptScript.Proofs.Script.StreamCut
import ConceptScript.Proofs.Script.LongestMatch
import ConceptScript.Proofs.Script.Quoting
import ConceptScript.Proofs.Script.Tiling
import ConceptScript.Proofs.Script.LexemeEnds
import ConceptScript.Proofs.Script.LexPrefix
import ConceptScript.Proofs.Script.Parting
import ConceptScript.Proofs.Script.PartingHead
import ConceptScript.Proofs.Cursor.Late
import ConceptScript.Proofs.Cursor.Attempts
import ConceptScript.Proofs.Cursor.Truncation
import ConceptScript.Proofs.Cursor.Context
import ConceptScript.Proofs.Script.Typing
import ConceptScript.Proofs.Script.NestedMember
import ConceptScript.Proofs.Script.ListedValues
import ConceptScript.Proofs.Script.WrittenForm
import ConceptScript.Proofs.Script.AsShown
import ConceptScript.Proofs.Script.KeywordCase
import ConceptScript.Proofs.Script.ReferenceDepth
import ConceptScript.Proofs.Script.KeyLayout
import ConceptScript.Proofs.Script.Upheld
import ConceptScript.Proofs.Script.InModel
import ConceptScript.Proofs.Script.Extension
import ConceptScript.Proofs.Model.Loading
import ConceptScript.Proofs.Cursor.LineEnds
import ConceptScript.Proofs.Cursor.Comments
import ConceptScript.Proofs.Cursor.LaterLines
import ConceptScript.Proofs.Cursor.ErrorSpans
import ConceptScript.Proofs.Cursor.Findings
import ConceptScript.Proofs.Workspace.Interleaving
import ConceptScript.Proofs.Workspace.Overtaking
import ConceptScript.Proofs.Script.AnyOrder
import ConceptScript.Proofs.Script.Contents
import ConceptScript.Proofs.Script.Layout
import ConceptScript.Proofs.Script.AttemptReach
import ConceptScript.Proofs.Script.ViablePrefix
import ConceptScript.Proofs.Cursor.PossibleTypes
import ConceptScript.Proofs.Cursor.ActiveParameter
import ConceptScript.Proofs.Assist.SignatureHelp
import ConceptScript.Proofs.Assist.Hover
import ConceptScript.Proofs.Project.Refreshing
