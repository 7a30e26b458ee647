import RhoFrontend.Assertion.Script
import RhoFrontend.Format
import RhoFrontend.Format.JsonDecoding
import RhoFrontend.Parser
import RhoFrontend.Proofs.JsonReading
import RhoFrontend.Proofs.JsonRoundTrip
import RhoFrontend.Proofs.LongestMatch
import RhoFrontend.Proofs.Parsing
import RhoFrontend.Proofs.Printing
import RhoFrontend.Proofs.Reprinting
import RhoFrontend.Settings
import RhoFrontend.Proofs.Lexing.Layout
import RhoFrontend.Proofs.SourceTiling
import RhoFrontend.Proofs.LineComments
import RhoFrontend.Proofs.Respacing
import RhoFrontend.Proofs.Lexing.Chunks
import RhoFrontend.Proofs.Composing
import RhoFrontend.Proofs.JsonRewriting
import RhoFrontend.Proofs.JsonObjects
import RhoFrontend.Proofs.ConstructionRuns
import RhoFrontend.Proofs.TagDump
import RhoFrontend.Proofs.LexicalErrors
import RhoFrontend.Proofs.BoxTree
import RhoFrontend.Proofs.SourceFaults
import RhoFrontend.Proofs.SettingsLayers
import RhoFrontend.Proofs.Concatenation
import RhoFrontend.Proofs.Preorder
import RhoFrontend.Proofs.FailingLine
import RhoFrontend.Proofs.Rebinding
import RhoFrontend.Proofs.Excerpts
import RhoFrontend.Proofs.DrawnLines
import RhoFrontend.Proofs.Grouping
import RhoFrontend.Proofs.ChainNesting
import RhoFrontend.Proofs.IntegerLiterals
import RhoFrontend.Proofs.JsonLayouts
import RhoFrontend.Proofs.CompleteScripts
import RhoFrontend.Proofs.FailureReports
