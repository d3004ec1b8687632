import Gherkin.Assembly.Basic
import Gherkin.Assembly.Conclusion
import Gherkin.Assembly.Frame
import Gherkin.Assembly.Journal
import Gherkin.Assembly.OfForest
import Gherkin.Assembly.Value
import Gherkin.Document.Basic
import Gherkin.Document.Node
import Gherkin.Document.OfToken
import Gherkin.Document.Table
import Gherkin.Document.Tree
import Gherkin.Document.WellFormed
import Gherkin.Event.Basic
import Gherkin.Event.Handler
import Gherkin.Event.Transcript
import Gherkin.Event.Tree
import Gherkin.Fault
import Gherkin.Grammar.Rule
import Gherkin.Grammar.Slot
import Gherkin.Grammar.TokenKind
import Gherkin.Location
import Gherkin.Multimap
import Gherkin.OrderedMap
import Gherkin.Proofs.Forest
import Gherkin.Proofs.Lines
import Gherkin.Proofs.Outcome
import Gherkin.Proofs.Reachable
import Gherkin.Proofs.Runs
import Gherkin.Proofs.Soundness
import Gherkin.Text.Lines
import Gherkin.Token
import Gherkin.Proofs.Nested
import Gherkin.Proofs.Refusals
import Gherkin.Proofs.Nesting
import Gherkin.Proofs.Acceptance
import Gherkin.Proofs.Readings
import Gherkin.Proofs.RoundTrip
import Gherkin.Proofs.Calls
import Gherkin.Proofs.Shapes
import Gherkin.Proofs.Documents
import Gherkin.Proofs.Excursions
import Gherkin.Proofs.Conclusions
import Gherkin.Proofs.Leaves
import Gherkin.Proofs.Trails
import Gherkin.Proofs.Agreement
import Gherkin.Proofs.AgreedReadings
import Gherkin.Proofs.SideBySide
import Gherkin.Proofs.WithoutComments
import Gherkin.Proofs.Siblings
import Gherkin.Proofs.Protocol
import Gherkin.Proofs.Sessions
import Gherkin.Proofs.Isolation
import Gherkin.Proofs.OpenRules
import Gherkin.Proofs.Journals
import Gherkin.Proofs.LineContent
import Gherkin.Proofs.KeptLines
import Gherkin.Proofs.Makeup
import Gherkin.Proofs.Composition
import Gherkin.Proofs.Features
import Gherkin.Proofs.ScenarioBlocks
import Gherkin.Proofs.TableRows
import Gherkin.Proofs.Descriptions
import Gherkin.Proofs.DocStrings
import Gherkin.Proofs.Tags
import Gherkin.Proofs.Messages
import Gherkin.Proofs.Queues
