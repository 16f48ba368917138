import PhraseGrammar.Artifact.Basic
import PhraseGrammar.Artifact.Decoder
import PhraseGrammar.Artifact.Encoder
import PhraseGrammar.Artifact.Names
import PhraseGrammar.Audit.Basic
import PhraseGrammar.Audit.Productive
import PhraseGrammar.Audit.Reach
import PhraseGrammar.Audit.Unused
import PhraseGrammar.Category
import PhraseGrammar.Cost.Basic
import PhraseGrammar.Cost.Exact
import PhraseGrammar.Cost.Float
import PhraseGrammar.Decimal.Binary
import PhraseGrammar.Decimal.Layout
import PhraseGrammar.Decimal.Numeral
import PhraseGrammar.Decimal.Scaling
import PhraseGrammar.Decimal.Shortest
import PhraseGrammar.Derivation.Basic
import PhraseGrammar.Derivation.Elision
import PhraseGrammar.Derivation.Fillers
import PhraseGrammar.Derivation.Transposition
import PhraseGrammar.Derivation.Vanishing
import PhraseGrammar.Disk.Basic
import PhraseGrammar.Disk.Route
import PhraseGrammar.Fault
import PhraseGrammar.Grammar.Basic
import PhraseGrammar.Grammar.Build
import PhraseGrammar.Grammar.Listing
import PhraseGrammar.Json.Basic
import PhraseGrammar.Json.Parser
import PhraseGrammar.Json.Printer
import PhraseGrammar.Json.Strings
import PhraseGrammar.Meaning.Basic
import PhraseGrammar.Meaning.Signature
import PhraseGrammar.Proofs.Accounting
import PhraseGrammar.Proofs.ArtifactDocuments
import PhraseGrammar.Proofs.Auditing
import PhraseGrammar.Proofs.AuthoringOrder
import PhraseGrammar.Proofs.BestOffers
import PhraseGrammar.Proofs.Building
import PhraseGrammar.Proofs.CanonicalMeanings
import PhraseGrammar.Proofs.Charges
import PhraseGrammar.Proofs.Choosing
import PhraseGrammar.Proofs.ClosedArtifacts
import PhraseGrammar.Proofs.Collapsing
import PhraseGrammar.Proofs.CompleteInsertion
import PhraseGrammar.Proofs.ComposedNames
import PhraseGrammar.Proofs.Concepts
import PhraseGrammar.Proofs.Consistency
import PhraseGrammar.Proofs.Contributions
import PhraseGrammar.Proofs.Counterparts
import PhraseGrammar.Proofs.DerivationTrees
import PhraseGrammar.Proofs.DerivedMeanings
import PhraseGrammar.Proofs.Electing
import PhraseGrammar.Proofs.Elisions
import PhraseGrammar.Proofs.FillerDerivations
import PhraseGrammar.Proofs.Findings
import PhraseGrammar.Proofs.FixedFillers
import PhraseGrammar.Proofs.Idempotence
import PhraseGrammar.Proofs.Inheritance
import PhraseGrammar.Proofs.Items
import PhraseGrammar.Proofs.JsonTexts
import PhraseGrammar.Proofs.LeastFillers
import PhraseGrammar.Proofs.LeastOffers
import PhraseGrammar.Proofs.ListedTables
import PhraseGrammar.Proofs.LostUses
import PhraseGrammar.Proofs.MatchCosts
import PhraseGrammar.Proofs.Matching
import PhraseGrammar.Proofs.Mirroring
import PhraseGrammar.Proofs.NamedRules
import PhraseGrammar.Proofs.NormalForms
import PhraseGrammar.Proofs.Orders
import PhraseGrammar.Proofs.Placeholders
import PhraseGrammar.Proofs.Producing
import PhraseGrammar.Proofs.Provenance
import PhraseGrammar.Proofs.Publishing
import PhraseGrammar.Proofs.Reaching
import PhraseGrammar.Proofs.ReadRules
import PhraseGrammar.Proofs.Recovering
import PhraseGrammar.Proofs.Renaming
import PhraseGrammar.Proofs.Replacing
import PhraseGrammar.Proofs.Reporting
import PhraseGrammar.Proofs.Rewriting
import PhraseGrammar.Proofs.RoundedNumbers
import PhraseGrammar.Proofs.Runs
import PhraseGrammar.Proofs.Saturation
import PhraseGrammar.Proofs.Settling
import PhraseGrammar.Proofs.Splicing
import PhraseGrammar.Proofs.Spreading
import PhraseGrammar.Proofs.Synthesis
import PhraseGrammar.Proofs.Transposing
import PhraseGrammar.Proofs.Validation
import PhraseGrammar.Proofs.WellFormedItems
import PhraseGrammar.Proofs.WordItems
import PhraseGrammar.Proofs.WrittenCosts
import PhraseGrammar.Proofs.WrittenNumerals
import PhraseGrammar.Proofs.WrittenRules
import PhraseGrammar.Publication
import PhraseGrammar.Rule.Basic
import PhraseGrammar.Rule.Order
import PhraseGrammar.Symbol
import PhraseGrammar.SymbolSet
import PhraseGrammar.Table
import PhraseGrammar.Text.Blank
import PhraseGrammar.Text.CodePoints
import PhraseGrammar.Text.Extender
import PhraseGrammar.Text.Quoted
import PhraseGrammar.Text.Unseen
import PhraseGrammar.Vocabulary
import PhraseGrammar.Wording
