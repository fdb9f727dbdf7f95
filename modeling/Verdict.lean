import Verdict.Proofs.CacheRuns
import Verdict.Proofs.Words
import Verdict.Proofs.WrittenRules
import Verdict.Proofs.SingleConditions
import Verdict.Proofs.CacheContents
import Verdict.Options.Json
import Verdict.Proofs.RuleReading
import Verdict.Proofs.RuleVerdict
import Verdict.Proofs.TreeDocuments
import Verdict.Record.Json
import Verdict.Value.Json
import Verdict.Proofs.Conjunctions
import Verdict.Proofs.Rearrangement
import Verdict.Proofs.Modes
import Verdict.Proofs.AcceptedTexts
import Verdict.Proofs.Configurations
import Verdict.Proofs.TreeReading
import Verdict.Proofs.NormalForms
import Verdict.Proofs.CombinedRules
import Verdict.Proofs.Validation
import Verdict.Proofs.NamedFields
import Verdict.Proofs.ConditionGrammar
import Verdict.Proofs.MatchedTexts
import Verdict.Proofs.DisplayedTrees
import Verdict.Proofs.LeafBlanks
import Verdict.Proofs.TreeLayouts
import Verdict.Proofs.RecordReading
import Verdict.Proofs.NumberRange
import Verdict.Proofs.NestedSegments
import Verdict.Proofs.OpenContainers
import Verdict.Proofs.OptionLayouts
