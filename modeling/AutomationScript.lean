import AutomationScript.Main
import AutomationScript.Proofs.Document.ConditionText
import AutomationScript.Proofs.Document.RuleMeaning
import AutomationScript.Proofs.Document.TriggerChains
import AutomationScript.Proofs.Document.WellTyped
import AutomationScript.Proofs.Grammar.LineLocality
import AutomationScript.Proofs.Grammar.NestedDefinitions
import AutomationScript.Proofs.Grammar.Progress
import AutomationScript.Proofs.Lowering.DefinitionOrder
import AutomationScript.Proofs.Lowering.NestedLists
import AutomationScript.Proofs.Lowering.TypeAgreement
import AutomationScript.Proofs.Pipeline.Concatenation
import AutomationScript.Proofs.Pipeline.Diagnostics
import AutomationScript.Proofs.Pipeline.EarlyBlocks
import AutomationScript.Proofs.Pipeline.Idempotence
import AutomationScript.Proofs.Pipeline.Inlined
import AutomationScript.Proofs.Pipeline.LineEndings
import AutomationScript.Proofs.Pipeline.PairedBlocks
import AutomationScript.Proofs.Pipeline.SeveralKeys
import AutomationScript.Proofs.Pipeline.Untouched
import AutomationScript.Proofs.Program.Provenance
import AutomationScript.Proofs.Registry.RoundTrip
import AutomationScript.Proofs.Settings.RoundTrip
import AutomationScript.Proofs.Term.Grouping
import AutomationScript.Proofs.Term.Legible
import AutomationScript.Proofs.Token.Separation
