import Antecedent.Compile
import Antecedent.Double.Decimal
import Antecedent.Lhs.Interning
import Antecedent.Lhs.Step
import Antecedent.Lhs.Table
import Antecedent.Test.Printer
import Antecedent.Proofs.Notes
import Antecedent.Proofs.Visits
import Antecedent.Proofs.NegatedGroups
import Antecedent.Proofs.JoinReads
import Antecedent.Proofs.Meaning
import Antecedent.Proofs.NodeNotes
import Antecedent.Proofs.FieldMeaning
import Antecedent.Proofs.Preservation
import Antecedent.Proofs.Binders
import Antecedent.Proofs.Visibility
import Antecedent.Proofs.StageSides
import Antecedent.Proofs.Contributions
import Antecedent.Proofs.ConstantLookups
import Antecedent.Proofs.NegationBoundary
import Antecedent.Proofs.Faults
import Antecedent.Proofs.Mentions
import Antecedent.Proofs.LexicalScope
import Antecedent.Proofs.NodeLinks
import Antecedent.Proofs.TableReading
import Antecedent.Proofs.ScopePlaces
import Antecedent.Proofs.TableNotes
import Antecedent.Proofs.Recompilation
import Antecedent.Proofs.Relaxation
import Antecedent.Proofs.OptionFilter
import Antecedent.Proofs.Ahead
import Antecedent.Proofs.BindingDiscipline
import Antecedent.Proofs.KindMixing
import Antecedent.Proofs.FinalRestrictions
import Antecedent.Proofs.Extension
import Antecedent.Proofs.Beginnings
import Antecedent.Proofs.Regeneration
import Antecedent.Proofs.Roots
import Antecedent.Proofs.Addresses
import Antecedent.Proofs.Meets
import Antecedent.Proofs.MeetLaws
import Antecedent.Proofs.Entries
import Antecedent.Proofs.Narrowing
import Antecedent.Proofs.Renaming
import Antecedent.Proofs.RenamedScopes
import Antecedent.Proofs.RenamedTests
import Antecedent.Proofs.RenamedCompilation
import Antecedent.Proofs.Collapsing
import Antecedent.Proofs.HashPairs
import Antecedent.Proofs.NodeTree
import Antecedent.Proofs.Propagation
import Antecedent.Proofs.PropagationReach
import Antecedent.Proofs.Spelling
import Antecedent.Proofs.ReadingBack
import Antecedent.Proofs.NegationDepths
import Antecedent.Proofs.ArgumentDemands
import Antecedent.Proofs.TableDemands
import Antecedent.Proofs.TableCollapse
import Antecedent.Proofs.TableCompiler
import Antecedent.Proofs.TableFields
import Antecedent.Proofs.TableCompilation
import Antecedent.Proofs.Locations
