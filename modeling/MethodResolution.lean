import MethodResolution.Inquiry
import MethodResolution.Registry.Declaration
import MethodResolution.Proofs.Domination
import MethodResolution.Proofs.Locality
import MethodResolution.Proofs.Tracking
import MethodResolution.Proofs.Evaluation
import MethodResolution.Proofs.Memo
import MethodResolution.Proofs.Transparency
import MethodResolution.Proofs.Verdict
import MethodResolution.Proofs.TwoTiers
import MethodResolution.Proofs.MemberPriority
import MethodResolution.Proofs.NamespaceUpdate
import MethodResolution.Proofs.Visibility
import MethodResolution.Proofs.Admission
import MethodResolution.Proofs.Reordering
import MethodResolution.Proofs.KeptAnswers
import MethodResolution.Proofs.Refinement
import MethodResolution.Proofs.ConstSafety
import MethodResolution.Proofs.Inheritance
import MethodResolution.Proofs.FunctionTable
import MethodResolution.Proofs.MemberIndex
import MethodResolution.Proofs.MemberRequirements
import MethodResolution.Proofs.Nesting
import MethodResolution.Proofs.BoundCalls
import MethodResolution.Proofs.Defaults
import MethodResolution.Proofs.BodySafety
import MethodResolution.Proofs.SightOrder
import MethodResolution.Proofs.NewFunction
import MethodResolution.Proofs.BlindSelection
import MethodResolution.Proofs.Designation
import MethodResolution.Proofs.Deletion
import MethodResolution.Proofs.Ranking
import MethodResolution.Proofs.NamespaceLookup
import MethodResolution.Proofs.Persistence
import MethodResolution.Proofs.Atomicity
import MethodResolution.Proofs.Flattening
import MethodResolution.Proofs.Subsumption
import MethodResolution.Proofs.Minima
import MethodResolution.Proofs.MemberRanking
import MethodResolution.Proofs.TieReport
import MethodResolution.Proofs.BodyCheck
import MethodResolution.Proofs.ConstrainedBinding
import MethodResolution.Proofs.Placeholders
import MethodResolution.Proofs.ReceiverSplit
import MethodResolution.Proofs.TrailingDefaults
import MethodResolution.Proofs.BindingOrder
import MethodResolution.Proofs.OverloadKeys
import MethodResolution.Proofs.NamespacePaths
import MethodResolution.Proofs.NamesInWriting
