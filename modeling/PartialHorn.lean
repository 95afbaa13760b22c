import PartialHorn.Call
import PartialHorn.Consistency
import PartialHorn.Layout
import PartialHorn.Proofs.Partition
import PartialHorn.Proofs.OperationRows
import PartialHorn.Proofs.PredicateLog
import PartialHorn.Proofs.Truth
import PartialHorn.Proofs.Validity
import PartialHorn.Proofs.Checking
import PartialHorn.Proofs.Growth
import PartialHorn.Proofs.Renewal
import PartialHorn.Proofs.Lookups
import PartialHorn.Proofs.PartitionStores
import PartialHorn.Proofs.Runs
import PartialHorn.Proofs.Enlargement
import PartialHorn.Proofs.Recording
import PartialHorn.Proofs.Safety
import PartialHorn.Proofs.Compilation
import PartialHorn.Proofs.Satisfaction
import PartialHorn.Proofs.Matching
import PartialHorn.Proofs.Solutions
import PartialHorn.Proofs.Matches
import PartialHorn.Proofs.Readings
import PartialHorn.Proofs.Conclusion
import PartialHorn.Proofs.Saturation
import PartialHorn.Proofs.ChaseModel
import PartialHorn.Proofs.Stability
import PartialHorn.Proofs.Freeness
import PartialHorn.Proofs.Universality
import PartialHorn.Proofs.Confluence
import PartialHorn.Proofs.TypedFiring
import PartialHorn.Proofs.Skipping
import PartialHorn.Proofs.Termination
import PartialHorn.Proofs.CongruenceClosure
import PartialHorn.Proofs.Answers
import PartialHorn.Proofs.Permanence
import PartialHorn.Proofs.Declarations
import PartialHorn.Proofs.Representation
import PartialHorn.Proofs.Scripts
import PartialHorn.Proofs.Presentation
import PartialHorn.Proofs.Increments
import PartialHorn.Proofs.Sorting
import PartialHorn.Proofs.Reordering
import PartialHorn.Proofs.Lockstep
import PartialHorn.Proofs.Dealing
import PartialHorn.Proofs.Doubles
import PartialHorn.Proofs.Tracking
import PartialHorn.Proofs.Mirroring
import PartialHorn.Proofs.Recollection
import PartialHorn.Proofs.ListingOrder
import PartialHorn.Proofs.Rebuilding
import PartialHorn.Proofs.Reports
import PartialHorn.Proofs.Budgets
import PartialHorn.Proofs.Enumeration
import PartialHorn.Proofs.Forest
import PartialHorn.Proofs.PartitionCalls
import PartialHorn.Proofs.ForestEquality
import PartialHorn.Proofs.Quiescence
import PartialHorn.Proofs.Contract
import PartialHorn.Proofs.Synonyms
import PartialHorn.Proofs.UnionFinds
import PartialHorn.Proofs.Acceptance
import PartialHorn.Proofs.Drawing
import PartialHorn.Proofs.Refiring
import PartialHorn.Proofs.Classification
import PartialHorn.Proofs.NameResolution
import PartialHorn.Proofs.Printing
import PartialHorn.Proofs.Trails
import PartialHorn.Proofs.Edits
import PartialHorn.Proofs.PartialMaps
import PartialHorn.Proofs.Extents
import PartialHorn.Proofs.Stores
import PartialHorn.Proofs.Namespaces
import PartialHorn.Proofs.IndexedSignature
