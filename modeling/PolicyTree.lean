import PolicyTree.Proofs.Arena.Depot
import PolicyTree.Proofs.Tree.Blame
import PolicyTree.Proofs.Tree.Cloning
import PolicyTree.Proofs.Tree.Commute
import PolicyTree.Proofs.Tree.Indistinct
import PolicyTree.Proofs.Tree.Lookup
import PolicyTree.Proofs.Tree.PathTrees
import PolicyTree.Proofs.Tree.Refusal
import PolicyTree.Proofs.Tree.Erasure
import PolicyTree.Proofs.Forest.Rename
import PolicyTree.Proofs.Tree.Twins
import PolicyTree.Proofs.Tree.Concord
import PolicyTree.Proofs.Tree.Substitution
import PolicyTree.Proofs.Tree.Chronicle
import PolicyTree.Proofs.Tree.Insertion
import PolicyTree.Proofs.Tree.Rearrangement
import PolicyTree.Proofs.Tree.Overrun
import PolicyTree.Proofs.Tree.Descent
import PolicyTree.Proofs.Tree.Stepping
import PolicyTree.Proofs.Tree.Batches
import PolicyTree.Proofs.Tree.Transplant
import PolicyTree.Proofs.PathOrder
import PolicyTree.Proofs.Tree.Ancestry
import PolicyTree.Proofs.Tree.Rendering
import PolicyTree.Proofs.Tree.RoundTrip
import PolicyTree.Proofs.PathParents
import PolicyTree.Proofs.Arena.Peak
import PolicyTree.Proofs.Tree.BothEnds
import PolicyTree.Proofs.Tree.AuditSteps
