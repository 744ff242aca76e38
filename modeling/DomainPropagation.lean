import DomainPropagation.Constraint
import DomainPropagation.Store.Request
import DomainPropagation.Proofs.Confluence
import DomainPropagation.Proofs.Fixpoint
import DomainPropagation.Proofs.Restoring
import DomainPropagation.Proofs.Solutions
import DomainPropagation.Proofs.Certainty
import DomainPropagation.Proofs.Entailing
import DomainPropagation.Proofs.Bookkeeping
import DomainPropagation.Proofs.Leaves
import DomainPropagation.Proofs.Retention
import DomainPropagation.Proofs.Exactness
import DomainPropagation.Proofs.Termination
import DomainPropagation.Proofs.Operations
import DomainPropagation.Proofs.Waking
import DomainPropagation.Proofs.Atomicity
import DomainPropagation.Proofs.Outcomes
import DomainPropagation.Proofs.Supports
import DomainPropagation.Proofs.Repetition
import DomainPropagation.Proofs.Monotonicity
import DomainPropagation.Proofs.Reification
import DomainPropagation.Proofs.Consistency
import DomainPropagation.Proofs.Satisfaction
import DomainPropagation.Proofs.Waiting
import DomainPropagation.Proofs.Changes
import DomainPropagation.Proofs.Guards
import DomainPropagation.Proofs.Conflicts
import DomainPropagation.Proofs.Layers
import DomainPropagation.Proofs.Subscriptions
import DomainPropagation.Proofs.Sparse
import DomainPropagation.Proofs.Weighing
import DomainPropagation.Proofs.Occurrences
