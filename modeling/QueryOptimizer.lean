import QueryOptimizer.Config.Loading
import QueryOptimizer.Implementation.Unmet
import QueryOptimizer.Optimizer
import QueryOptimizer.Plan.Builder
import QueryOptimizer.Plan.Explain
import QueryOptimizer.Plan.Isomorphism
import QueryOptimizer.Plan.Tree
import QueryOptimizer.Proofs.Batch.Assignment
import QueryOptimizer.Proofs.Batch.Coherence
import QueryOptimizer.Proofs.Batch.Freshness
import QueryOptimizer.Proofs.Batch.Pruning
import QueryOptimizer.Proofs.Batch.Reassignment
import QueryOptimizer.Proofs.Batch.RoundTrip
import QueryOptimizer.Proofs.Batch.Stability
import QueryOptimizer.Proofs.Derivation.Bounded
import QueryOptimizer.Proofs.Derivation.Described
import QueryOptimizer.Proofs.Derivation.Environments
import QueryOptimizer.Proofs.Expr.Substitution
import QueryOptimizer.Proofs.Facts.Closure
import QueryOptimizer.Proofs.Facts.Generated
import QueryOptimizer.Proofs.Facts.Represented
import QueryOptimizer.Proofs.Implementation.Enforcers
import QueryOptimizer.Proofs.Layout.Arrangement
import QueryOptimizer.Proofs.Layout.Colocation
import QueryOptimizer.Proofs.Layout.Matching
import QueryOptimizer.Proofs.Layout.NormalForm
import QueryOptimizer.Proofs.Layout.Partitions
import QueryOptimizer.Proofs.Layout.Satisfaction
import QueryOptimizer.Proofs.Layout.Sorting
import QueryOptimizer.Proofs.Physical.Truth
import QueryOptimizer.Proofs.Plan.Coherence
import QueryOptimizer.Proofs.Plan.Isomorphism
import QueryOptimizer.Proofs.Plan.Outline
import QueryOptimizer.Proofs.Plan.Padding
import QueryOptimizer.Proofs.Relational.Cardinality
import QueryOptimizer.Proofs.Relational.Consolidation
import QueryOptimizer.Proofs.Relational.Derivation
import QueryOptimizer.Proofs.Relational.Implication
import QueryOptimizer.Proofs.Relational.Inlined
import QueryOptimizer.Proofs.Relational.LimitRules
import QueryOptimizer.Proofs.Relational.OuterJoin
import QueryOptimizer.Proofs.Relational.Scope
import QueryOptimizer.Proofs.Relational.SelectRules
