import QueryAlgebra.Cache
import QueryAlgebra.Mapping
import QueryAlgebra.Proofs.AggregateEqualities
import QueryAlgebra.Proofs.Checking
import QueryAlgebra.Proofs.Composition
import QueryAlgebra.Proofs.Convergence
import QueryAlgebra.Proofs.Descent
import QueryAlgebra.Proofs.DistinctRows
import QueryAlgebra.Proofs.Lifting.Definitions
import QueryAlgebra.Proofs.Lifting.InnerJoin
import QueryAlgebra.Proofs.Lifting.LeftJoin
import QueryAlgebra.Proofs.Naming
import QueryAlgebra.Proofs.NormalForms
import QueryAlgebra.Proofs.Normalization
import QueryAlgebra.Proofs.NullableGroups
import QueryAlgebra.Proofs.Pushdown.Aggregate
import QueryAlgebra.Proofs.Pushdown.LeftJoin
import QueryAlgebra.Proofs.Pushdown.Windows
import QueryAlgebra.Proofs.SchemaDocuments
import QueryAlgebra.Proofs.SelfJoin
import QueryAlgebra.Proofs.Stability
import QueryAlgebra.Proofs.Unification
import QueryAlgebra.Proofs.Uniqueness
import QueryAlgebra.Proofs.WindowTowers
import QueryAlgebra.Tree.Lift
import QueryAlgebra.Tree.Replace
