import HindleyMilner.Type.Basic
import HindleyMilner.Type.Scheme
import HindleyMilner.Type.Printer
import HindleyMilner.Error
import HindleyMilner.SortedMap
import HindleyMilner.Subst.Basic
import HindleyMilner.Unify.Measure
import HindleyMilner.Unify.Basic
import HindleyMilner.Subst.Compose
import HindleyMilner.Syntax.Pattern
import HindleyMilner.Syntax.Expr
import HindleyMilner.Syntax.Decl
import HindleyMilner.Env
import HindleyMilner.Infer.Monad
import HindleyMilner.Infer.Pattern
import HindleyMilner.Infer.Expr
import HindleyMilner.Infer.Program
import HindleyMilner.Typing
import HindleyMilner.Proofs.Substitution
import HindleyMilner.Proofs.SortedMap
import HindleyMilner.Proofs.Subst.Resolved
import HindleyMilner.Proofs.Unify.Solve
import HindleyMilner.Proofs.Subst.Merge
import HindleyMilner.Proofs.Subst.Idempotent
import HindleyMilner.Proofs.TypeEnv
import HindleyMilner.Proofs.Typing.Read
import HindleyMilner.Proofs.Infer.Run
import HindleyMilner.Proofs.Infer.Pattern
import HindleyMilner.Proofs.Infer.Scoped
import HindleyMilner.Proofs.Infer.Sound
import HindleyMilner.Proofs.Unify.Complete
import HindleyMilner.Proofs.MostGeneral
import HindleyMilner.Proofs.Subst.Chain
import HindleyMilner.Proofs.Typing.General
import HindleyMilner.Proofs.Infer.Principal
import HindleyMilner.Proofs.Infer.PatternPrincipal
import HindleyMilner.Proofs.Infer.Complete
import HindleyMilner.Proofs.Renaming
import HindleyMilner.Proofs.Printer
import HindleyMilner.Proofs.Infer.Orders
import HindleyMilner.Proofs.Program
import HindleyMilner.Proofs.Signatures
import HindleyMilner.Proofs.Equivariance.Data
import HindleyMilner.Proofs.Equivariance.Unify
import HindleyMilner.Proofs.Equivariance.Infer
import HindleyMilner.Proofs.Printer.Read
import HindleyMilner.Proofs.Printer.Alpha
import HindleyMilner.Proofs.Unify.Recursion
import HindleyMilner.Proofs.Infer.Reachable
import HindleyMilner.Proofs.Unify.Termination
import HindleyMilner.Proofs.TypeEnv.Compose
import HindleyMilner.Proofs.Infer.Capture
