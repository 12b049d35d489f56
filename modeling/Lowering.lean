import Lowering.Main
import Lowering.Proofs.Aliases
import Lowering.Proofs.Arranged
import Lowering.Proofs.Assigned
import Lowering.Proofs.Constructed
import Lowering.Proofs.Copied
import Lowering.Proofs.Exhaustive
import Lowering.Proofs.Guarded
import Lowering.Proofs.Imported
import Lowering.Proofs.Literals
import Lowering.Proofs.LookedThrough
import Lowering.Proofs.Mentioned
import Lowering.Proofs.Nesting
import Lowering.Proofs.Once
import Lowering.Proofs.Parameters
import Lowering.Proofs.Returned
import Lowering.Proofs.Reused
import Lowering.Proofs.Substituted
import Lowering.Proofs.Terminates
import Lowering.Proofs.Unambiguous
import Lowering.Proofs.Unified
