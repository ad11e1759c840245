import Decompiler.Proofs.Structure.Balance
import Decompiler.Proofs.Flow.Simulation
import Decompiler.Proofs.Order.ProgramOrder
import Decompiler.Proofs.Refold.Convergence
import Decompiler.Proofs.Structure.Fewer
import Decompiler.Proofs.Batch.Workers
import Decompiler.Proofs.Meaning.Hoisting
import Decompiler.Proofs.Meaning.Quotients
import Decompiler.Proofs.Fold.Summaries
import Decompiler.Proofs.Structure.Limits
import Decompiler.Proofs.Liveness.Least
import Decompiler.Proofs.Text.Lines
import Decompiler.Proofs.Fold.Histories
import Decompiler.Proofs.Tree.Preorder
import Decompiler.Proofs.Typing.Names
