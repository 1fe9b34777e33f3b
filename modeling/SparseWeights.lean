import SparseWeights.Main
import SparseWeights.Admm.SystemRequest
import SparseWeights.Estimator.Basic
import SparseWeights.Proofs.Admm.Refusal
import SparseWeights.Proofs.Admm.Relabel
import SparseWeights.Proofs.Admm.SystemRequest
import SparseWeights.Proofs.Admm.Units
import SparseWeights.Proofs.Admm.Watch
import SparseWeights.Proofs.Checked.Run
import SparseWeights.Proofs.Command.Study
import SparseWeights.Proofs.Estimator.Session
import SparseWeights.Proofs.Penalty.Minimiser
import SparseWeights.Proofs.Penalty.Nonexpansive
import SparseWeights.Proofs.Penalty.Norm
import SparseWeights.Proofs.Penalty.Shrinkage
import SparseWeights.Proofs.Penalty.Symmetry
import SparseWeights.Proofs.Pooling.InPlace
import SparseWeights.Proofs.Pooling.Nearest
import SparseWeights.Proofs.Portfolio
import SparseWeights.Proofs.Program.Minimum
import SparseWeights.Proofs.Program.Singular
import SparseWeights.Proofs.Sequence.Consumer
import SparseWeights.Proofs.Sequence.Normal
import SparseWeights.Proofs.Synthetic.Draw
import SparseWeights.Proofs.Tracking
