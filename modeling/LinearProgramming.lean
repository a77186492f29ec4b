import LinearProgramming.Integer.BranchAndBound
import LinearProgramming.Integer.CuttingPlane
import LinearProgramming.Proofs.BasisInverse.Rebuild
import LinearProgramming.Proofs.Integer.BranchAndBound
import LinearProgramming.Proofs.Integer.CuttingPlane
import LinearProgramming.Proofs.Sensitivity.Change
import LinearProgramming.Proofs.Simplex.SmallestIndex
import LinearProgramming.Proofs.Simplex.Tolerance
import LinearProgramming.Sensitivity.Change
import LinearProgramming.Simplex.Revised
import LinearProgramming.Text.Knapsack
import LinearProgramming.Text.Range
import LinearProgramming.Proofs.BasisInverse.Change
import LinearProgramming.Proofs.RowMatrix.Determinant
import LinearProgramming.Proofs.Knapsack.Relaxation
import LinearProgramming.Proofs.Knapsack.Search
import LinearProgramming.Proofs.Simplex.Revised
import LinearProgramming.Proofs.Sensitivity.Basis
import LinearProgramming.Proofs.Sensitivity.Interval
import LinearProgramming.Proofs.Sensitivity.Range
import LinearProgramming.Proofs.Sensitivity.Duality
import LinearProgramming.Proofs.Sensitivity.Sizes
import LinearProgramming.Proofs.Integer.Trail
import LinearProgramming.Proofs.Integer.Descent
import LinearProgramming.Proofs.Integer.NodeLimit
import LinearProgramming.Proofs.Sensitivity.Coefficient
import LinearProgramming.Proofs.Sensitivity.RightHandSide
import LinearProgramming.Proofs.Session.History
import LinearProgramming.Proofs.Integer.Replay
import LinearProgramming.Proofs.Integer.WellFormed
import LinearProgramming.Proofs.Knapsack.Tolerance
import LinearProgramming.Proofs.Knapsack.Classification
import LinearProgramming.Proofs.Knapsack.Exploration
import LinearProgramming.Proofs.Integer.Separation
import LinearProgramming.Proofs.Simplex.Cycle
import LinearProgramming.Proofs.Simplex.DualCycle
import LinearProgramming.Proofs.Simplex.RevisedCycle
import LinearProgramming.Proofs.Integer.EditedMarks
import LinearProgramming.Proofs.Integer.Rounding
import LinearProgramming.Proofs.Tableau.RatioTest
