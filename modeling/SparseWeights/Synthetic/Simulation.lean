import SparseWeights.Data.Sheet
import SparseWeights.Synthetic.Plan

/-!
Synthetic data. In a regression the response is a sparse combination of independent features, with noise;
in a portfolio the returns of all assets share a factor, and the covariance and the means are taken over
the periods. Either becomes a sheet of the form that studies read, and an array that makes no sheet makes
no simulation.
-/

namespace SparseWeights.Synthetic

variable {n k : Nat}

/-- Data as a sheet, and the arrays that it was made of, by name. -/
structure Simulation where
  sheet : Sheet
  parts : List (String × Tensor Float)

/-- The numbers `raw` at the given places, divided by their sum, and zero elsewhere. -/
def sparseWeights {count : Nat} (places : Vec (Fin k) count) (raw : Vec Float count) :
    Vec Float k :=
  let total := Vec.total raw
  (places.zip raw).foldl (fun w (j, x) => w.set j.val (x / total) j.isLt) (Vector.replicate k 0)

def numberedNames (letter : String) (k : Nat) : List String :=
  (List.range k).map fun j => letter ++ Decimal.natText (j + 1)

def regressionOf (X : Mat Float n k) (Y : Vec Float n) (weights : Vec Float k) :
    Except Fault Simulation := do
  let sheet ← Sheet.ofTensor none (numberedNames "x" k) (.ofMat X)
  let sheet ← sheet.putColumn "y" (Sheet.cells Y.toList)
  return { sheet, parts := [("X", .ofMat X), ("Y", .ofVec Y), ("w_true", .ofVec weights)] }

def columnMeans (A : Mat Float n k) : Vec Float k :=
  (Mat.transpose A).map fun column => Vec.total column / Float.ofNat n

/-- The covariance of the columns. It is not defined for fewer than two rows. -/
def covariance (A : Mat Float n k) : Mat Float k k :=
  let means := columnMeans A
  let centered : Mat Float n k := A.map fun row => Vec.sub row means
  (Mat.gram centered).map fun row => row.map fun x => x * (1 / Float.ofNat (n - 1))

/-- The returns of assets: their means, a common factor of each period, and what is their own. -/
def returnsOf (means deviations loadings : Vec Float k) (factor : Vec Float n)
    (own : Mat Float n k) : Mat Float n k :=
  Mat.ofFn fun i j =>
    means.get j + factor.get i * loadings.get j + (own.get i).get j * deviations.get j

/-- The simulation of returns: the covariance of the assets, without axes of length one, and below it
their means. -/
def portfolioOf (returns : Mat Float n k) : Except Fault Simulation := do
  let labels := numberedNames "a" k
  let Sigma := (Tensor.ofMat (covariance returns)).squeeze
  let mu := columnMeans returns
  let sheet ← Sheet.ofTensor (some labels) labels Sigma
  let sheet ← sheet.putRow "mu" (Sheet.cells mu.toList)
  return { sheet, parts := [("Sigma", Sigma), ("mu", .ofVec mu), ("returns", .ofMat returns)] }

namespace Plan

variable (p : Plan) (g : Generator) (seed : Value)

def seedFor : Value :=
  match seed with
  | .null => p.seed
  | seed => seed

def drawWeights : g.Draw ((k : Nat) × Vec Float k) := do
  let k ← countOf p.k
  let active ← countOf p.active
  if h : active ≤ k then
    let places ← g.places h
    let raw ← g.uniform 0.5 1.5 active
    return ⟨k, sparseWeights places raw⟩
  else throw .unreadable

def weights (nth : Nat) : Except Fault ((k : Nat) × Vec Float k) := do
  (p.drawWeights g).run' (← g.start (p.seedFor seed) nth)

def drawFeatures (k : Nat) : g.Draw ((n : Nat) × Mat Float n k × Vec Float n) := do
  let n ← countOf p.n
  let X ← g.normalRows n k
  let noise ← g.normal (← spreadAlong (← spreadOf p.sigma) n)
  return ⟨n, X, noise⟩

def regression : Except Fault Simulation := do
  let state ← g.start (p.seedFor seed) 0
  let ⟨k, weights⟩ ← p.weights g seed 1
  let ⟨_, X, noise⟩ ← (p.drawFeatures g k).run' state
  regressionOf X (Vec.add (Mat.mulVec X weights) noise) weights

def drawReturns : g.Draw ((n : Nat) × (k : Nat) × Mat Float n k) := do
  let k ← countOf p.k
  let means ← g.uniform 0 0.01 k
  let deviations ← g.uniform 0.01 0.04 k
  let loadings ← g.uniform 0.5 1.5 k
  let spread ← spreadOf p.factorVol
  let n ← countOf p.n
  let factor ← g.normal (← spreadAlong spread n)
  let own ← g.normalRows n k
  return ⟨n, k, returnsOf means deviations loadings factor own⟩

def portfolio : Except Fault Simulation := do
  let state ← g.start (p.seedFor seed) 0
  let ⟨_, _, returns⟩ ← (p.drawReturns g).run' state
  portfolioOf returns

def simulate : Except Fault Simulation :=
  match p.problem with
  | .regression => p.regression g seed
  | .portfolio => p.portfolio g seed

/-- Whether the rows of a simulation keep their labels in a file. -/
def isLabelled : Bool := p.problem = .portfolio

end Plan

end SparseWeights.Synthetic
