import SparseWeights.Admm.Settings

/-!
The kinds of estimators: the hyperparameters of each with their defaults, what it knows after a fit, and
what can be asked of it.
-/

namespace SparseWeights

inductive EstimatorKind where
  | regression
  | portfolio
  deriving DecidableEq, Repr

namespace EstimatorKind

def name : EstimatorKind → String
  | regression => "SparseRegression"
  | portfolio => "SparsePortfolio"

def settings : List Setting := [.maxIter, .tolInfeas, .tolRelGap, .rho, .verbose, .timeLimit]

def defaults (kind : EstimatorKind) : Fields :=
  (match kind with
    | regression => []
    | portfolio => [("phi", .float 1)]) ++
  [("penalty", .text "L1"), ("lam", .float 0)] ++
  settings.map fun setting => (setting.name, Settings.default.toDraft setting)

end EstimatorKind

inductive Attribute where
  | features
  | weights
  | alpha
  | beta
  | penalty
  | objective
  | status
  | iterations
  | rho
  | history
  deriving DecidableEq, Repr

namespace Attribute

def all : List Attribute :=
  [features, weights, alpha, beta, penalty, objective, status, iterations, rho, history]

def name : Attribute → String
  | features => "n_features_in_"
  | weights => "coef_"
  | alpha => "alpha_"
  | beta => "beta_"
  | penalty => "penalty_value_"
  | objective => "objective_"
  | status => "status_"
  | iterations => "n_iter_"
  | rho => "rho_"
  | history => "history_"

def ofName? (name : String) : Option Attribute := all.find? fun a => a.name == name

/-- Whether a fit of that kind makes the attribute known; only a regression counts its features. -/
def isFitted : Attribute → EstimatorKind → Bool
  | features, .portfolio => false
  | _, _ => true

end Attribute

inductive Operation where
  | fit
  | predict
  | score
  | summary
  | settings
  deriving DecidableEq, Repr

namespace Operation

def name : Operation → String
  | fit => "fit"
  | predict => "predict"
  | score => "score"
  | summary => "summary"
  | settings => "solver_config"

/-- The only kind of estimators that have the operation, if not all have. -/
def kind? : Operation → Option EstimatorKind
  | predict | score => some .regression
  | summary => some .portfolio
  | fit | settings => none

end Operation

end SparseWeights
