import SparseWeights.Data.Value
import SparseWeights.Fault

/-!
Why a request is refused. Every refusal of this library's own rules has a cause with a text; a `Fault`
from below carries none. An invalid argument is found before the first iteration, and so is a matrix
that has no Cholesky factor.
-/

namespace SparseWeights

inductive Invalid where
  | kindNotText (kind : Value)
  | kindUnknown (kind : String)
  | weightCount (count : Nat)
  | weightNotPositive
  | weightsLength (length : Nat) (dimension : Int)
  | weightsEmpty
  | weightsNotFinite
  | weightsNegative
  | weightsAscending
  | thresholdsLength
  | notVector (name : String)
  | notFinite (name : String)
  | designNotMatrix
  | rowCount (rows responses : Nat)
  | covarianceNotSquare
  | covarianceNotSymmetric
  | meanLength (length dimension : Nat)
  | riskAversion
  | systemNotSquare
  | startShape (shape : List Nat) (dimension : Nat)
  | settingNotNumber
  | maxIter
  | tolerances
  | rho
  | timeLimit
  | problemKeys (keys : List Value)
  | featureCount
  deriving Repr

inductive Singular where
  | quadratic (problem : String)
  | system (rho : Float)
  deriving Repr

inductive Rejection where
  | configFormat (suffix : String)
  | responseMissing (name : String)
  | meanRowMissing
  | problemType (name : String)
  | sequenceLength
  | sequenceBounds
  | sequenceLevel
  | sequenceKind (name : String)
  | generatorProblem (name : String)
  | activeCount
  deriving Repr

inductive Error where
  | invalid (cause : Invalid)
  | singular (cause : Singular)
  | rejected (cause : Rejection)
  /-- An estimator of that name has been asked before any fit. -/
  | notFitted (estimator : String)
  | trackerMissing
  | configMissing (path : String)
  | fault (cause : Fault)
  deriving Repr

namespace Error

def shapeText (shape : List Nat) : String :=
  match shape.map Decimal.natText with
  | [only] => "(" ++ only ++ ",)"
  | axes => "(" ++ Value.commaSeparated axes ++ ")"

end Error

def Invalid.message : Invalid → String
  | kindNotText kind => "ペナルティ種別は文字列である必要があります: " ++ kind.literal
  | kindUnknown kind =>
    "未知のペナルティ種別です: " ++ Value.quoted kind ++
      "（'L1' または 'SortedL1' を指定してください）"
  | weightCount count =>
    "L1 の lambda はスカラー 1 つである必要があります（" ++ Decimal.natText count ++ " 個）。"
  | weightNotPositive => "L1 の lambda は有限の非負値である必要があります。"
  | weightsLength length dimension =>
    "SortedL1 の lambda の長さ " ++ Decimal.natText length ++ " が次元 K=" ++
      Decimal.intText dimension ++ " と一致しません。"
  | weightsEmpty => "SortedL1 の lambda が空です。"
  | weightsNotFinite => "SortedL1 の lambda に NaN/inf が含まれています。"
  | weightsNegative => "SortedL1 の lambda は非負である必要があります。"
  | weightsAscending => "SortedL1 の lambda は降順（非増加）である必要があります。"
  | thresholdsLength => "thresh の長さが y と一致しません。"
  | notVector name => name ++ " は 1 次元ベクトルである必要があります。"
  | notFinite name => name ++ " に NaN/inf が含まれています。"
  | designNotMatrix => "X は 2 次元配列（N, K）である必要があります。"
  | rowCount rows responses =>
    "X の行数 " ++ Decimal.natText rows ++ " と Y の長さ " ++ Decimal.natText responses ++
      " が一致しません。"
  | covarianceNotSquare => "Sigma は正方行列（K, K）である必要があります。"
  | covarianceNotSymmetric => "Sigma は対称行列である必要があります。"
  | meanLength length dimension =>
    "mu の長さ " ++ Decimal.natText length ++ " が Sigma の次元 " ++ Decimal.natText dimension ++
      " と一致しません。"
  | riskAversion => "phi は正の有限値である必要があります。"
  | systemNotSquare => "Q は正方行列である必要があります。"
  | startShape shape dimension =>
    "init_w の形状 " ++ Error.shapeText shape ++ " が次元 K=" ++ Decimal.natText dimension ++
      " と一致しません。"
  | settingNotNumber => "ソルバ設定に数値として解釈できない値があります"
  | maxIter => "max_iter は正の整数である必要があります。"
  | tolerances => "tol_infeas / tol_rel_gap は正である必要があります。"
  | rho => "rho は正の有限値である必要があります。"
  | timeLimit => "time_limit は正である必要があります。"
  | problemKeys keys =>
    "problem_data のキー [" ++ Value.commaSeparated (Value.literals keys) ++
      "] から問題を判別できません（\x7bX, Y\x7d または \x7bSigma, mu, phi\x7d が必要です）。"
  | featureCount => "X の列数が学習時と一致しません。"

def Singular.message : Singular → String
  | quadratic problem =>
    problem ++ ": 双対目的関数に必要な Q の分解ができません（Q が正定値でない可能性があります）。"
  | system rho =>
    "Q + rho(I + ee^T) を Cholesky 分解できません（rho=" ++ Decimal.general rho ++ "）。"

def Rejection.message : Rejection → String
  | configFormat suffix => "Unsupported config format: " ++ suffix
  | responseMissing name => "Missing response column " ++ Value.quoted name ++ " in data."
  | meanRowMissing => "Portfolio data must contain a row labelled 'mu'."
  | problemType name => "Unknown problem type: " ++ Value.quoted name
  | sequenceLength => "n_weights must be positive"
  | sequenceBounds => "require 0 <= lam_min <= lam_max"
  | sequenceLevel => "q must be in (0, 1)"
  | sequenceKind name => "Unknown kind: " ++ name
  | generatorProblem name => "Unknown problem: " ++ name
  | activeCount => "n_active は 1 以上 k 以下にしてください"

namespace Error

/-- The text of an error; faults have none. -/
def message? : Error → Option String
  | invalid cause => some cause.message
  | singular cause => some cause.message
  | rejected cause => some cause.message
  | notFitted estimator => some ("This " ++ estimator ++ " instance is not fitted yet.")
  | trackerMissing => some ("wandb がインストールされていません。 `pip install wandb` を実行するか、" ++
      "WANDB_PROJECT / WANDB_ENABLED を外してください。")
  | configMissing path => some ("Config file not found: " ++ path)
  | fault _ => none

end Error

/-- A fault passes wherever an error is expected. -/
instance : MonadLift (Except Fault) (Except Error) :=
  ⟨fun
    | .ok value => .ok value
    | .error cause => .error (.fault cause)⟩

instance : MonadLift (Except Invalid) (Except Error) :=
  ⟨fun
    | .ok value => .ok value
    | .error cause => .error (.invalid cause)⟩

end SparseWeights
