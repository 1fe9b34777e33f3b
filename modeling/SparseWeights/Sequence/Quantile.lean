/-!
The quantile function of the standard normal distribution: minus infinity at zero, zero at one half,
infinity at one, and NaN outside. Between, it is a rational function of the distance to one half near
the centre, and one of the square root of the negated logarithm in the tails, with a further one far
out. The relative error is below `1e-15`.
-/

namespace SparseWeights.Quantile

/-- The value of the polynomial with the given coefficients, the constant one first. -/
def polynomial (coefficients : List Float) (x : Float) : Float :=
  coefficients.foldr (fun c sum => sum * x + c) 0

structure Rational where
  num : List Float
  den : List Float

def Rational.eval (r : Rational) (x : Float) : Float := polynomial r.num x / polynomial r.den x

/-- Near the centre, as a function of `0.180625 - q * q`. -/
def central : Rational where
  num := [3.3871328727963666080, 1.3314166789178437745e+2, 1.9715909503065514427e+3,
    1.3731693765509461125e+4, 4.5921953931549871457e+4, 6.7265770927008700853e+4,
    3.3430575583588128105e+4, 2.5090809287301226727e+3]
  den := [1.0, 4.2313330701600911252e+1, 6.8718700749205790830e+2, 5.3941960214247511077e+3,
    2.1213794301586595867e+4, 3.9307895800092710610e+4, 2.8729085735721942674e+4,
    5.2264952788528545610e+3]

/-- In the tails, as a function of `r - 1.6`. -/
def outer : Rational where
  num := [1.42343711074968357734, 4.63033784615654529590, 5.76949722146069140550,
    3.64784832476320460504, 1.27045825245236838258, 2.41780725177450611770e-1,
    2.27238449892691845833e-2, 7.74545014278341407640e-4]
  den := [1.0, 2.05319162663775882187, 1.67638483018380384940, 6.89767334985100004550e-1,
    1.48103976427480074590e-1, 1.51986665636164571966e-2, 5.47593808499534494600e-4,
    1.05075007164441684324e-9]

/-- Far out in the tails, as a function of `r - 5`. -/
def far : Rational where
  num := [6.65790464350110377720, 5.46378491116411436990, 1.78482653991729133580,
    2.96560571828504891230e-1, 2.65321895265761230930e-2, 1.24266094738807843860e-3,
    2.71155556874348757815e-5, 2.01033439929228813265e-7]
  den := [1.0, 5.99832206555887937690e-1, 1.36929880922735805310e-1, 1.48753612908506148525e-2,
    7.86869131145613259100e-4, 1.84631831751005468180e-5, 1.42151175831644588870e-7,
    2.04426310338993978564e-15]

/-- The magnitude of the quantile that leaves the probability `tail` outside. -/
def ofTail (tail : Float) : Float :=
  let r := Float.sqrt (-Float.log tail)
  if r ≤ 5.0 then outer.eval (r - 1.6) else far.eval (r - 5.0)

def normal (p : Float) : Float :=
  if p == 0.0 then -1.0 / 0.0
  else if p == 1.0 then 1.0 / 0.0
  else if 0.0 < p ∧ p < 1.0 then
    let q := p - 0.5
    if q.abs ≤ 0.425 then q * central.eval (0.180625 - q * q)
    else if q < 0.0 then -(ofTail p)
    else ofTail (1.0 - p)
  else 0.0 / 0.0

end SparseWeights.Quantile
