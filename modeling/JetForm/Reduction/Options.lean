import JetForm.Error

/-! # Options of a reduction -/

namespace JetForm

/-- Tolerances and limits.

    * `singularTolerance`: a leading coefficient vanishes where it is not larger
      than this share of its largest sample;
    * `sampleCount`: Chebyshev samples on each piece of the domain;
    * `conditionTolerance` and `conditionIterations`: when the solution of the
      conditions is accepted, and how many Newton steps it may take. -/
structure ReductionOptions where
  singularTolerance : Float := 1e-12
  sampleCount : Int := 65
  conditionTolerance : Float := 1e-6
  conditionIterations : Int := 20

namespace ReductionOptions

/-- Refuse settings that make no sense. -/
def check (o : ReductionOptions) : Except Error ReductionOptions :=
  if o.singularTolerance < 0 then .error .singularTolerance
  else if o.sampleCount < 2 then .error .sampleCount
  else if o.conditionIterations < 1 then .error .conditionIterations
  else .ok o

end ReductionOptions

end JetForm
