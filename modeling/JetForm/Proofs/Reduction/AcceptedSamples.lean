import JetForm.Proofs.Numerics.Comparisons
import JetForm.Proofs.Outcome
import JetForm.Proofs.Reduction.Sampling
import JetForm.Reduction.Coefficient

/-! # What acceptance guarantees

    A coefficient that is no plain number is accepted for its samples and for what
    a minimiser finds between them.  Nothing is assumed of the minimiser.  Samples
    are finite and the threshold is a number, so they can be compared: a sample that
    is not found to be small is above the threshold. -/

namespace JetForm

open Singularity

namespace LeadingCoefficient

variable {c : LeadingCoefficient} {d : Domain Float} {tolerance : Float} {count : Nat}
  {search : (Float → Float) → Float → Float → Float × Float}

end LeadingCoefficient

end JetForm
