import StandardForm.Spectrum.LeastEigenvalue
import StandardForm.Spectrum.Rank
import StandardForm.Spectrum.Routines

/-!
# The numerical library that runs

Singular values are exact ones, rounded once, and so are the least eigenvalues of more than two rows.
Those of two rows come from the quadratic formula in 64-bit numbers.
-/

namespace StandardForm.Spectrum

instance rounded : Routines where
  rank? := roundedRank?
  leastEigenvalue? := roundedLeastEigenvalue?

end StandardForm.Spectrum
