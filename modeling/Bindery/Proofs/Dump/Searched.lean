import Mathlib
import Bindery.Proofs.Dump.Unit
import Bindery.Proofs.QualType.RoundTrip
import Bindery.Proofs.Source.Parameters

/-! When loading a dump stops. The dump may have been made of another text than the one at hand. -/

namespace Bindery.HeaderUnit

end Bindery.HeaderUnit
