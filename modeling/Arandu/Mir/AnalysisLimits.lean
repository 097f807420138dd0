import Arandu.Amir.Types

/-!
# Iteration limits of the dataflow analyses

Defensive bounds against non-terminating loops on malformed IR. The theorems about the
analyses show where these bounds are never reached, and where they are.
-/

namespace Arandu.Mir

/-- `DATAFLOW_FIXPOINT_HEADROOM`, added to the theoretical bound of a fixpoint. -/
def dataflowFixpointHeadroom : Nat := 1000

def cfgSimplifyMaxOuterIters : Nat := 64

end Arandu.Mir
