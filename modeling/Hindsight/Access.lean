import Hindsight.RegisterSet

/-!
# What an instruction touched

The report an engine gives for one step.  Nothing here makes the report truthful: a
recording has to cope with engines that leave out a write or report one they never
made.
-/

namespace Hindsight

/-- The registers and memory words that one step read and wrote. -/
structure Access where
  read : RegisterSet := ∅
  written : RegisterSet := ∅
  /-- The addresses stored to, in order; one may occur several times. -/
  addresses : List Address := []
  deriving DecidableEq, Inhabited

end Hindsight
