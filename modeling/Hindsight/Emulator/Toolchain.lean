import Hindsight.Assembly.Program
import Hindsight.Emulator.Basic

/-!
# The machine's own toolchain
-/

namespace Hindsight

/-- The emulator, and the assembler for its instructions. -/
def machineTools (wording : SyntaxWording) : Toolchain Emulator Fault :=
  ⟨Emulator.engine, assemble wording⟩

end Hindsight
