/-
A row read of a write statement and the row it was asked for (fm_data.cc, ha_fastmem.cc).

The lookup of the row and the lock of its slot are two steps. The read under the lock samples the
generation of the slot afresh and does not compare the key again. It detects a row that was
deleted in between; a row that took its place, or that an update moved to another key, it returns.
-/

import Fastmem.Concurrent.SeqlockReads
import Fastmem.Handler.AskedRows

set_option autoImplicit false

namespace Fastmem

open ThreadSystem

variable {n : Nat}

section Slots

variable {S : Setting n} {X : ThreadSystem (coreMachine n)} {R : X.Run} {t a b idx : Nat}
  {gran : Gran} {record : Rec n}

end Slots

namespace RowChecked

variable {S : Setting n} {X : ThreadSystem (coreMachine n)} {R : X.Run} {t idx : Nat} {gran : Gran}
  {record : Rec n} {checkGen : Bool} {g : UInt32} {found first second again : Nat}

end RowChecked

section Runs

variable {getRecBits : Bytes → Nat → Nat → UInt8} {T : TableShare n} {gran : Gran}

end Runs

/-! ### Handler 0 looks a row up that handler 1 has locked -/

def rowLocked : List (Nat × Option (RowCall 1)) :=
  List.flatten [callSteps 0 (.externalLock .wrlck) 1, callSteps 0 (.writeRow true fun _ => 7) 35,
    callSteps 0 .reset 1, callSteps 1 (.externalLock .wrlck) 1,
    callSteps 1 (.indexReadIdxMap 0 [7]) 19]

end Fastmem
