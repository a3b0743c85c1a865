/-
Handlers of one table in any number of threads (ha_fastmem.cc, ha_fastmem.h).

Each thread has one handler and makes its calls in any order. A write statement
takes the lock of a row when it has found it and reads the row again under the
lock; the lock then stays with the handler until the row is written, another
row is read or the statement ends. The counter of an AUTO_INCREMENT column is a
word of its own that none of this reads, so fm_write and fm_update_locked are
here without it.
-/

import Fastmem.Handler.AutoColumns
import Fastmem.Handler.Cursors
import Fastmem.Handler.UniqueRows

set_option autoImplicit false

namespace Fastmem

open Prog (perform)
open ThreadSystem

variable {n : Nat}

inductive LockType
  | rdlck
  | wrlck
  | unlck
  deriving DecidableEq, Repr

/-- The calls of a handler. index_init is of the server and notes the index; `numbered` is
whether update_auto_increment, of the server too, has let write_row go on, and `record` is
what it has made of the record. -/
inductive RowCall (n : Nat)
  | externalLock (lockType : LockType)
  | indexInit (inx : Nat)
  | indexReadMap (key : PackedKey)
  | indexReadLastMap (key : PackedKey)
  | indexReadIdxMap (inx : Nat) (key : PackedKey)
  | indexNext
  | rndInit (scan : Bool)
  | rndNext
  | rndPos (pos : SlotRef)
  | findUniqueRow (record : Rec n) (uniqueIdx : Nat)
  | writeRow (numbered : Bool) (record : Rec n)
  | updateRow (old new : Rec n)
  | deleteRow (buf : Rec n)
  | reset
  deriving DecidableEq

/-! ### Statements and scans -/

def externalLock (lockType : LockType) (h : Handler) : CoreProg n Handler :=
  match lockType with
  | .wrlck => return { h with writeStmt := true }
  | .unlck => unlockCurrentRow { h with writeStmt := false }
  | .rdlck => return h

def fmReset (info : Info) : Info :=
  { info with
    lastinx := none
    scanPos := 0
    currentSlot := none
    update := HaState.none }

def reset (info : Info) : CoreProg n Info := do
  let h ← unlockCurrentRow info.toHandler
  return fmReset { info with toHandler := h }

def rndInit (scan : Bool) (info : Info) : CoreProg n Info :=
  if scan then do
    let h ← unlockCurrentRow info.toHandler
    return fmScanInit { info with toHandler := h }
  else return info

/-! ### Row reads -/

def rndNext (gran : Gran) (info : Info) : CoreProg n (RowRes n × Info) := do
  let (found, info) ← fmScan gran info
  let (res, h) ← rowRead gran .recordDeleted found info.toHandler
  return (res, { info with toHandler := h })

def rndPos (gran : Gran) (pos : SlotRef) (info : Info) : CoreProg n (RowRes n × Info) := do
  let (found, info) ← fmRrnd gran pos info
  let (res, h) ← rowRead gran .recordDeleted found info.toHandler
  return (res, { info with toHandler := h })

/-! ### Row writes -/

/-- fm_write without the counter. -/
def fmWriteRow (T : TableShare n) (gran : Gran) (record : Rec n) (h : Handler) :
    CoreProg n (HaResult Unit) :=
  fmWriteOn id id T gran record h

/-- fm_update_locked without the counter. -/
def fmUpdateRowLocked (T : TableShare n) (gran : Gran) (old new : Rec n) (h : Handler) :
    CoreProg n (HaResult Unit) :=
  fmUpdateLockedOn id id T gran old new h

section Counter

open Machine

variable {t : Nat} {A : AutoTable n} {gran : Gran} {record old new : Rec n} {h : Handler}
  {result : HaResult Unit} {s : Core n} {a : AutoInc} {final : Core n × AutoInc}

/-- What fm_write does to the share, besides the counter. -/
theorem fmWrite_rows
    (ran : Exec (tableMachine n) t (fmWrite A gran record h) (s, a) result final) :
    Exec (coreMachine n) t (fmWriteRow A.toTableShare gran record h) s result final.1 := by
  obtain ⟨inserted, mid, first, rest⟩ := Exec.bind_inv ran
  obtain ⟨s', rfl, insert⟩ := exec_onLeft_inv first
  refine Exec.bind insert ?_
  cases inserted with
  | error e =>
      obtain ⟨rfl, rfl⟩ := Exec.ret_inv rest
      exact .ret _ _
  | ok idx =>
      obtain ⟨_, mid, second, rest⟩ := Exec.bind_inv rest
      obtain ⟨a', rfl, _⟩ := exec_onRight_inv second
      obtain ⟨g, mid, third, rest⟩ := Exec.bind_inv rest
      obtain ⟨s'', rfl, load⟩ := exec_onLeft_inv third
      obtain ⟨rfl, rfl⟩ := Exec.ret_inv rest
      exact Exec.bind load (.ret _ _)

/-- What fm_update_locked does to the share, besides the counter. -/
theorem fmUpdateLocked_rows
    (ran : Exec (tableMachine n) t (fmUpdateLocked A gran old new h) (s, a) result final) :
    Exec (coreMachine n) t (fmUpdateRowLocked A.toTableShare gran old new h) s result final.1 := by
  unfold fmUpdateLocked fmUpdateLockedOn at ran
  unfold fmUpdateRowLocked fmUpdateLockedOn
  cases current : h.currentSlot with
  | none =>
      rw [current] at ran
      obtain ⟨rfl, rfl⟩ := Exec.ret_inv ran
      exact .ret _ _
  | some idx =>
      rw [current] at ran
      obtain ⟨checked, mid, first, rest⟩ := Exec.bind_inv ran
      obtain ⟨s', rfl, check⟩ := exec_onLeft_inv first
      refine Exec.bind check ?_
      cases checked with
      | error e =>
          obtain ⟨rfl, rfl⟩ := Exec.ret_inv rest
          exact .ret _ _
      | ok _ =>
          obtain ⟨changed, mid, second, rest⟩ := Exec.bind_inv rest
          obtain ⟨s'', rfl, update⟩ := exec_onLeft_inv second
          refine Exec.bind update ?_
          cases changed with
          | error e =>
              obtain ⟨rfl, rfl⟩ := Exec.ret_inv rest
              exact .ret _ _
          | ok _ =>
              obtain ⟨_, mid, third, rest⟩ := Exec.bind_inv rest
              obtain ⟨a', rfl, _⟩ := exec_onRight_inv third
              obtain ⟨rfl, rfl⟩ := Exec.ret_inv rest
              exact .ret _ _

end Counter

def writeRow (T : TableShare n) (gran : Gran) (numbered : Bool) (record : Rec n) (h : Handler) :
    CoreProg n (RowRes n × Handler) :=
  if numbered then do
    let (rc, h) ← fmWriteRow T gran record h
    return (.changed rc, h)
  else return (.refused, h)

def updateRow (T : TableShare n) (gran : Gran) (old new : Rec n) (h : Handler) :
    CoreProg n (HaResult Unit) := do
  let (taken, h) ← takeCurrentRow h
  if !taken then
    return (.error .recordChanged, h)
  else
    let (rc, h) ← fmUpdateRowLocked T gran old new h
    let h ← unlockCurrentRow h
    return (rc, h)

/-! ### The system -/

def onHandler {α : Type} (program : Handler → CoreProg n (α × Handler)) (info : Info) :
    CoreProg n (α × Info) := do
  let (value, h) ← program info.toHandler
  return (value, { info with toHandler := h })

def rowProgram (getRecBits : Bytes → Nat → Nat → UInt8) (T : TableShare n) (gran : Gran)
    (info : Info) : RowCall n → CoreProg n (RowRes n × Info)
  | .externalLock lockType =>
      onHandler (fun h => do return (.done, ← externalLock lockType h)) info
  | .indexInit inx => return (.done, { info with activeIndex := inx })
  | .indexReadMap key | .indexReadLastMap key =>
      onHandler (readIdxMap T gran info.activeIndex key) info
  | .indexReadIdxMap inx key => onHandler (readIdxMap T gran inx key) info
  | .indexNext => onHandler (readNext T gran) info
  | .rndInit scan => do return (.done, ← rndInit scan info)
  | .rndNext => rndNext gran info
  | .rndPos pos => rndPos gran pos info
  | .findUniqueRow record uniqueIdx =>
      onHandler (readUnique getRecBits T gran record uniqueIdx) info
  | .writeRow numbered record => onHandler (writeRow T gran numbered record) info
  | .updateRow old new => onHandler (fun h => do
      let (rc, h) ← updateRow T gran old new h
      return (.changed rc, h)) info
  | .deleteRow buf => onHandler (fun h => do
      let (rc, h) ← deleteRow T gran buf h
      return (.changed rc, h)) info
  | .reset => do return (.done, ← reset info)

/-- Key numbers are those of the table and a position is of an allocated slot or of none. -/
def RowCall.allowed (T : TableShare n) (info : Info) (s : Core n) : RowCall n → Bool
  | .indexInit inx | .indexReadIdxMap inx _ | .findUniqueRow _ inx => decide (inx < T.core.keys)
  | .indexReadMap _ | .indexReadLastMap _ => decide (info.activeIndex < T.core.keys)
  | .rndPos pos => pos.slot.all fun idx => decide (idx < s.slotCount)
  | .externalLock _ | .indexNext | .rndInit _ | .rndNext | .writeRow _ _ | .updateRow _ _
  | .deleteRow _ | .reset => true

def rowHandlers (getRecBits : Bytes → Nat → Nat → UInt8) (T : TableShare n) (gran : Gran) :
    ThreadSystem (coreMachine n) where
  Call := RowCall n
  Res := RowRes n
  Loc := Info
  code _ call info := rowProgram getRecBits T gran info call
  allowed _ call info s := call.allowed T info s

end Fastmem
