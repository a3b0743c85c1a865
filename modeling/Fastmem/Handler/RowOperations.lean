/-
Row operations of a handler (fm_data.cc, ha_fastmem.cc).

A handler owns one FM_INFO; both are one record here. It is a position in the
table, `current_slot` with `current_gen`, the key of its last index read, and the
slot lock that a write statement keeps from the read of a row to its update or
delete. The record buffer a read fills is its result. `lastkey` is the whole key
buffer: a copy of a shorter key leaves its end as it was.
-/

import Fastmem.Core.SerialRuns
import Fastmem.Keys.KeyFunctions
import Mathlib.Data.Fintype.Pi

set_option autoImplicit false

namespace Fastmem

open Prog (perform iterate)

variable {n : Nat}

inductive HaErr
  | recordFileFull
  | outOfMem
  | recordDeleted
  | foundDuppKey
  | keyNotFound
  | crashed
  | endOfFile
  | recordChanged
  | wrongIndex
  deriving DecidableEq, Repr

/-- fm_core_error_to_ha. -/
def Err.toHa : Err → HaErr
  | .full => .recordFileFull
  | .nomem => .outOfMem
  | .deleted => .recordDeleted
  | .dupKey _ => .foundDuppKey
  | .notFound => .keyNotFound
  | .eof => .crashed

structure HaState where
  aktiv : Bool
  deleted : Bool
  noKey : Bool
  nextFound : Bool
  prevFound : Bool
  deriving DecidableEq, Repr

def HaState.none : HaState := ⟨false, false, false, false, false⟩

/-- The members of ha_fastmem and of its FM_INFO that row operations use; -1 is `none`. -/
structure Handler where
  currentSlot : Option Nat
  currentGen : UInt32
  lastinx : Option Nat
  lastkey : PackedKey
  lastkeyLen : Nat
  errkey : Int
  update : HaState
  readCheckUsed : Bool
  activeIndex : Nat
  writeStmt : Bool
  rowLocked : Bool
  lockedSlot : Option Nat
  deriving DecidableEq, Repr

structure TableShare (n : Nat) where
  core : ShareDef n
  keydef : Nat → FmKeydef

abbrev HaResult (α : Type) := Except HaErr α × Handler

/-! ### The row lock -/

def unlockCurrentRow (h : Handler) : CoreProg n Handler :=
  match h.rowLocked, h.lockedSlot with
  | true, some idx => do
      perform (.unlock (.wlock idx))
      return { h with rowLocked := false, lockedSlot := none }
  | true, none => return { h with rowLocked := false }
  | false, _ => return h

def lockCurrentRow (h : Handler) : CoreProg n Handler :=
  match h.currentSlot with
  | none => return h
  | some idx =>
      if h.rowLocked ∧ h.lockedSlot = some idx then
        return h
      else do
        let h ← unlockCurrentRow h
        perform (.lock (.wlock idx))
        return { h with rowLocked := true, lockedSlot := some idx }

/-! ### Reads -/

/-- memcpy of a packed key to `lastkey`. -/
def Handler.keepKey (h : Handler) (kd : FmKeydef) (key : PackedKey) : Handler :=
  { h with
    lastkey := key.take kd.length ++ h.lastkey.drop kd.length
    lastkeyLen := kd.length }

def fmFindKey (T : TableShare n) (gran : Gran) (inx : Nat) (key : PackedKey) (h : Handler) :
    CoreProg n (HaResult (Rec n)) := do
  match ← fmCoreFind T.core gran inx key with
  | .error _ => return (.error .keyNotFound, { h with update := { HaState.none with noKey := true } })
  | .ok (idx, record) =>
      let kd := T.keydef inx
      let h := if kd.nosame && !kd.nullPartKey then h else h.keepKey kd key
      let g ← perform (.loadGen idx)
      return (.ok record, { h with
        lastinx := some inx
        currentSlot := some idx
        currentGen := g
        update := { HaState.none with aktiv := true } })

def fmFindNextKey (T : TableShare n) (gran : Gran) (inx : Nat) (key : PackedKey)
    (cur : Option Nat) (h : Handler) : CoreProg n (HaResult (Rec n)) := do
  match ← fmCoreFindNext T.core gran inx key cur with
  | .error _ =>
      return (.error .keyNotFound, { h with update := { HaState.none with nextFound := true } })
  | .ok (idx, record) =>
      let kd := T.keydef inx
      let h :=
        if kd.length ≠ h.lastkeyLen ∨ h.lastkey.take kd.length ≠ key.take kd.length then
          h.keepKey kd key
        else h
      let g ← perform (.loadGen idx)
      return (.ok record, { h with
        lastinx := some inx
        currentSlot := some idx
        currentGen := g
        update := { HaState.none with aktiv := true, nextFound := true } })

/-- Called with a current row only. -/
def fmRereadLocked (gran : Gran) (h : Handler) : CoreProg n (Except Err (Rec n) × Handler) :=
  match h.currentSlot with
  | none => return (.error .deleted, h)
  | some idx => do
      let g ← perform (.loadGen idx)
      match ← fmCoreReadRow gran idx true g with
      | .ok record => return (.ok record, { h with currentGen := g })
      | .error e => return (.error e, h)

/-- The tail of every row read: a write statement locks the row and reads it again. -/
def afterRead (gran : Gran) (gone : HaErr) (record : Rec n) (h : Handler) : CoreProg n (HaResult (Rec n)) :=
  if h.writeStmt then do
    let h ← lockCurrentRow h
    let (again, h) ← fmRereadLocked gran h
    match again with
    | .ok record => return (.ok record, h)
    | .error _ =>
        let h ← unlockCurrentRow h
        return (.error gone, h)
  else
    return (.ok record, h)

/-- How a call of a handler ends. A row read fails in two ways with one error code: `missed` if
no row was found, `gone` if the read under the lock failed. -/
inductive RowRes (n : Nat)
  | row (record : Rec n)
  | missed (e : HaErr)
  | gone (e : HaErr)
  | changed (result : Except HaErr Unit)
  | refused
  | done
  deriving DecidableEq

def RowRes.returned : RowRes n → Except HaErr (Rec n)
  | .row record => .ok record
  | .missed e | .gone e => .error e
  | .changed _ | .refused | .done => .error .keyNotFound

/-- The end of a row read: what the lookup found is locked and read again in a write
statement. -/
def rowRead (gran : Gran) (gone : HaErr) (found : Except HaErr (Rec n)) (h : Handler) :
    CoreProg n (RowRes n × Handler) :=
  match found with
  | .error e => return (.missed e, h)
  | .ok record => do
      let (again, h) ← afterRead gran gone record h
      match again with
      | .ok record => return (.row record, h)
      | .error e => return (.gone e, h)

def returnCode (read : CoreProg n (RowRes n × Handler)) : CoreProg n (HaResult (Rec n)) := do
  let (res, h) ← read
  return (res.returned, h)

def readIdxMap (T : TableShare n) (gran : Gran) (inx : Nat) (key : PackedKey) (h : Handler) :
    CoreProg n (RowRes n × Handler) := do
  let (found, h) ← fmFindKey T gran inx key h
  rowRead gran .keyNotFound found h

/-- index_read_idx_map; index_read_map and index_read_last_map are its case of the active
index. -/
def indexReadIdxMap (T : TableShare n) (gran : Gran) (inx : Nat) (key : PackedKey) (h : Handler) :
    CoreProg n (HaResult (Rec n)) :=
  returnCode (readIdxMap T gran inx key h)

def indexReadMap (T : TableShare n) (gran : Gran) (key : PackedKey) (h : Handler) :
    CoreProg n (HaResult (Rec n)) :=
  indexReadIdxMap T gran h.activeIndex key h

def readNext (T : TableShare n) (gran : Gran) (h : Handler) : CoreProg n (RowRes n × Handler) :=
  match h.lastinx with
  | none => return (.missed .wrongIndex, h)
  | some inx => do
      let (found, h) ← fmFindNextKey T gran inx h.lastkey h.currentSlot h
      match found with
      | .error e =>
          if e = .keyNotFound ∧ h.update.noKey = false then return (.missed .endOfFile, h)
          else return (.missed e, h)
      | .ok record => rowRead gran .keyNotFound (.ok record) h

def indexNext (T : TableShare n) (gran : Gran) (h : Handler) : CoreProg n (HaResult (Rec n)) :=
  returnCode (readNext T gran h)

/-! ### Writes -/

/-- Called with a current row only. -/
def fmDeleteLocked (T : TableShare n) (gran : Gran) (buf : Rec n) (h : Handler) :
    CoreProg n (HaResult Unit) :=
  match h.currentSlot with
  | none => return (.error .recordDeleted, h)
  | some idx => do
      if h.readCheckUsed then
        match ← fmCoreReadRow gran idx true h.currentGen with
        | .error e => return (.error e.toHa, h)
        | .ok scratch => if buf ≠ scratch then return (.error .recordChanged, h)
      match ← fmCoreDeleteRowLocked T.core gran idx h.currentGen with
      | .error e => return (.error e.toHa, h)
      | .ok _ =>
          return (.ok (), { h with
            update := { HaState.none with deleted := true }
            currentSlot := none })

/-- The guard of update_row and delete_row: whether the handler has the lock of its row. -/
def takeCurrentRow (h : Handler) : CoreProg n (Bool × Handler) :=
  if h.writeStmt ∧ h.rowLocked ∧ h.lockedSlot = h.currentSlot then
    return (true, h)
  else do
    let h ← (if h.writeStmt ∧ h.currentSlot ≠ none ∧ h.rowLocked = false then lockCurrentRow h
      else return h)
    if h.rowLocked ∧ h.lockedSlot = h.currentSlot then
      return (true, h)
    else
      let h ← unlockCurrentRow h
      return (false, h)

def deleteRow (T : TableShare n) (gran : Gran) (buf : Rec n) (h : Handler) : CoreProg n (HaResult Unit) := do
  let (taken, h) ← takeCurrentRow h
  if !taken then
    return (.error .recordChanged, h)
  else
    let (rc, h) ← fmDeleteLocked T gran buf h
    let h ← unlockCurrentRow h
    return (rc, h)

end Fastmem
