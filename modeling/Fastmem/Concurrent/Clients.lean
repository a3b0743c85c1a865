/-
Any number of threads that call the core.

A thread makes one call after another. `lockRow` and `unlockRow` are the slot
lock a caller of a `_locked` function takes and releases itself. The conditions
of this module say, step by step, what callers see to and which overlaps of
calls do not happen; `coreFit` derives the ownership protocol from them.
-/

import Fastmem.Concurrent.ClearTriples

set_option autoImplicit false

namespace Fastmem

open Prog (perform iterate forEach foldEach)
open ThreadSystem

variable {n : Nat}

inductive CoreCall (n : Nat)
  | insertRow (rec : Rec n)
  | updateRow (idx : Nat) (g : UInt32) (old new : Rec n)
  | updateRowLocked (idx : Nat) (g : UInt32) (old new : Rec n)
  | deleteRow (idx : Nat) (g : UInt32)
  | deleteRowLocked (idx : Nat) (g : UInt32)
  | clear
  | readRow (idx : Nat) (checkGen : Bool) (g : UInt32)
  | find (key : Nat) (packed : PackedKey)
  | findNext (key : Nat) (packed : PackedKey) (cur : Option Nat)
  | scanNext (pos : Nat)
  | lockRow (idx : Nat)
  | unlockRow (idx : Nat)
  deriving DecidableEq

inductive CoreRes (n : Nat)
  | inserted (result : Except Err Nat)
  | changed (result : Except Err Unit)
  | read (result : Except Err (Rec n))
  | found (result : Except Err (Nat × Rec n))
  | scanned (pos : Nat) (result : Except Err (Rec n))
  | done
  deriving DecidableEq

def CoreCall.program (D : ShareDef n) (gran : Gran) : CoreCall n → CoreProg n (CoreRes n)
  | .insertRow rec => do return .inserted (← fmCoreInsertRow D gran rec)
  | .updateRow idx g old new => do return .changed (← fmCoreUpdateRow D gran idx g old new)
  | .updateRowLocked idx g old new => do
      return .changed (← fmCoreUpdateRowLocked D gran idx g old new)
  | .deleteRow idx g => do return .changed (← fmCoreDeleteRow D gran idx g)
  | .deleteRowLocked idx g => do return .changed (← fmCoreDeleteRowLocked D gran idx g)
  | .clear => do fmCoreClear D; return .done
  | .readRow idx checkGen g => do return .read (← fmCoreReadRow gran idx checkGen g)
  | .find key packed => do return .found (← fmCoreFind D gran key packed)
  | .findNext key packed cur => do return .found (← fmCoreFindNext D gran key packed cur)
  | .scanNext pos => do
      let (pos', row) ← fmCoreScanNext gran pos
      return .scanned pos' row
  | .lockRow idx => do perform (.lock (.wlock idx)); return .done
  | .unlockRow idx => do perform (.unlock (.wlock idx)); return .done

/-- Slot numbers are those of allocated slots, key numbers those of the table, and the
caller of a `_locked` function holds the slot lock. -/
def CoreCall.allowed (D : ShareDef n) (t : Nat) (s : Core n) : CoreCall n → Bool
  | .updateRow idx _ _ _ | .deleteRow idx _ | .readRow idx _ _ | .lockRow idx =>
      decide (idx < s.slotCount)
  | .updateRowLocked idx _ _ _ | .deleteRowLocked idx _ | .unlockRow idx =>
      s.owner (.wlock idx) == some t
  | .find key _ | .findNext key _ _ => decide (key < D.keys)
  | .insertRow _ | .clear | .scanNext _ => true

/-- Threads keep nothing between two calls but their locks. -/
def coreClients (D : ShareDef n) (gran : Gran) : ThreadSystem (coreMachine n) where
  Call := CoreCall n
  Res := CoreRes n
  Loc := Unit
  code _ call _ := do return (← call.program D gran, ())
  allowed t call _ s := call.allowed D t s

/-! ### What callers see to -/

section Conditions

variable {D : ShareDef n} {gran : Gran}

def CoreCall.updates : CoreCall n → Option (Nat × UInt32 × Rec n × Rec n)
  | .updateRow idx g old new | .updateRowLocked idx g old new => some (idx, g, old, new)
  | _ => none

/-- The call of thread `t` is an update of this kind. -/
def Updates (c : (coreClients D gran).Config) (t idx : Nat) (g : UInt32) (old new : Rec n) : Prop :=
  ∃ call program, c.thread t = .busy call program ∧ call.updates = some (idx, g, old, new)

/-- An update that finds its row live was given the row's image as the old record. -/
def PassesCurrent (c : (coreClients D gran).Config) (t : Nat) :
    (coreClients D gran).Event → Prop
  | .act (.loadGen idx) _ => ∀ g old new, Updates c t idx g old new →
      (c.st.slot idx).state = .active → (c.st.slot idx).gen = g → (c.st.slot idx).data = old
  | _ => True

/-- Thread `u` truncates the table and has the struct mutex. -/
def Clearing (c : (coreClients D gran).Config) (u : Nat) : Prop :=
  (∃ program, c.thread u = .busy .clear program) ∧ c.st.owner .structMutex = some u

def clearPassed {α : Type} (k b : Nat) : CoreProg n α → Prop
  | .act (.lock (.bucket k' b')) _ => bucketBefore k b k' b'
  | .act (.storeCell (.head k' b') _) _ => bucketBefore k b k' b'
  | .act (.unlock (.bucket k' b')) _ => ¬ bucketBefore k' b' k b
  | _ => True

/-- Deletes and truncations do not overlap, and no update links its row into a bucket that a
running truncation has emptied. -/
def TruncatesApart (c : (coreClients D gran).Config) (t : Nat) :
    (coreClients D gran).Event → Prop
  | .act (.lock .structMutex) _ =>
      (∃ program, c.thread t = .busy .clear program) → NoDeleteUnderWay c.st
  | .act (.storeState _ .deleting) _ => ∀ u, ¬ Clearing c u
  | .act (.storeCell (.head k b) (some idx)) _ => ∀ g old new, Updates c t idx g old new →
      ∀ u program, c.thread u = .busy .clear program → Clearing c u → ¬ clearPassed k b program
  | _ => True

/-- The duplicate check of an update reads no row that an insert has linked and not yet
published and that equals the new record in a unique key the update changes. -/
def ReadsPublished (c : (coreClients D gran).Config) (t : Nat) :
    (coreClients D gran).Event → Prop
  | .act (.loadState y) _ => ∀ idx g old new, Updates c t idx g old new → y ≠ idx →
      (c.st.slot y).state.unused → ∀ k ∈ changedKeys D old new,
        dupChecked (D.keydef k) new = true →
        (D.keydef k).ops.cmpRecRec (c.st.slot y).data new ≠ 0
  | _ => True

def StartsNoClear (_ : (coreClients D gran).Config) (_ : Nat) :
    (coreClients D gran).Event → Prop
  | .start .clear => False
  | _ => True

end Conditions

end Fastmem
