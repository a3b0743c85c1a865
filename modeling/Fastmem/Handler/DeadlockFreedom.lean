/-
Handlers never wait for each other in a circle (ha_fastmem.cc).

A handler comes to a call with the lock of the row it has noted or with none. It
gives that lock back before it takes the lock of another row, so every lock it
takes is above all that it holds. A handler that cannot go on therefore waits, at
the end of a chain of waiting handlers, for one that can go on or that rests
between two of its calls.
-/

import Fastmem.Concurrent.OrderedLocks
import Fastmem.Handler.ReadCycles

set_option autoImplicit false

namespace Fastmem

open Prog (perform)
open ThreadSystem
open Locking.Orderly (bind ret)

variable {n : Nat} {t : Nat} {T : TableShare n} {gran : Gran} {h : Handler}

def Handler.locks (h : Handler) : Set Lock := { l | ∃ idx, h.held = some idx ∧ l = .wlock idx }

theorem Handler.locks_rows (h : Handler) : RowsOnly h.locks := by
  intro l member
  obtain ⟨idx, _, rfl⟩ := member
  rfl

theorem Handler.locks_congr {h' : Handler} (same : h'.held = h.held) : h.locks ⊆ h'.locks := by
  intro l member
  obtain ⟨idx, held, isLock⟩ := member
  exact ⟨idx, same.trans held, isLock⟩

/-! ### The row lock -/

theorem unlockCurrentRow_inOrder (h : Handler) :
    InOrder (n := n) t h.locks (unlockCurrentRow h) fun _ => ∅ := by
  have unlocked : h.held = none → h.locks ⊆ ∅ := by
    intro none l member
    obtain ⟨idx, held, _⟩ := member
    cases none.symm.trans held
  unfold unlockCurrentRow
  split
  · rename_i idx locked slot
    have only : h.locks ⊆ insert (.wlock idx) ∅ := by
      intro l member
      obtain ⟨other, held, rfl⟩ := member
      rw [Handler.held, locked, if_pos rfl, slot] at held
      cases held
      exact Or.inl rfl
    exact bind (Locking.Orderly.fewer InOrder.unlock only) fun _ => ret (Set.empty_subset _)
  · rename_i locked slot
    refine ret (unlocked ?_)
    rw [Handler.held, locked, if_pos rfl, slot]
  · rename_i locked
    refine ret (unlocked ?_)
    rw [Handler.held, locked, if_neg Bool.false_ne_true]

theorem lockCurrentRow_inOrder (h : Handler) :
    InOrder (n := n) t h.locks (lockCurrentRow h) fun h' => h'.locks := by
  unfold lockCurrentRow
  split
  · exact ret subset_rfl
  · rename_i idx _
    split
    · exact ret subset_rfl
    · refine bind (unlockCurrentRow_inOrder h) fun h' => ?_
      refine bind (InOrder.lock fun l member => absurd member (Set.notMem_empty l)) fun _ => ?_
      refine ret fun l member => ⟨idx, rfl, ?_⟩
      cases member with
      | inl same => exact same
      | inr clash => exact absurd clash (Set.notMem_empty l)

theorem takeCurrentRow_inOrder (h : Handler) :
    InOrder (n := n) t h.locks (takeCurrentRow h) fun outcome => outcome.2.locks := by
  unfold takeCurrentRow
  split
  · exact ret subset_rfl
  · have locked : InOrder (n := n) t h.locks (if h.writeStmt = true ∧ h.currentSlot ≠ none ∧
        h.rowLocked = false then lockCurrentRow h else return h) fun h' => h'.locks := by
      split
      · exact lockCurrentRow_inOrder h
      · exact ret subset_rfl
    refine bind locked fun h' => ?_
    split
    · exact ret subset_rfl
    · exact bind (unlockCurrentRow_inOrder h') fun _ => ret (Set.empty_subset _)

/-! ### Row reads -/

theorem fmRereadLocked_inOrder (h : Handler) :
    InOrder (n := n) t h.locks (fmRereadLocked gran h) fun outcome => outcome.2.locks := by
  unfold fmRereadLocked
  split
  · exact ret subset_rfl
  · rename_i idx _
    refine bind (InOrder.reads (.perform trivial)) fun g => ?_
    refine bind (InOrder.reads (readRow_reads idx true g)) fun row => ?_
    cases row with
    | ok record => exact ret (Handler.locks_congr rfl)
    | error e => exact ret subset_rfl

theorem rowRead_inOrder (gone : HaErr) (found : Except HaErr (Rec n)) (h : Handler) :
    InOrder t h.locks (rowRead gran gone found h) fun outcome => outcome.2.locks := by
  cases found with
  | error e => exact ret subset_rfl
  | ok record =>
      have again : InOrder t h.locks (afterRead gran gone record h)
          fun outcome => outcome.2.locks := by
        unfold afterRead
        split
        · refine bind (lockCurrentRow_inOrder h) fun locked => ?_
          refine bind (fmRereadLocked_inOrder locked) fun outcome => ?_
          obtain ⟨row, read⟩ := outcome
          cases row with
          | ok record => exact ret subset_rfl
          | error e =>
              exact bind (unlockCurrentRow_inOrder read) fun _ => ret (Set.empty_subset _)
        · exact ret subset_rfl
      refine bind again fun outcome => ?_
      obtain ⟨row, read⟩ := outcome
      cases row with
      | ok record => exact ret subset_rfl
      | error e => exact ret subset_rfl

theorem readIdxMap_inOrder (inx : Nat) (key : PackedKey) (h : Handler) :
    InOrder t h.locks (readIdxMap T gran inx key h) fun outcome => outcome.2.locks := by
  have looks : InOrder t h.locks (fmFindKey T gran inx key h) fun outcome => outcome.2.locks := by
    refine bind (find_inOrder h.locks_rows.noBucket inx key) fun found => ?_
    cases found with
    | error e => exact ret (Handler.locks_congr rfl)
    | ok pair =>
        refine bind (InOrder.reads (.perform trivial)) fun g => ret (Handler.locks_congr ?_)
        dsimp only
        split <;> rfl
  exact bind looks fun outcome => rowRead_inOrder .keyNotFound outcome.1 outcome.2

theorem readNext_inOrder (h : Handler) :
    InOrder t h.locks (readNext T gran h) fun outcome => outcome.2.locks := by
  unfold readNext
  split
  · exact ret subset_rfl
  · rename_i inx _
    have looks : InOrder t h.locks (fmFindNextKey T gran inx h.lastkey h.currentSlot h)
        fun outcome => outcome.2.locks := by
      refine bind (findNext_inOrder h.locks_rows.noBucket inx _ _) fun found => ?_
      cases found with
      | error e => exact ret (Handler.locks_congr rfl)
      | ok pair =>
          refine bind (InOrder.reads (.perform trivial)) fun g => ret (Handler.locks_congr ?_)
          dsimp only
          split <;> rfl
    refine bind looks fun outcome => ?_
    obtain ⟨found, read⟩ := outcome
    cases found with
    | ok record => exact rowRead_inOrder .keyNotFound (.ok record) read
    | error e =>
        dsimp only
        split
        · exact ret subset_rfl
        · exact ret subset_rfl

theorem readUnique_inOrder (getRecBits : Bytes → Nat → Nat → UInt8) (record : Rec n)
    (uniqueIdx : Nat) (h : Handler) :
    InOrder t h.locks (readUnique getRecBits T gran record uniqueIdx h)
      fun outcome => outcome.2.locks := by
  unfold readUnique
  dsimp only
  split
  · exact ret subset_rfl
  · refine bind (find_inOrder h.locks_rows.noBucket uniqueIdx _) fun found => ?_
    cases found with
    | error e => exact ret (Handler.locks_congr rfl)
    | ok pair =>
        refine bind (InOrder.reads (.perform trivial)) fun g => ?_
        refine Locking.Orderly.fewer (rowRead_inOrder .keyNotFound (.ok pair.2) _) ?_
        exact Handler.locks_congr rfl

theorem scanned_inOrder {program : CoreProg n (Except HaErr (Rec n) × Info)} {info : Info}
    (looks : InOrder t info.toHandler.locks program fun outcome => outcome.2.toHandler.locks)
    (gone : HaErr) :
    InOrder t info.toHandler.locks (do
      let (found, info) ← program
      let (res, h) ← rowRead gran gone found info.toHandler
      return (res, { info with toHandler := h })) fun outcome => outcome.2.toHandler.locks := by
  refine bind looks fun outcome => ?_
  exact bind (rowRead_inOrder gone outcome.1 outcome.2.toHandler) fun _ => ret subset_rfl

theorem rndNext_inOrder (info : Info) :
    InOrder (n := n) t info.toHandler.locks (rndNext gran info)
      fun outcome => outcome.2.toHandler.locks := by
  refine scanned_inOrder (bind (InOrder.reads (scanNext_reads info.scanPos)) fun outcome => ?_) _
  obtain ⟨pos, row⟩ := outcome
  cases row with
  | error e => exact ret (Handler.locks_congr rfl)
  | ok record =>
      dsimp only
      cases toSlot (pos - 1) with
      | none => exact ret (Handler.locks_congr rfl)
      | some idx =>
          exact bind (InOrder.reads (.perform trivial)) fun g => ret (Handler.locks_congr rfl)

theorem rndPos_inOrder (pos : SlotRef) (info : Info) :
    InOrder (n := n) t info.toHandler.locks (rndPos gran pos info)
      fun outcome => outcome.2.toHandler.locks := by
  refine scanned_inOrder ?_ _
  unfold fmRrnd
  cases pos.slot with
  | none => exact ret (Handler.locks_congr rfl)
  | some idx =>
      refine bind (InOrder.reads (readRow_reads idx true pos.gen)) fun row => ?_
      cases row with
      | error e => exact ret (Handler.locks_congr rfl)
      | ok record => exact ret (Handler.locks_congr rfl)

/-! ### Row writes -/

theorem Handler.noteErr_held (h : Handler) (e : Err) : (h.noteErr e).held = h.held := by
  cases e <;> rfl

theorem writeRow_inOrder (numbered : Bool) (record : Rec n) (h : Handler) :
    InOrder t h.locks (writeRow T gran numbered record h) fun outcome => outcome.2.locks := by
  unfold writeRow
  split
  · have writes : InOrder t h.locks (fmWriteRow T gran record h) fun outcome => outcome.2.locks := by
      refine bind (insertRow_inOrder h.locks_rows record) fun inserted => ?_
      cases inserted with
      | error e => exact ret (Handler.locks_congr (h.noteErr_held e))
      | ok idx =>
          exact bind (InOrder.reads (.perform trivial)) fun g => ret (Handler.locks_congr rfl)
    exact bind writes fun _ => ret subset_rfl
  · exact ret subset_rfl

theorem fmUpdateRowLocked_inOrder (old new : Rec n) (h : Handler) :
    InOrder t h.locks (fmUpdateRowLocked T gran old new h) fun outcome => outcome.2.locks := by
  unfold fmUpdateRowLocked fmUpdateLockedOn
  split
  · exact ret subset_rfl
  · rename_i idx _
    refine bind (InOrder.reads (readCheck_reads idx old h)) fun checked => ?_
    cases checked with
    | error e => exact ret subset_rfl
    | ok _ =>
        refine bind (updateRowLocked_inOrder h.locks_rows.noBucket idx _ old new) fun result => ?_
        cases result with
        | error e => exact ret (Handler.locks_congr (h.noteErr_held e))
        | ok _ => exact ret (Handler.locks_congr rfl)

theorem fmDeleteLocked_inOrder (buf : Rec n) (h : Handler) :
    InOrder t h.locks (fmDeleteLocked T gran buf h) fun outcome => outcome.2.locks := by
  unfold fmDeleteLocked
  split
  · exact ret subset_rfl
  · rename_i idx _
    split
    · refine bind (InOrder.reads (readRow_reads idx true _)) fun row => ?_
      cases row with
      | error e => exact ret subset_rfl
      | ok scratch =>
          dsimp only
          split
          · exact ret subset_rfl
          · refine bind (deleteRowLocked_inOrder h.locks_rows idx h.currentGen) fun result => ?_
            cases result with
            | error e => exact ret subset_rfl
            | ok _ => exact ret (Handler.locks_congr rfl)
    · refine bind (deleteRowLocked_inOrder h.locks_rows idx h.currentGen) fun result => ?_
      cases result with
      | error e => exact ret subset_rfl
      | ok _ => exact ret (Handler.locks_congr rfl)

theorem takenWrite_inOrder {write : Handler → CoreProg n (HaResult Unit)}
    (writes : ∀ h', InOrder t h'.locks (write h') fun outcome => outcome.2.locks) (h : Handler) :
    InOrder t h.locks (do
      let (taken, h) ← takeCurrentRow h
      if !taken then
        return (.error .recordChanged, h)
      else
        let (rc, h) ← write h
        let h ← unlockCurrentRow h
        return (rc, h)) fun outcome => outcome.2.locks := by
  refine bind (takeCurrentRow_inOrder h) fun outcome => ?_
  obtain ⟨taken, kept⟩ := outcome
  cases taken with
  | false => exact ret subset_rfl
  | true =>
      refine bind (writes kept) fun written => ?_
      exact bind (unlockCurrentRow_inOrder written.2) fun _ => ret (Set.empty_subset _)

/-! ### Calls -/

theorem onHandler_inOrder {α : Type} {program : Handler → CoreProg n (α × Handler)} {info : Info}
    (orderly : InOrder t info.toHandler.locks (program info.toHandler)
      fun outcome => outcome.2.locks) :
    InOrder t info.toHandler.locks (onHandler program info)
      fun outcome => outcome.2.toHandler.locks :=
  bind orderly fun _ => ret subset_rfl

theorem unlockFirst_inOrder (forget : Info → Info) (info : Info) :
    InOrder (n := n) t info.toHandler.locks (do
      let h ← unlockCurrentRow info.toHandler
      return forget { info with toHandler := h }) fun info' => info'.toHandler.locks :=
  bind (unlockCurrentRow_inOrder info.toHandler) fun _ => ret (Set.empty_subset _)

theorem rowProgram_inOrder (getRecBits : Bytes → Nat → Nat → UInt8) (info : Info)
    (call : RowCall n) : InOrder t info.toHandler.locks (rowProgram getRecBits T gran info call)
      fun outcome => outcome.2.toHandler.locks := by
  cases call with
  | externalLock lockType =>
      unfold rowProgram
      refine onHandler_inOrder ?_
      cases lockType with
      | rdlck => exact ret subset_rfl
      | wrlck => exact ret (Handler.locks_congr rfl)
      | unlck =>
          refine bind (Locking.Orderly.fewer (unlockCurrentRow_inOrder _) ?_) fun _ =>
            ret (Set.empty_subset _)
          exact Handler.locks_congr rfl
  | indexInit inx => exact ret (Handler.locks_congr rfl)
  | indexReadMap key => exact onHandler_inOrder (readIdxMap_inOrder info.activeIndex key _)
  | indexReadLastMap key => exact onHandler_inOrder (readIdxMap_inOrder info.activeIndex key _)
  | indexReadIdxMap inx key => exact onHandler_inOrder (readIdxMap_inOrder inx key _)
  | indexNext => exact onHandler_inOrder (readNext_inOrder _)
  | rndInit scan =>
      cases scan with
      | false => exact ret subset_rfl
      | true => exact bind (unlockFirst_inOrder fmScanInit info) fun _ => ret subset_rfl
  | rndNext => exact rndNext_inOrder info
  | rndPos pos => exact rndPos_inOrder pos info
  | findUniqueRow record uniqueIdx =>
      exact onHandler_inOrder (readUnique_inOrder getRecBits record uniqueIdx _)
  | writeRow numbered record => exact onHandler_inOrder (writeRow_inOrder numbered record _)
  | updateRow old new =>
      unfold rowProgram
      refine onHandler_inOrder ?_
      exact bind (takenWrite_inOrder (fmUpdateRowLocked_inOrder old new) _) fun _ => ret subset_rfl
  | deleteRow buf =>
      unfold rowProgram
      refine onHandler_inOrder ?_
      exact bind (takenWrite_inOrder (fmDeleteLocked_inOrder buf) _) fun _ => ret subset_rfl
  | reset => exact bind (unlockFirst_inOrder fmReset info) fun _ => ret subset_rfl

/-- In every configuration that handlers come to, none of them wait for each other in a circle and
all waiting ends at a handler that can go on or rests. -/
theorem rowHandlers_deadlockFree (getRecBits : Bytes → Nat → Nat → UInt8) (T : TableShare n)
    (gran : Gran) (R : (rowHandlers getRecBits T gran).Run) (garbage : Nat → Rec n) (heap : Heap)
    (opened : Info) (starts : R.StartsIn (Core.fresh garbage heap) opened) :
    ∀ i, i ≤ R.len → (coreLocking n).DeadlockFree (R.cfg i) := by
  refine Locking.run_deadlockFree (fun info : Info => info.toHandler.locks) ?_ starts
    fun _ => rfl
  intro t call info
  exact rowProgram_inOrder getRecBits info call

theorem cycleTurns_wants :
    (coreLocking 1).wanted ((cycleTurnsRun.cfg 71).thread 1) = some (.wlock 0) := by
  decide +kernel

theorem cycleTurns_holds :
    (coreLocking 1).owner (cycleTurnsRun.cfg 71).st (.wlock 0) = some 0 := by
  decide +kernel

theorem cycleTurns_waits : (coreLocking 1).WaitsFor (cycleTurnsRun.cfg 71) 1 0 :=
  ⟨.wlock 0, cycleTurns_wants, cycleTurns_holds⟩

/-- Handler 1 waits for handler 0, which rests with the lock of the row. -/
theorem rowHandlers_deadlockFree_cycleTurns :
    (coreLocking 1).WaitsFor (cycleTurnsRun.cfg 71) 1 0 ∧
      ∀ i, i ≤ cycleTurnsRun.len → (coreLocking 1).DeadlockFree (cycleTurnsRun.cfg i) :=
  ⟨cycleTurns_waits, rowHandlers_deadlockFree zeroBits byteShare .whole cycleTurnsRun
    (fun _ _ => 0) ⟨fun _ => true, 0, 0⟩ (fmOpened false 1 64) rfl⟩

end Fastmem
