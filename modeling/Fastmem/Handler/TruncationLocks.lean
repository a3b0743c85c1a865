/-
The locks of handlers that also delete all rows (ha_fastmem.cc, fm_create.cc).

fm_core_clear takes the struct mutex and then the locks of the slots one by one. A handler keeps
the lock of its row between two calls and comes with it to the struct mutex, in delete_row and in
write_row. The two orders do not go together: handlers that delete all rows beside such calls, or
with a row lock of their own, can wait for each other for ever.
-/

import Fastmem.Handler.DeadlockFreedom

set_option autoImplicit false

namespace Fastmem

open Prog (perform forEach)
open ThreadSystem
open Locking.Orderly (bind ret)

variable {n : Nat} {t : Nat}

/-! ### delete_all_rows -/

def fmClear (T : TableShare n) (info : Info) : CoreProg n Info := do
  fmCoreClear T.core
  return { info with currentSlot := none, lastinx := none, update := HaState.none }

def deleteAllRows (T : TableShare n) (info : Info) : CoreProg n (RowRes n × Info) := do
  let info ← fmClear T info
  return (.changed (.ok ()), info)

inductive StatementCall (n : Nat)
  | row (call : RowCall n)
  | deleteAllRows
  deriving DecidableEq

def tableProgram (getRecBits : Bytes → Nat → Nat → UInt8) (T : TableShare n) (gran : Gran)
    (info : Info) : StatementCall n → CoreProg n (RowRes n × Info)
  | .row call => rowProgram getRecBits T gran info call
  | .deleteAllRows => deleteAllRows T info

def tableHandlers (getRecBits : Bytes → Nat → Nat → UInt8) (T : TableShare n) (gran : Gran) :
    ThreadSystem (coreMachine n) where
  Call := StatementCall n
  Res := RowRes n
  Loc := Info
  code _ call info := tableProgram getRecBits T gran info call
  allowed _ call info s :=
    match call with
    | .row call => call.allowed T info s
    | .deleteAllRows => true

/-! ### The order of fm_core_clear -/

/-- The struct mutex comes before the slots. -/
def Lock.clearOrder : Lock → Nat
  | .structMutex => 0
  | .wlock _ => 1
  | .bucket k b => lockRank (k, b) + 2

abbrev clearLocking (n : Nat) : Locking (coreMachine n) := (coreLocking n).reranked Lock.clearOrder

abbrev InClearOrder (t : Nat) {α : Type} (held : Set Lock) (program : CoreProg n α)
    (left : α → Set Lock) : Prop :=
  (clearLocking n).Orderly t held program left

/-- A lock that is taken under the struct mutex alone and given back behind some work. -/
theorem locked_inClearOrder {l : Lock} (above : 0 < l.clearOrder) (work : CoreProg n Unit)
    (lockless : work.Performs fun _ action => action.takes = none) :
    InClearOrder t (insert .structMutex ∅) (do
      perform (.lock l)
      work
      perform (.unlock l)) fun _ => insert .structMutex ∅ := by
  refine bind (Locking.Orderly.take (L := clearLocking n) rfl fun l' member => ?_) fun _ => ?_
  · cases member with
    | inl same =>
        rw [same]
        exact above
    | inr clash => exact absurd clash (Set.notMem_empty l')
  · refine bind (Locking.Orderly.takesNone (L := clearLocking n) lockless) fun _ => ?_
    exact Locking.Orderly.giveBack (L := clearLocking n) rfl rfl

theorem clear_inClearOrder (D : ShareDef n) : InClearOrder t ∅ (fmCoreClear D) fun _ => ∅ := by
  have free : ∀ {α : Type} {program : CoreProg n α},
      (program.Performs fun _ action => action.takes = none) →
      InClearOrder t (insert .structMutex ∅) program fun _ => insert .structMutex ∅ := fun work =>
    Locking.Orderly.takesNone (L := clearLocking n) work
  have buckets : InClearOrder t (insert .structMutex ∅) (clearBuckets D)
      fun _ => insert .structMutex ∅ := by
    refine Locking.Orderly.forEach fun k _ => Locking.Orderly.forEach fun b _ => ?_
    exact locked_inClearOrder (l := .bucket k b) (Nat.succ_pos _) _ (.perform rfl)
  have slots : ∀ total, InClearOrder (n := n) t (insert .structMutex ∅) (clearSlots total)
      fun _ => insert .structMutex ∅ := by
    intro total
    refine Locking.Orderly.forEach fun i _ => ?_
    exact locked_inClearOrder (l := .wlock i) Nat.one_pos (do
      perform (.storeState i .free)
      perform (.bumpGen i)) (.step rfl fun _ => .perform rfl)
  refine bind (Locking.Orderly.take (L := clearLocking n) rfl
    fun l member => absurd member (Set.notMem_empty l)) fun _ => ?_
  refine bind buckets fun _ => ?_
  refine bind (free (.perform rfl)) fun cnt => ?_
  refine bind (slots _) fun _ => ?_
  refine bind (free (.perform rfl)) fun _ => ?_
  refine bind (free (takesNone_of_lockfree (.forEach fun i _ => freeSlot_lockfree i))) fun _ => ?_
  exact bind (free (.perform rfl)) fun _ => Locking.Orderly.giveBack (L := clearLocking n) rfl rfl

/-! ### Runs -/

section Runs

variable {getRecBits : Bytes → Nat → Nat → UInt8} {T : TableShare n} {gran : Gran}

def StatementCall.order : StatementCall n → Lock → Nat
  | .row _ => Lock.order
  | .deleteAllRows => Lock.clearOrder

/-- A handler deletes all rows only while it has no row lock. -/
def MayStart (call : StatementCall n) (info : Info) : Prop :=
  call = .deleteAllRows → info.toHandler.held = none

theorem tableProgram_inOrder (getRecBits : Bytes → Nat → Nat → UInt8) (T : TableShare n)
    (gran : Gran) (call : StatementCall n) (info : Info) (may : MayStart call info) :
    ((coreLocking n).reranked call.order).Orderly t info.toHandler.locks
      (tableProgram getRecBits T gran info call) fun outcome => outcome.2.toHandler.locks := by
  cases call with
  | row call => exact rowProgram_inOrder getRecBits info call
  | deleteAllRows =>
      have none : info.toHandler.locks ⊆ ∅ := by
        intro l member
        obtain ⟨idx, held, _⟩ := member
        cases (may rfl).symm.trans held
      refine Locking.Orderly.fewer ?_ none
      have clears : InClearOrder t ∅ (fmClear T info) fun _ => ∅ :=
        bind (clear_inClearOrder T.core) fun _ => ret subset_rfl
      exact bind clears fun _ => ret (Set.empty_subset _)

/-- No handler with a row lock starts to delete all rows. While one handler deletes all rows and has
the struct mutex, no handler with a row lock wants it. -/
structure ClearsApart (R : (tableHandlers getRecBits T gran).Run) : Prop where
  unlocked : R.Meets (Locking.StartsWith MayStart)
  mutex : ∀ i, i ≤ R.len → ∀ u program, (R.cfg i).thread u = .busy .deleteAllRows program →
    (R.st i).owner .structMutex = some u → ∀ t idx, (R.st i).owner (.wlock idx) = some t →
    ¬ (coreLocking n).Wants (R.cfg i) t .structMutex

/-- Every row call wants a lock above all it holds in the one order and every truncation in the
other. Both do so in the second order while a truncation has the struct mutex, and in the first
while none has. -/
theorem ranked_of_kinds {c : (tableHandlers getRecBits T gran).Config}
    (ranked : (coreLocking n).RankedByKind StatementCall.order id c)
    (mutex : ∀ u program, c.thread u = .busy .deleteAllRows program →
      c.st.owner .structMutex = some u → ∀ t idx, c.st.owner (.wlock idx) = some t →
      ¬ (coreLocking n).Wants c t .structMutex) :
    (coreLocking n).Ranked c ∨ (clearLocking n).Ranked c := by
  by_cases clearing : ∃ u program, c.thread u = .busy .deleteAllRows program ∧
    c.st.owner .structMutex = some u
  · obtain ⟨u, program, busy, owner⟩ := clearing
    refine Or.inr fun t l l' wants holds => ?_
    obtain ⟨call, ρ, action, next, mine, _⟩ := wants.action
    have below := ranked t call _ l l' mine wants holds
    cases call with
    | deleteAllRows => exact below
    | row call =>
        change l'.order < l.order at below
        change l'.clearOrder < l.clearOrder
        cases l with
        | wlock i => cases l' <;> simp [Lock.order] at below
        | structMutex =>
            cases l' with
            | wlock idx => exact absurd wants (mutex u program busy owner t idx holds)
            | structMutex => exact absurd below (Nat.lt_irrefl _)
            | bucket k b => simp [Lock.order] at below
        | bucket k b =>
            cases l' with
            | wlock idx => simp [Lock.clearOrder]
            | structMutex => simp [Lock.clearOrder]
            | bucket k' b' => exact below
  · refine Or.inl fun t l l' wants holds => ?_
    obtain ⟨call, ρ, action, next, mine, _⟩ := wants.action
    have below := ranked t call _ l l' mine wants holds
    cases call with
    | row call => exact below
    | deleteAllRows =>
        change l'.clearOrder < l.clearOrder at below
        change l'.order < l.order
        cases l' with
        | structMutex => exact absurd ⟨t, _, mine, holds⟩ clearing
        | wlock i =>
            cases l with
            | wlock j => exact absurd below (Nat.lt_irrefl _)
            | structMutex => simp [Lock.clearOrder] at below
            | bucket k b => simp [Lock.order]
        | bucket k b =>
            cases l with
            | wlock j => simp [Lock.clearOrder] at below
            | structMutex => simp [Lock.clearOrder] at below
            | bucket k' b' => exact below

theorem tableHandlers_deadlockFree (getRecBits : Bytes → Nat → Nat → UInt8) (T : TableShare n)
    (gran : Gran) (R : (tableHandlers getRecBits T gran).Run) (garbage : Nat → Rec n) (heap : Heap)
    (readCheckUsed : Bool) (maxKeyLength activeIndex : Nat)
    (starts : R.StartsIn (Core.fresh garbage heap)
      (fmOpened readCheckUsed maxKeyLength activeIndex)) (apart : ClearsApart R) :
    ∀ i, i ≤ R.len → (coreLocking n).DeadlockFree (R.cfg i) := by
  intro i bound
  have ranked := (coreLocking n).run_rankedByKind StatementCall.order id .deleteAllRows
    (fun info : Info => info.toHandler.locks) MayStart
    (fun t call info => tableProgram_inOrder getRecBits T gran call info) starts (fun _ => rfl)
    apart.unlocked i bound
  have owners := Locking.owners_moved (L := coreLocking n) (R := R) (fun l => by
    unfold Run.st
    rw [starts]
    rfl) i bound
  rcases ranked_of_kinds ranked (apart.mutex i bound) with first | second
  · exact first.deadlockFree owners
  · exact Locking.DeadlockFree.of_reranked (second.deadlockFree owners)

end Runs

/-! ### Handlers beside a truncation -/

def oneRowLocked : List (Nat × Option (StatementCall 1)) :=
  List.flatten [callSteps 0 (.row (.externalLock .wrlck)) 1,
    callSteps 0 (.row (.writeRow true fun _ => 7)) 35,
    callSteps 0 (.row (.indexReadIdxMap 0 [7])) 19]

/-- Handler 0 updates its row and gives the lock back while handler 1 waits for it. -/
def waitingClear : List (Nat × Option (StatementCall 1)) :=
  List.flatten [oneRowLocked, callSteps 1 .deleteAllRows 8,
    callSteps 0 (.row (.updateRow (fun _ => 7) fun _ => 8)) 18, List.replicate 4 (1, none)]

theorem waitingClear_played : (play (S := tableHandlers zeroBits byteShare .whole)
    ⟨byteStart, fun _ => .idle (fmOpened false 1 64)⟩ waitingClear).isSome = true := by
  decide +kernel

def waitingClearRun : (tableHandlers zeroBits byteShare .whole).Run :=
  Run.ofSchedule ⟨byteStart, fun _ => .idle (fmOpened false 1 64)⟩ waitingClear waitingClear_played

/-- A truncation starts without a row lock. -/
def startsUnlocked (i : Nat) : Bool :=
  match (waitingClearRun.ev i).starting,
    ((waitingClearRun.cfg i).thread (waitingClearRun.tid i)).resting with
  | some .deleteAllRows, some info => decide (info.toHandler.held = none)
  | _, _ => true

/-- Handler 0 does not truncate, and nobody wants the struct mutex while handler 1 has it. -/
def leavesMutex (i : Nat) : Bool :=
  match ((waitingClearRun.cfg i).thread 0).calling with
  | some .deleteAllRows => false
  | _ => decide ((waitingClearRun.st i).owner .structMutex = some 1 → ∀ t ∈ List.range 2,
      ¬ (coreLocking 1).wanted ((waitingClearRun.cfg i).thread t) = some .structMutex)

theorem waitingClear_passes :
    (∀ i, i < 90 → startsUnlocked i = true ∧ waitingClearRun.tid i ≤ 1) ∧
    (∀ i, i ≤ 90 → leavesMutex i = true) ∧
    (coreLocking 1).wanted ((waitingClearRun.cfg 67).thread 1) = some (.wlock 0) ∧
    (coreLocking 1).owner (waitingClearRun.cfg 67).st (.wlock 0) = some 0 ∧
    ((waitingClearRun.st 90).slot 0).state = .free := by
  decide +kernel

theorem waitingClear_apart : ClearsApart waitingClearRun := by
  obtain ⟨steps, mutex, _⟩ := waitingClear_passes
  have others : ∀ t, 1 < t → ∀ i, i ≤ 90 →
      (waitingClearRun.cfg i).thread t = .idle (fmOpened false 1 64) := by
    intro t other i bound
    exact waitingClearRun.untouched (fun m below same => by
      have mover := (steps m below).2
      omega) i bound
  constructor
  · intro i bound call info started idle isClear
    subst isClear
    have passed := (steps i bound).1
    unfold startsUnlocked at passed
    rw [started, idle] at passed
    exact of_decide_eq_true passed
  · intro i bound u program busy owner t idx _ wants
    have passed := mutex i bound
    unfold leavesMutex at passed
    -- handlers other than 0 and 1 rest
    obtain _ | _ | u := u
    · rw [busy] at passed
      cases passed
    · have mover : t ≤ 1 := by
        by_contra other
        have wanted := wants
        unfold Locking.Wants at wanted
        rw [others t (by omega) i bound] at wanted
        cases wanted
      generalize ((waitingClearRun.cfg i).thread 0).calling = calling at passed
      split at passed
      · cases passed
      · exact of_decide_eq_true passed owner t (List.mem_range.mpr (by omega)) wants
    · rw [others (u + 2) (by omega) i bound] at busy
      cases busy

theorem waitingClear_waits : (coreLocking 1).WaitsFor (waitingClearRun.cfg 67) 1 0 :=
  ⟨.wlock 0, waitingClear_passes.2.2.1, waitingClear_passes.2.2.2.1⟩

theorem tableHandlers_deadlockFree_waitingClear :
    (coreLocking 1).WaitsFor (waitingClearRun.cfg 67) 1 0 ∧
    ((waitingClearRun.st 90).slot 0).state = .free ∧
    ∀ i, i ≤ waitingClearRun.len → (coreLocking 1).DeadlockFree (waitingClearRun.cfg i) :=
  ⟨waitingClear_waits, waitingClear_passes.2.2.2.2, tableHandlers_deadlockFree zeroBits byteShare
    .whole waitingClearRun _ _ false 1 64 rfl waitingClear_apart⟩

/-- Handler 0 deletes its row and comes to the struct mutex, and handler 1 takes it. -/
def crossedClear : List (Nat × Option (StatementCall 1)) :=
  List.flatten [oneRowLocked, callSteps 0 (.row (.deleteRow fun _ => 7)) 13,
    callSteps 1 .deleteAllRows 8]

theorem crossedClear_played : (play (S := tableHandlers zeroBits byteShare .whole)
    ⟨byteStart, fun _ => .idle (fmOpened false 1 64)⟩ crossedClear).isSome = true := by
  decide +kernel

def crossedClearRun : (tableHandlers zeroBits byteShare .whole).Run :=
  Run.ofSchedule ⟨byteStart, fun _ => .idle (fmOpened false 1 64)⟩ crossedClear crossedClear_played

/-- Handler 0 has the row and deletes all rows. -/
def ownClear : List (Nat × Option (StatementCall 1)) :=
  List.flatten [oneRowLocked, callSteps 0 .deleteAllRows 8]

theorem ownClear_played : (play (S := tableHandlers zeroBits byteShare .whole)
    ⟨byteStart, fun _ => .idle (fmOpened false 1 64)⟩ ownClear).isSome = true := by
  decide +kernel

def ownClearRun : (tableHandlers zeroBits byteShare .whole).Run :=
  Run.ofSchedule ⟨byteStart, fun _ => .idle (fmOpened false 1 64)⟩ ownClear ownClear_played

theorem crossedClear_locks :
    ((coreLocking 1).wanted ((crossedClearRun.cfg 81).thread 0) = some .structMutex ∧
      (coreLocking 1).owner (crossedClearRun.cfg 81).st .structMutex = some 1) ∧
    ((coreLocking 1).wanted ((crossedClearRun.cfg 81).thread 1) = some (.wlock 0) ∧
      (coreLocking 1).owner (crossedClearRun.cfg 81).st (.wlock 0) = some 0) ∧
    (coreLocking 1).wanted ((ownClearRun.cfg 67).thread 0) = some (.wlock 0) ∧
      (coreLocking 1).owner (ownClearRun.cfg 67).st (.wlock 0) = some 0 := by
  decide +kernel

/-- The handlers wait for each other, and handler 0 for itself. -/
theorem tableHandlers_deadlockFree_broken :
    ((coreLocking 1).WaitsFor (crossedClearRun.cfg 81) 0 1 ∧
      (coreLocking 1).WaitsFor (crossedClearRun.cfg 81) 1 0 ∧
      ¬ (coreLocking 1).DeadlockFree (crossedClearRun.cfg 81)) ∧
    (coreLocking 1).WaitsFor (ownClearRun.cfg 67) 0 0 ∧
      ¬ (coreLocking 1).DeadlockFree (ownClearRun.cfg 67) := by
  obtain ⟨⟨wants, owner⟩, ⟨wants', owner'⟩, own, mine⟩ := crossedClear_locks
  have first : (coreLocking 1).WaitsFor (crossedClearRun.cfg 81) 0 1 := ⟨.structMutex, wants, owner⟩
  have second : (coreLocking 1).WaitsFor (crossedClearRun.cfg 81) 1 0 := ⟨.wlock 0, wants', owner'⟩
  have self : (coreLocking 1).WaitsFor (ownClearRun.cfg 67) 0 0 := ⟨.wlock 0, own, mine⟩
  refine ⟨⟨first, second, fun free => ?_⟩, self, fun free => ?_⟩
  · refine free.noCircle {0, 1} ⟨0, Or.inl rfl⟩ fun t member => ?_
    rcases member with rfl | rfl
    · exact ⟨1, Or.inr rfl, first⟩
    · exact ⟨0, Or.inl rfl, second⟩
  · refine free.noCircle {0} ⟨0, rfl⟩ fun t member => ?_
    cases member
    exact ⟨0, rfl, self⟩

end Fastmem
