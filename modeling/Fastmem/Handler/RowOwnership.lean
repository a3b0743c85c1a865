/-
Row-lock ownership of many handlers.

In every run of any number of handlers a handler that is between two calls has
noted exactly the slot lock that it owns, whatever its lookups found and
whatever the others did. Nobody unlocks what another one owns, and the calls
that are to give the lock back do so.
-/

import Fastmem.Handler.LooseScans
import Fastmem.Handler.RowLocks

set_option autoImplicit false

namespace Fastmem

open ThreadSystem

variable {n : Nat}

/-! ### The calls keep to the protocol -/

theorem flipOpen_uncleared (S : Setting n) (idx : Nat) :
    CoreTriple.FlipOpen S (unclearedPromise S) idx :=
  fun _ _ _ uncleared u cleared emptied role => uncleared u ⟨cleared, emptied, role⟩

theorem RowCall.rndPos_valid {T : TableShare n} {info : Info} {s : Core n} {call : RowCall n}
    (allowed : call.allowed T info s = true) :
    ∀ pos, call = .rndPos pos → ∀ idx, pos.slot = some idx → idx < s.slotCount := by
  rintro pos rfl idx slot
  have checked : pos.slot.all (fun idx => decide (idx < s.slotCount)) = true := allowed
  rw [slot] at checked
  exact of_decide_eq_true checked

theorem rowHandlers_obedient (getRecBits : Bytes → Nat → Nat → UInt8) (T : TableShare n)
    (gran : Gran) :
    Obedient (looseSetting T.core gran) (rowHandlers getRecBits T gran) LockKept where
  later := by
    rintro info slots seen seen' ⟨noted, sound, below⟩ more
    exact ⟨noted, sound, below.mono more⟩
  code := by
    rintro t call info _ s allowed _ ⟨rfl, sound, below⟩
    have triple : CoreTriple (looseSetting T.core gran) t false (unclearedPromise _)
        (Ghost.rest (rowSlots info.toHandler.held) s.slotCount)
        (rowProgram getRecBits T gran info call) fun outcome ghost' =>
          RowKept outcome.2.toHandler ghost' :=
      rowProgram_kept (S := looseSetting T.core gran) getRecBits T rfl call
        (fun _ _ _ => .unlinked id) (flipOpen_uncleared _) (RowCall.rndPos_valid allowed) sound below
    refine triple.mono ?_
    rintro outcome _ ⟨seen, rfl, sound', below'⟩
    exact ⟨rowSlots outcome.2.toHandler.held, seen, Ended.rest, rfl, sound', below'⟩

/-- A handler that fm_open has just made; its key buffer is zeroed. The server has set the number
of its index. -/
def fmOpened (readCheckUsed : Bool) (maxKeyLength activeIndex : Nat) : Info where
  currentSlot := none
  currentGen := 0
  lastinx := none
  lastkey := List.replicate maxKeyLength 0
  lastkeyLen := 0
  errkey := -1
  update := HaState.none
  readCheckUsed := readCheckUsed
  activeIndex := activeIndex
  writeStmt := false
  rowLocked := false
  lockedSlot := none
  scanPos := 0

theorem fmOpened_kept (readCheckUsed : Bool) (maxKeyLength activeIndex : Nat) :
    LockKept (fmOpened readCheckUsed maxKeyLength activeIndex) (fun _ => false) 0 := by
  refine ⟨?_, fun locked => ?_, fun idx current => ?_⟩
  · funext idx
    rfl
  · cases locked
  · cases current

/-! ### Calls that give the lock back -/

section Released

variable {T : TableShare n} {gran : Gran} {S : ThreadSystem (coreMachine n)} {R : S.Run}
  {t i j : Nat} {h h' : Handler}

theorem unlockCurrentRow_released (performed : Performed R t i (unlockCurrentRow h) j h') :
    h'.rowLocked = false := by
  unfold unlockCurrentRow at performed
  split at performed
  · obtain ⟨_, _, _, rest⟩ := performed.bind_inv
    rw [rest.pure_inv]
  · rw [performed.pure_inv]
  · rename_i free
    rw [performed.pure_inv]
    exact free

theorem takeCurrentRow_released (performed : Performed R t i (takeCurrentRow h) j (false, h')) :
    h'.rowLocked = false := by
  unfold takeCurrentRow at performed
  split at performed
  · cases performed.pure_inv
  · obtain ⟨_, locked, _, rest⟩ := performed.bind_inv
    split at rest
    · cases rest.pure_inv
    · obtain ⟨_, unlocked, unlock, done⟩ := rest.bind_inv
      cases done.pure_inv
      exact unlockCurrentRow_released unlock

theorem takenWrite_released {write : Handler → CoreProg n (HaResult Unit)}
    {result : Except HaErr Unit}
    (performed : Performed R t i (do
      let (taken, h) ← takeCurrentRow h
      if !taken then
        return (.error .recordChanged, h)
      else
        let (rc, h) ← write h
        let h ← unlockCurrentRow h
        return (rc, h)) j (result, h')) :
    h'.rowLocked = false := by
  obtain ⟨_, ⟨taken, kept⟩, take, rest⟩ := performed.bind_inv
  cases taken with
  | false =>
      cases rest.pure_inv
      exact takeCurrentRow_released take
  | true =>
      obtain ⟨_, _, _, rest⟩ := Performed.bind_inv rest
      obtain ⟨_, unlocked, unlock, done⟩ := rest.bind_inv
      cases done.pure_inv
      exact unlockCurrentRow_released unlock

theorem rowRead_released {gone e : HaErr} {found : Except HaErr (Rec n)}
    (performed : Performed R t i (rowRead gran gone found h) j (.gone e, h')) :
    h'.rowLocked = false := by
  cases found with
  | error e => cases performed.pure_inv
  | ok record =>
      obtain ⟨_, ⟨again, read⟩, after, rest⟩ := Performed.bind_inv performed
      cases again with
      | ok record => cases rest.pure_inv
      | error e' =>
          cases rest.pure_inv
          unfold afterRead at after
          split at after
          · obtain ⟨_, locked, _, after⟩ := after.bind_inv
            obtain ⟨_, ⟨reread, kept⟩, _, after⟩ := after.bind_inv
            cases reread with
            | ok record => cases after.pure_inv
            | error e =>
                obtain ⟨_, unlocked, unlock, done⟩ := Performed.bind_inv after
                cases done.pure_inv
                exact unlockCurrentRow_released unlock
          · cases after.pure_inv

theorem readIdxMap_released {inx : Nat} {key : PackedKey} {e : HaErr}
    (performed : Performed R t i (readIdxMap T gran inx key h) j (.gone e, h')) :
    h'.rowLocked = false := by
  obtain ⟨_, _, _, rest⟩ := performed.bind_inv
  exact rowRead_released rest

theorem readNext_released {e : HaErr}
    (performed : Performed R t i (readNext T gran h) j (.gone e, h')) :
    h'.rowLocked = false := by
  unfold readNext at performed
  split at performed
  · cases performed.pure_inv
  · obtain ⟨_, ⟨found, read⟩, _, rest⟩ := performed.bind_inv
    cases found with
    | ok record => exact rowRead_released rest
    | error e' =>
        simp only at rest
        split at rest
        · cases rest.pure_inv
        · cases rest.pure_inv

theorem readUnique_released {getRecBits : Bytes → Nat → Nat → UInt8} {record : Rec n}
    {uniqueIdx : Nat} {e : HaErr}
    (performed : Performed R t i (readUnique getRecBits T gran record uniqueIdx h) j
      (.gone e, h')) :
    h'.rowLocked = false := by
  unfold readUnique at performed
  simp only at performed
  split at performed
  · cases performed.pure_inv
  · obtain ⟨_, found, _, rest⟩ := performed.bind_inv
    cases found with
    | error e' => cases rest.pure_inv
    | ok pair =>
        obtain ⟨_, _, _, rest⟩ := Performed.bind_inv rest
        exact rowRead_released rest

theorem onHandler_inv {α : Type} {program : Handler → CoreProg n (α × Handler)} {info info' : Info}
    {value : α} (performed : Performed R t i (onHandler program info) j (value, info')) :
    ∃ m, Performed R t i (program info.toHandler) m (value, info'.toHandler) := by
  obtain ⟨m, ⟨value', h⟩, first, rest⟩ := performed.bind_inv
  cases rest.pure_inv
  exact ⟨m, first⟩

/-- Calls behind which no row is locked: the ends of a row and of a statement, and a row read
whose second read, under the lock, has failed. -/
def RowCall.releases : RowCall n → RowRes n → Bool
  | .updateRow _ _, _ | .deleteRow _, _ | .reset, _ | .externalLock .unlck, _ => true
  | _, .gone _ => true
  | _, _ => false

theorem rowProgram_released {getRecBits : Bytes → Nat → Nat → UInt8} {call : RowCall n}
    {info info' : Info} {result : RowRes n}
    (performed : Performed R t i (rowProgram getRecBits T gran info call) j (result, info'))
    (releases : call.releases result = true) : info'.rowLocked = false := by
  cases call with
  | externalLock lockType =>
      unfold rowProgram at performed
      obtain ⟨m, performed⟩ := onHandler_inv performed
      obtain ⟨_, kept, first, rest⟩ := performed.bind_inv
      cases rest.pure_inv
      cases lockType with
      | rdlck => cases releases
      | wrlck => cases releases
      | unlck => exact unlockCurrentRow_released first
  | indexInit inx =>
      cases performed.pure_inv
      cases releases
  | indexReadMap key =>
      obtain ⟨m, performed⟩ := onHandler_inv performed
      cases result with
      | gone e => exact readIdxMap_released performed
      | _ => cases releases
  | indexReadLastMap key =>
      obtain ⟨m, performed⟩ := onHandler_inv performed
      cases result with
      | gone e => exact readIdxMap_released performed
      | _ => cases releases
  | indexReadIdxMap inx key =>
      obtain ⟨m, performed⟩ := onHandler_inv performed
      cases result with
      | gone e => exact readIdxMap_released performed
      | _ => cases releases
  | indexNext =>
      obtain ⟨m, performed⟩ := onHandler_inv performed
      cases result with
      | gone e => exact readNext_released performed
      | _ => cases releases
  | rndInit scan =>
      obtain ⟨_, _, _, rest⟩ := Performed.bind_inv performed
      cases rest.pure_inv
      cases releases
  | rndNext =>
      obtain ⟨_, _, _, rest⟩ := Performed.bind_inv performed
      obtain ⟨_, ⟨_, _⟩, read, rest⟩ := rest.bind_inv
      cases rest.pure_inv
      cases result with
      | gone e => exact rowRead_released read
      | _ => cases releases
  | rndPos pos =>
      obtain ⟨_, _, _, rest⟩ := Performed.bind_inv performed
      obtain ⟨_, ⟨_, _⟩, read, rest⟩ := rest.bind_inv
      cases rest.pure_inv
      cases result with
      | gone e => exact rowRead_released read
      | _ => cases releases
  | findUniqueRow record uniqueIdx =>
      obtain ⟨m, performed⟩ := onHandler_inv performed
      cases result with
      | gone e => exact readUnique_released performed
      | _ => cases releases
  | writeRow numbered record =>
      obtain ⟨m, performed⟩ := onHandler_inv performed
      cases numbered with
      | false =>
          have refused : result = .refused := congrArg Prod.fst performed.pure_inv
          rw [refused] at releases
          cases releases
      | true =>
          obtain ⟨_, ⟨rc, _⟩, _, rest⟩ := Performed.bind_inv performed
          have changed : result = .changed rc := congrArg Prod.fst rest.pure_inv
          rw [changed] at releases
          cases releases
  | updateRow old new =>
      unfold rowProgram at performed
      obtain ⟨m, performed⟩ := onHandler_inv performed
      obtain ⟨_, ⟨rc, kept⟩, update, rest⟩ := performed.bind_inv
      cases rest.pure_inv
      exact takenWrite_released update
  | deleteRow buf =>
      unfold rowProgram at performed
      obtain ⟨m, performed⟩ := onHandler_inv performed
      obtain ⟨_, ⟨rc, kept⟩, delete, rest⟩ := performed.bind_inv
      cases rest.pure_inv
      exact takenWrite_released delete
  | reset =>
      obtain ⟨_, _, first, rest⟩ := Performed.bind_inv performed
      obtain ⟨_, kept, unlock, done⟩ := Performed.bind_inv first
      cases rest.pure_inv
      cases done.pure_inv
      have free : kept.rowLocked = false := unlockCurrentRow_released unlock
      exact free

end Released

/-! ### Runs -/

section Runs

variable {getRecBits : Bytes → Nat → Nat → UInt8} {T : TableShare n} {gran : Gran}

theorem rowHandlers_noted {R : (rowHandlers getRecBits T gran).Run} {garbage : Nat → Rec n}
    {heap : Heap} {opened : Info} (starts : R.StartsIn (Core.fresh garbage heap) opened)
    (kept : LockKept opened (fun _ => false) 0) {i t : Nat} {info : Info} (bound : i ≤ R.len)
    (idle : (R.cfg i).thread t = .idle info) (idx : Nat) :
    (R.st i).owner (.wlock idx) = some t ↔ info.rowLocked = true ∧ info.lockedSlot = some idx := by
  obtain ⟨ghosts, covers⟩ := quietRun_covered (rowHandlers_obedient getRecBits T gran) starts kept
    i bound 1
  obtain ⟨_, seen, mine, rfl, _, _⟩ := covers.idle idle
  have tie := covers.inv.1.locks.tie (.wlock idx) t
  rw [show (ghosts t).2 = _ from mine] at tie
  have slot : rowSlots info.toHandler.held idx = true ↔
      info.rowLocked = true ∧ info.lockedSlot = some idx := by
    unfold rowSlots Handler.held
    rw [decide_eq_true_iff]
    by_cases locked : info.rowLocked = true
    · rw [if_pos locked]
      exact ⟨fun same => ⟨locked, same⟩, fun both => both.2⟩
    · rw [if_neg locked]
      exact ⟨fun clash => (by cases clash), fun both => absurd both.1 locked⟩
  exact tie.trans slot

structure RowLocksOwned (R : (rowHandlers getRecBits T gran).Run) : Prop where
  noted : ∀ i, i ≤ R.len → ∀ t info, (R.cfg i).thread t = .idle info →
    (info.rowLocked = true ↔
      ∃ idx, info.lockedSlot = some idx ∧ (R.st i).owner (.wlock idx) = some t)
  only : ∀ i, i ≤ R.len → ∀ t info, (R.cfg i).thread t = .idle info → ∀ idx,
    (R.st i).owner (.wlock idx) = some t → info.rowLocked = true ∧ info.lockedSlot = some idx
  exclusive : ∀ i, i ≤ R.len → ∀ t u info other, (R.cfg i).thread t = .idle info →
    (R.cfg i).thread u = .idle other → info.rowLocked = true → other.rowLocked = true →
    info.lockedSlot = other.lockedSlot → t = u
  unlocker : ∀ i, i ≤ R.len → ∀ t call idx next,
    (R.cfg i).thread t = .busy call (.act (.unlock (.wlock idx)) next) →
    (R.st i).owner (.wlock idx) = some t
  released : ∀ t call info i j result info', R.Returned t call info i j result info' →
    call.releases result = true → ∀ idx, (R.st (j + 1)).owner (.wlock idx) ≠ some t

/-- Handlers own exactly the row locks they have noted. -/
theorem rowHandlers_owned (getRecBits : Bytes → Nat → Nat → UInt8) (T : TableShare n) (gran : Gran)
    (R : (rowHandlers getRecBits T gran).Run) (garbage : Nat → Rec n) (heap : Heap)
    (readCheckUsed : Bool) (maxKeyLength activeIndex : Nat)
    (starts : R.StartsIn (Core.fresh garbage heap)
      (fmOpened readCheckUsed maxKeyLength activeIndex)) :
    RowLocksOwned R := by
  have opened := fmOpened_kept readCheckUsed maxKeyLength activeIndex
  have noted : ∀ i, i ≤ R.len → ∀ t info, (R.cfg i).thread t = .idle info →
      (info.rowLocked = true ↔
        ∃ idx, info.lockedSlot = some idx ∧ (R.st i).owner (.wlock idx) = some t) := by
    intro i bound t info idle
    constructor
    · intro locked
      obtain ⟨ghosts, covers⟩ := quietRun_covered (rowHandlers_obedient getRecBits T gran) starts
        opened i bound 1
      obtain ⟨_, _, _, _, sound, _⟩ := covers.idle idle
      obtain ⟨idx, slot⟩ := Option.ne_none_iff_exists'.mp (sound locked)
      exact ⟨idx, slot, (rowHandlers_noted starts opened bound idle idx).mpr ⟨locked, slot⟩⟩
    · intro owns
      obtain ⟨idx, _, owner⟩ := owns
      exact ((rowHandlers_noted starts opened bound idle idx).mp owner).1
  refine ⟨noted, ?_, ?_, ?_, ?_⟩
  · intro i bound t info idle idx owner
    exact (rowHandlers_noted starts opened bound idle idx).mp owner
  · intro i bound t u info other idle idleOther locked lockedOther same
    obtain ⟨idx, slot, owner⟩ := (noted i bound t info idle).mp locked
    have ownerOther := (rowHandlers_noted starts opened bound idleOther idx).mpr
      ⟨lockedOther, same.symm.trans slot⟩
    exact Option.some.inj (owner.symm.trans ownerOther)
  · intro i bound t call idx next busy
    obtain ⟨g, quietly⟩ := quietRun_explained (rowHandlers_obedient getRecBits T gran) starts
      opened i bound
    exact (quietly.inv.locks.tie (.wlock idx) t).mpr (quietly.permits busy)
  · intro t call info i j result info' returned releases idx owner
    have free := rowProgram_released (Performed.ofReturned returned) releases
    have locked := ((rowHandlers_noted starts opened returned.bound returned.idle_after idx).mp
      owner).1
    rw [free] at locked
    cases locked

end Runs

def zeroBits : Bytes → Nat → Nat → UInt8 := fun _ _ _ => 0

def lockTurns : List (Nat × Option (RowCall 1)) :=
  List.flatten [[(0, some (.externalLock .wrlck)), (0, none)],
    callSteps 0 (.writeRow true fun _ => 7) 35, callSteps 0 (.indexReadIdxMap 0 [7]) 19,
    [(1, some (.externalLock .wrlck)), (1, none), (1, some (.rndInit true)), (1, none)],
    callSteps 1 .rndNext 8, callSteps 0 (.updateRow (fun _ => 7) fun _ => 8) 20,
    List.replicate 9 (1, none)]

theorem lockTurns_played : (play (S := rowHandlers zeroBits byteShare .whole)
    ⟨byteStart, fun _ => .idle (fmOpened false 1 64)⟩ lockTurns).isSome = true := by
  decide +kernel

def lockTurnsRun : (rowHandlers zeroBits byteShare .whole).Run :=
  Run.ofSchedule ⟨byteStart, fun _ => .idle (fmOpened false 1 64)⟩ lockTurns lockTurns_played

theorem rowHandlers_owned_lockTurns : lockTurnsRun.len = 101 ∧
    (lockTurnsRun.st 58).owner (.wlock 0) = some 0 ∧
    (lockTurnsRun.st 101).owner (.wlock 0) = some 1 ∧ RowLocksOwned lockTurnsRun :=
  ⟨rfl, by decide +kernel, by decide +kernel,
    rowHandlers_owned zeroBits byteShare .whole lockTurnsRun _ _ false 1 64 rfl⟩

end Fastmem
