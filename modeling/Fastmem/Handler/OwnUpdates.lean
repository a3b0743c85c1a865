/-
The lock that update_row takes itself (ha_fastmem.cc).

A handler in a write statement has the lock of its row from the read on, as a
rule. Without it, as in a second update of one row or in an update behind
write_row, update_row takes the lock before it writes. From there on nobody
else changes the row; but what the handler knows of the row is older than the
lock, and only the state and the generation of the slot are compared. The
records themselves are compared in debug builds only.
-/

import Fastmem.Concurrent.HeldWrites
import Fastmem.Handler.Positions
import Fastmem.Handler.RowOwnership

set_option autoImplicit false

namespace Fastmem

open Prog (perform)
open ThreadSystem

variable {n : Nat}

/-! ### update_row without the lock -/

/-- A handler of a release build in a write statement, without the lock of its row. -/
structure Unlocked (h : Handler) (idx : Nat) : Prop where
  writeStmt : h.writeStmt = true
  rowLocked : h.rowLocked = false
  readCheckUsed : h.readCheckUsed = false
  currentSlot : h.currentSlot = some idx

theorem takeCurrentRow_own {h : Handler} {idx : Nat} (unlocked : Unlocked h idx) :
    takeCurrentRow (n := n) h = (perform (.lock (.wlock idx))).bind fun _ =>
      .ret (true, h.locking idx) := by
  have free : unlockCurrentRow (n := n) h = .ret h := by
    unfold unlockCurrentRow
    rw [unlocked.rowLocked]
    rfl
  have lock : lockCurrentRow (n := n) h = (perform (.lock (.wlock idx))).bind fun _ =>
      .ret (h.locking idx) := by
    unfold lockCurrentRow
    rw [unlocked.currentSlot]
    simp only [unlocked.rowLocked, Bool.false_eq_true, false_and, if_false]
    rw [free]
    rfl
  unfold takeCurrentRow
  rw [if_neg (fun all => by rw [unlocked.rowLocked] at all; cases all.2.1)]
  rw [if_pos ⟨unlocked.writeStmt, by rw [unlocked.currentSlot]; exact Option.some_ne_none idx,
    unlocked.rowLocked⟩]
  rw [lock]
  simp only [Prog.bind_eq, Prog.bind_assoc]
  refine congrArg _ (funext fun _ => ?_)
  rw [Prog.ret_bind, if_pos ⟨rfl, unlocked.currentSlot.symm⟩]
  rfl

section Writes

variable {S : Setting n} {X : ThreadSystem (coreMachine n)} {R : X.Run} {t a b idx : Nat}
  {D : ShareDef n} {gran : Gran} {g : UInt32} {old new : Rec n}

def FindsImage (R : X.Run) (t idx : Nat) (g : UInt32) (image : Rec n) (a b : Nat) : Prop :=
  ∀ m, a ≤ m → m < b → R.tid m = t → Marked R m (.gen idx) → ((R.st m).slot idx).gen = g →
    ((R.st m).slot idx).data = image

/-- The image a passed check has found stays until the holder writes. -/
theorem checked_image (explained : ∀ i, i ≤ R.len → ∃ g, Quietly S (R.cfg i) g) {m : Nat}
    (performed : Performed R t a (slotStale idx g) b false)
    (owner : (R.st a).owner (.wlock idx) = some t) (finds : FindsImage R t idx g old a b)
    (later : b ≤ m) (bound : m ≤ R.len) (calm : Calm R t a m) :
    ((R.st m).slot idx).data = old := by
  obtain ⟨c, d, lowerC, lowerD, upperD, own, active, marked, gen⟩ := slotStale_passed performed
  have fromC : Calm R t c m := fun k lower upper => calm k (by omega) upper
  have held : (R.st c).owner (.wlock idx) = some t :=
    held_owner explained lowerC (by omega) (calm.until (by omega)).keepsLock owner
  have toM := held_slot explained (by omega : c ≤ m) bound fromC held active
  have toD := held_slot explained lowerD (by omega) (fromC.until (by omega)) held active
  have image : ((R.st d).slot idx).data = old := finds d (by omega) upperD own marked gen
  rw [toM, ← toD]
  exact image

/-- A held row is written only over the image that its check found, and nothing is stored if the
write is refused. -/
theorem updateRowLocked_performed {result : Except Err Unit}
    (explained : ∀ i, i ≤ R.len → ∃ g, Quietly S (R.cfg i) g)
    (performed : Performed R t a (fmCoreUpdateRowLocked D gran idx g old new) b result)
    (bound : b ≤ R.len) (owner : (R.st a).owner (.wlock idx) = some t)
    (finds : FindsImage R t idx g old a b) :
    (result = .ok () → ∃ m, a ≤ m ∧ m < b ∧ R.tid m = t ∧ Marked R m (.bumpSeq idx) ∧
      Calm R t a m ∧ ((R.st m).slot idx).data = old) ∧
    (∀ e, result = .error e → Calm R t a b) := by
  rcases updateRowLocked_steps explained performed bound owner with
    ⟨rfl, c, m, e, lower, upper, check, calm, span, _⟩ | ⟨⟨e, rfl⟩, calm⟩
  · have order := check.le
    have inside := span.order
    refine ⟨fun _ => ⟨m, by omega, by omega, span.own.1, span.begins, calm, ?_⟩, fun _ clash => ?_⟩
    · exact checked_image explained check owner
        (fun k lowerK upperK => finds k lowerK (by omega)) lower (by omega) calm
    · cases clash
  · refine ⟨fun clash => ?_, fun _ _ => calm⟩
    cases clash

theorem unlockCurrentRow_locking (h : Handler) :
    (unlockCurrentRow (n := n) h).Performs Act.locking := by
  unfold unlockCurrentRow
  split
  · exact (Prog.Performs.perform trivial).bind fun _ => .ret _
  · exact .ret _
  · exact .ret _

structure LockTaken (R : X.Run) (t idx a b : Nat) : Prop where
  rows : OwnSteps SameRows R t a b
  taken : ∃ m, a ≤ m ∧ m < b ∧ (R.st (m + 1)).owner (.wlock idx) = some t ∧ Calm R t (m + 1) b

theorem LockTaken.of_lock {c : Nat} (lock : Performed R t a (perform (.lock (.wlock idx))) b ())
    (calm : Calm R t b c) (order : b ≤ c) : LockTaken R t idx a c := by
  obtain ⟨m, lower, upper, own, ran, _, alone⟩ := lock.perform_inv
  refine ⟨(lock.rows (.perform trivial)).trans calm.rows, m, lower, by omega, ?_, ?_⟩
  · simp only [Act.exec] at ran
    split at ran
    · have after : (R.st m).setOwner (.wlock idx) (some t) = R.st (m + 1) :=
        congrArg Prod.snd (Option.some.inj ran)
      rw [← after]
      exact Function.update_self ..
    · cases ran
  · refine OwnSteps.trans (b := b) (fun k lowerK upperK mine => ?_) calm
    exact absurd mine (alone k (by omega) upperK (by omega))

theorem LockTaken.extend {c : Nat} (taken : LockTaken R t idx a b) (calm : Calm R t b c)
    (order : b ≤ c) : LockTaken R t idx a c := by
  obtain ⟨m, lower, upper, owner, kept⟩ := taken.taken
  exact ⟨taken.rows.trans calm.rows, m, lower, by omega, owner, kept.trans calm⟩

theorem updateRow_performed {T : TableShare n} {h h' : Handler} {rc : Except HaErr Unit}
    (unlocked : Unlocked h idx)
    (performed : Performed R t a (updateRow T gran old new h) b (rc, h')) :
    ∃ c d result, a ≤ c ∧ d ≤ b ∧ LockTaken R t idx a c ∧
      Performed R t c (fmCoreUpdateRowLocked T.core gran idx h.currentGen old new) d result ∧
      OwnSteps SameRows R t d b ∧ rc = result.mapError Err.toHa := by
  have checked : readCheck gran idx old (h.locking idx) = .ret (.ok ()) := by
    have unused : (h.locking idx).readCheckUsed = false := unlocked.readCheckUsed
    unfold readCheck
    rw [unused]
    rfl
  have current : (h.locking idx).currentSlot = some idx := unlocked.currentSlot
  unfold updateRow at performed
  rw [takeCurrentRow_own unlocked] at performed
  obtain ⟨a₁, taken, take, rest⟩ := performed.bind_inv
  obtain ⟨a₀, _, lock, noted⟩ := Performed.bind_inv take
  cases noted.pure_inv
  obtain ⟨e, ⟨rc', written⟩, write, rest⟩ := Performed.bind_inv rest
  obtain ⟨f, released, unlock, done⟩ := rest.bind_inv
  cases done.pure_inv
  unfold fmUpdateRowLocked fmUpdateLockedOn at write
  rw [current] at write
  simp only at write
  rw [checked] at write
  obtain ⟨c, _, check, write⟩ := Performed.bind_inv write
  cases check.pure_inv
  obtain ⟨d, result, update, answer⟩ := Performed.bind_inv write
  have order : a ≤ c := by
    have := lock.le; have := noted.le; have := check.le
    omega
  have locked : LockTaken R t idx a c :=
    (LockTaken.of_lock lock (noted.calm (.ret _)) noted.le).extend (check.calm (.ret _)) check.le
  have unlocking : OwnSteps SameRows R t e b :=
    (unlock.rows (unlockCurrentRow_locking _)).trans (done.rows (.ret _))
  have later : e ≤ b := unlock.le.trans done.le
  cases result with
  | error e' =>
      cases answer.pure_inv
      exact ⟨c, d, _, order, answer.le.trans later, locked, update,
        (answer.rows (.ret _)).trans unlocking, rfl⟩
  | ok _ =>
      cases answer.pure_inv
      exact ⟨c, d, _, order, answer.le.trans later, locked, update,
        (answer.rows (.ret _)).trans unlocking, rfl⟩

end Writes

/-! ### Runs -/

section Runs

variable {getRecBits : Bytes → Nat → Nat → UInt8} {T : TableShare n} {gran : Gran}

/-- Thread `t` has started the call at time `i` and is in it at time `m`. -/
structure InCall {X : ThreadSystem (coreMachine n)} (R : X.Run) (t : Nat) (call : X.Call)
    (kept : X.Loc) (i m : Nat) : Prop where
  started : (R.cfg i).thread t = .idle kept
  later : i < m
  running : ∀ k, i < k → k ≤ m → ∃ program, (R.cfg k).thread t = .busy call program

/-- What is to hold of every update_row that takes the lock itself: it writes over the record it
was given, or it stores nothing. -/
structure LosesNoUpdate (R : (rowHandlers getRecBits T gran).Run) : Prop where
  written : ∀ t old new info i j info', R.Returned t (.updateRow old new) info i j
      (.changed (.ok ())) info' → ∀ idx, Unlocked info.toHandler idx →
    ∃ m, i < m ∧ m < j ∧ R.tid m = t ∧ Marked R m (.bumpSeq idx) ∧
      OwnSteps SameRows R t (i + 1) m ∧ ((R.st m).slot idx).data = old
  refused : ∀ t old new info i j info' e, R.Returned t (.updateRow old new) info i j
      (.changed (.error e)) info' → ∀ idx, Unlocked info.toHandler idx →
    OwnSteps SameRows R t (i + 1) j

/-- When update_row has taken the lock itself and finds the generation of its handler in the
slot, the slot holds the record it was given. -/
def UpdatesCurrent (R : (rowHandlers getRecBits T gran).Run) : Prop :=
  ∀ t old new info i m idx, InCall R t (.updateRow old new) info i m →
    Unlocked info.toHandler idx → R.tid m = t → Marked R m (.gen idx) →
    ((R.st m).slot idx).gen = info.currentGen → ((R.st m).slot idx).data = old

theorem ownUpdate_performed {R : (rowHandlers getRecBits T gran).Run} {t i j idx : Nat}
    {old new : Rec n} {info info' : Info} {rc : Except HaErr Unit}
    (explained : ∀ i, i ≤ R.len → ∃ g, Quietly (looseSetting T.core gran) (R.cfg i) g)
    (current : UpdatesCurrent R)
    (returned : R.Returned t (.updateRow old new) info i j (.changed rc) info')
    (unlocked : Unlocked info.toHandler idx) :
    (rc = .ok () → ∃ m, i < m ∧ m < j ∧ R.tid m = t ∧ Marked R m (.bumpSeq idx) ∧
      OwnSteps SameRows R t (i + 1) m ∧ ((R.st m).slot idx).data = old) ∧
    (∀ e, rc = .error e → OwnSteps SameRows R t (i + 1) j) := by
  have performed : Performed R t (i + 1) (rowProgram getRecBits T gran info (.updateRow old new)) j
      (.changed rc, info') :=
    .ofReturned returned
  unfold rowProgram at performed
  obtain ⟨l, ⟨value, h⟩, call, last⟩ := Performed.bind_inv performed
  obtain ⟨k, ⟨rc', h'⟩, update, answer⟩ := Performed.bind_inv call
  cases answer.pure_inv
  cases last.pure_inv
  have resting : OwnSteps SameRows R t k j := (answer.rows (.ret _)).trans (last.rows (.ret _))
  have later : k ≤ j := answer.le.trans last.le
  obtain ⟨c, d, result, lower, upper, locked, write, rest, rfl⟩ :=
    updateRow_performed unlocked update
  obtain ⟨m, lowerM, upperM, owner, calm⟩ := locked.taken
  have within := returned.bound
  have order := write.le
  have held : (R.st c).owner (.wlock idx) = some t :=
    held_owner explained (by omega) (by omega) calm.keepsLock owner
  have finds : FindsImage R t idx info.currentGen old c d := by
    intro m' lower' upper' own marked gen
    refine current t old new info i m' idx ⟨returned.started, by omega, ?_⟩ unlocked own marked gen
    intro k' from_ until_
    exact returned.inside k' from_ (by omega)
  have outcome := updateRowLocked_performed explained write (by omega) held finds
  constructor
  · intro isOk
    have ok : result = .ok () := by
      cases result with
      | error e => cases isOk
      | ok _ => rfl
    obtain ⟨m', lower', upper', own, marked, calm', image⟩ := outcome.1 ok
    exact ⟨m', by omega, by omega, own, marked, locked.rows.trans calm'.rows, image⟩
  · intro e isError
    have error : ∃ e', result = .error e' := by
      cases result with
      | error e' => exact ⟨e', rfl⟩
      | ok _ => cases isError
    obtain ⟨e', same⟩ := error
    exact locked.rows.trans ((outcome.2 e' same).rows.trans (rest.trans resting))

/-- No update is lost in a run whose handlers, with the lock in hand, find the record they were
given. -/
theorem ownUpdates_kept (getRecBits : Bytes → Nat → Nat → UInt8) (T : TableShare n) (gran : Gran)
    (R : (rowHandlers getRecBits T gran).Run) (garbage : Nat → Rec n) (heap : Heap)
    (readCheckUsed : Bool) (maxKeyLength activeIndex : Nat)
    (starts : R.StartsIn (Core.fresh garbage heap)
      (fmOpened readCheckUsed maxKeyLength activeIndex))
    (current : UpdatesCurrent R) : LosesNoUpdate R := by
  have explained := quietRun_explained (rowHandlers_obedient getRecBits T gran) starts
    (fmOpened_kept readCheckUsed maxKeyLength activeIndex)
  constructor
  · intro t old new info i j info' returned idx unlocked
    exact (ownUpdate_performed explained current returned unlocked).1 rfl
  · intro t old new info i j info' e returned idx unlocked
    exact (ownUpdate_performed explained current returned unlocked).2 e rfl

end Runs

def lostUpdate : List (Nat × Option (RowCall 1)) :=
  List.flatten [callSteps 0 (.externalLock .wrlck) 1, callSteps 0 (.writeRow true fun _ => 7) 35,
    callSteps 1 (.externalLock .wrlck) 1, callSteps 1 (.indexReadIdxMap 0 [7]) 19,
    callSteps 1 (.updateRow (fun _ => 7) fun _ => 8) 20,
    callSteps 0 (.updateRow (fun _ => 7) fun _ => 9) 17]

theorem lostUpdate_played : (play (S := rowHandlers zeroBits byteShare .whole)
    ⟨byteStart, fun _ => .idle (fmOpened false 1 64)⟩ lostUpdate).isSome = true := by
  decide +kernel

def lostUpdateRun : (rowHandlers zeroBits byteShare .whole).Run :=
  Run.ofSchedule ⟨byteStart, fun _ => .idle (fmOpened false 1 64)⟩ lostUpdate lostUpdate_played

instance (getRecBits : Bytes → Nat → Nat → UInt8) (T : TableShare n) (gran : Gran) :
    DecidableEq (rowHandlers getRecBits T gran).Call :=
  inferInstanceAs (DecidableEq (RowCall n))

instance (getRecBits : Bytes → Nat → Nat → UInt8) (T : TableShare n) (gran : Gran) :
    DecidableEq (rowHandlers getRecBits T gran).Res :=
  inferInstanceAs (DecidableEq (RowRes n))

instance (getRecBits : Bytes → Nat → Nat → UInt8) (T : TableShare n) (gran : Gran) :
    DecidableEq (rowHandlers getRecBits T gran).Loc :=
  inferInstanceAs (DecidableEq Info)

def behindWrite : Info :=
  { fmOpened false 1 64 with
    writeStmt := true
    currentSlot := some 0
    update := { HaState.none with aktiv := true } }

theorem behindWrite_unlocked : Unlocked behindWrite.toHandler 0 := ⟨rfl, rfl, rfl, rfl⟩

/-- update_row returns 0 to handler 0, and the record it wrote over is that of handler 1. -/
theorem ownUpdates_lost : lostUpdateRun.StartsIn byteStart (fmOpened false 1 64) ∧
    lostUpdateRun.Returned 0 (.updateRow (fun _ => 7) fun _ => 9) behindWrite 81 98
      (.changed (.ok ())) behindWrite ∧ ¬ LosesNoUpdate lostUpdateRun := by
  have returned : lostUpdateRun.Returned 0 (.updateRow (fun _ => 7) fun _ => 9) behindWrite 81 98
      (.changed (.ok ())) behindWrite :=
    Run.returned_of_returns (by decide +kernel)
  refine ⟨rfl, returned, fun kept => ?_⟩
  obtain ⟨m, lower, upper, _, _, _, image⟩ :=
    kept.written _ _ _ _ _ _ _ returned 0 behindWrite_unlocked
  have other : ∀ m ∈ List.range' 82 16, ((lostUpdateRun.st m).slot 0).data 0 ≠ 7 := by
    decide +kernel
  exact other m (List.mem_range'_1.mpr ⟨lower, by omega⟩) (congrFun image 0)

def soleUpdate : List (Nat × Option (RowCall 1)) :=
  List.flatten [callSteps 0 (.externalLock .wrlck) 1, callSteps 0 (.writeRow true fun _ => 7) 35,
    callSteps 0 (.updateRow (fun _ => 7) fun _ => 9) 26]

theorem soleUpdate_played : (play (S := rowHandlers zeroBits byteShare .whole)
    ⟨byteStart, fun _ => .idle (fmOpened false 1 64)⟩ soleUpdate).isSome = true := by
  decide +kernel

def soleUpdateRun : (rowHandlers zeroBits byteShare .whole).Run :=
  Run.ofSchedule ⟨byteStart, fun _ => .idle (fmOpened false 1 64)⟩ soleUpdate soleUpdate_played

def findsOld {getRecBits : Bytes → Nat → Nat → UInt8} {T : TableShare n} {gran : Gran}
    (R : (rowHandlers getRecBits T gran).Run) (m : Nat) : Bool :=
  match ((R.cfg m).thread (R.tid m)).calling, ((R.ev m).labelled Act.mark : Option Mark) with
  | some (.updateRow old _), some (.gen idx) => decide (((R.st m).slot idx).data = old)
  | _, _ => true

theorem soleUpdate_current : UpdatesCurrent soleUpdateRun := by
  intro t old new info i m idx inside _ own marked _
  have finds : ∀ m ∈ List.range 65, findsOld soleUpdateRun m = true := by
    decide +kernel
  rcases Nat.lt_or_ge m 65 with within | beyond
  · obtain ⟨program, busy⟩ := inside.running m inside.later (Nat.le_refl m)
    have found := finds m (List.mem_range.mpr within)
    unfold findsOld at found
    rw [own, busy, show _ = _ from marked] at found
    exact of_decide_eq_true found
  · have past : soleUpdateRun.ev m = .unroll := Run.ofSchedule_beyond _ _ soleUpdate_played beyond
    rw [Marked, past] at marked
    cases marked

theorem ownUpdates_kept_soleUpdate : UpdatesCurrent soleUpdateRun ∧
    soleUpdateRun.Returned 0 (.updateRow (fun _ => 7) fun _ => 9) behindWrite 38 64
      (.changed (.ok ())) behindWrite ∧ LosesNoUpdate soleUpdateRun :=
  ⟨soleUpdate_current, Run.returned_of_returns (by decide +kernel),
    ownUpdates_kept zeroBits byteShare .whole soleUpdateRun _ _ false 1 64 rfl soleUpdate_current⟩

end Fastmem
