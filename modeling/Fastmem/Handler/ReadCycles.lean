/-
Read and update of one row (ha_fastmem.cc, fm_data.cc).

In a write statement a row read locks the row that it has found and reads it
again. The lock stays with the handler until its next call, update_row, has
written the row. So nobody else writes the row in between: the image that
update_row writes over is the image that was read.
-/

import Fastmem.Concurrent.SeqlockReads
import Fastmem.Handler.OwnUpdates
import Fastmem.Handler.QuietHandlers

set_option autoImplicit false

namespace Fastmem

open Prog (perform)
open ThreadSystem

variable {n : Nat}

structure HoldsRow (h : Handler) (idx : Nat) : Prop where
  writeStmt : h.writeStmt = true
  rowLocked : h.rowLocked = true
  lockedSlot : h.lockedSlot = some idx
  currentSlot : h.currentSlot = some idx

/-! ### The read under the lock -/

section Reads

variable {S : Setting n} {X : ThreadSystem (coreMachine n)} {R : X.Run} {t a b c idx : Nat}
  {gran : Gran} {h h' : Handler} {image record : Rec n}

theorem unlockCurrentRow_inv (performed : Performed R t a (unlockCurrentRow h) b h') :
    h'.currentSlot = h.currentSlot ∧ h'.writeStmt = h.writeStmt := by
  unfold unlockCurrentRow at performed
  split at performed
  · obtain ⟨_, _, _, rest⟩ := performed.bind_inv
    cases rest.pure_inv
    exact ⟨rfl, rfl⟩
  · cases performed.pure_inv
    exact ⟨rfl, rfl⟩
  · cases performed.pure_inv
    exact ⟨rfl, rfl⟩

theorem lockCurrentRow_inv (performed : Performed R t a (lockCurrentRow h) b h')
    (writeStmt : h.writeStmt = true) (current : h'.currentSlot = some idx) : HoldsRow h' idx := by
  unfold lockCurrentRow at performed
  split at performed
  · rename_i none
    cases performed.pure_inv
    cases none.symm.trans current
  · rename_i at_ here
    split at performed
    · rename_i held
      cases performed.pure_inv
      exact ⟨writeStmt, held.1, held.2.trans (here.symm.trans current), current⟩
    · obtain ⟨_, unlocked, unlock, rest⟩ := performed.bind_inv
      obtain ⟨_, _, _, rest⟩ := rest.bind_inv
      obtain ⟨sameSlot, sameStmt⟩ := unlockCurrentRow_inv unlock
      cases rest.pure_inv
      have same : some at_ = some idx := here.symm.trans (sameSlot.symm.trans current)
      exact ⟨sameStmt.trans writeStmt, rfl, same, current⟩

theorem rereadLocked_found (performed : Performed R t a (fmRereadLocked gran h) b (.ok image, h')) :
    ∃ idx g, h.currentSlot = some idx ∧ h' = { h with currentGen := g } := by
  unfold fmRereadLocked at performed
  split at performed
  · cases performed.pure_inv
  · rename_i idx here
    obtain ⟨_, g, _, rest⟩ := performed.bind_inv
    obtain ⟨_, row, _, last⟩ := rest.bind_inv
    cases row with
    | error e => cases last.pure_inv
    | ok record =>
        cases last.pure_inv
        exact ⟨idx, g, here, rfl⟩

structure RowIs (R : X.Run) (idx : Nat) (image : Rec n) (m : Nat) : Prop where
  active : ((R.st m).slot idx).state = .active
  data : ((R.st m).slot idx).data = image
  complete : ¬ Writing R idx m

theorem rereadLocked_image (explained : ∀ i, i ≤ R.len → ∃ g, Quietly S (R.cfg i) g)
    (performed : Performed R t a (fmRereadLocked gran h) b (.ok image, h'))
    (rests : Calm R t b c) (order : b ≤ c) (bound : c ≤ R.len)
    (owner : (R.st c).owner (.wlock idx) = some t) (current : h'.currentSlot = some idx) :
    RowIs R idx image c := by
  unfold fmRereadLocked at performed
  split at performed
  · cases performed.pure_inv
  · rename_i at_ here
    obtain ⟨a₁, g, _, rest⟩ := performed.bind_inv
    obtain ⟨b₁, row, read, last⟩ := rest.bind_inv
    cases row with
    | error e => cases last.pure_inv
    | ok record =>
        have lastLe := last.le
        have lastCalm : Calm R t b₁ b := last.calm (.ret _)
        cases last.pure_inv
        obtain rfl : at_ = idx := Option.some.inj (here.symm.trans current)
        obtain ⟨d, e, f, lower, upper, round, _, _⟩ := readRow_last read
        obtain ⟨beforeE, beforeF⟩ := round.order
        have reading : Calm R t a₁ b₁ :=
          read.calm ((readRow_reads at_ true g).mono fun _ _ kind => kind.keepsHeld)
        have calm : Calm R t d c := fun m lowerM upperM =>
          (reading.trans (lastCalm.trans rests)) m (by omega) upperM
        -- the lock is the handler's from the check of the state on
        have held := held_back (by omega : d ≤ c) bound calm.keepsLock owner
        have still : ∀ m, d ≤ m → m ≤ c → (R.st m).slot at_ = (R.st d).slot at_ :=
          fun m lowerM upperM =>
            held_slot explained lowerM (by omega) (calm.until upperM) held round.active
        refine ⟨?_, ?_, ?_⟩
        · rw [still c (by omega) (by omega)]
          exact round.active
        · funext x
          obtain ⟨m, lowerM, upperM, byte⟩ := round.bytes x
          rw [byte, still m (by omega) (by omega), still c (by omega) (by omega)]
        · have even := round.even
          rw [still e (by omega) (by omega)] at even
          unfold Writing
          rw [still c (by omega) (by omega)]
          exact even

theorem lockCurrentRow_slot (performed : Performed R t a (lockCurrentRow h) b h') :
    h'.currentSlot = h.currentSlot := by
  unfold lockCurrentRow at performed
  split at performed
  · cases performed.pure_inv
    rfl
  · split at performed
    · cases performed.pure_inv
      rfl
    · obtain ⟨_, unlocked, unlock, rest⟩ := performed.bind_inv
      obtain ⟨_, _, _, rest⟩ := rest.bind_inv
      cases rest.pure_inv
      exact (unlockCurrentRow_inv unlock).1

theorem rowRead_row {gone : HaErr} {found : Except HaErr (Rec n)} (writeStmt : h.writeStmt = true)
    (performed : Performed R t a (rowRead gran gone found h) b (.row image, h')) :
    ∃ locked c d idx, a ≤ c ∧ d ≤ b ∧ Performed R t a (lockCurrentRow h) c locked ∧
      Performed R t c (fmRereadLocked gran locked) d (.ok image, h') ∧ Calm R t d b ∧
      HoldsRow h' idx := by
  cases found with
  | error e => cases performed.pure_inv
  | ok record =>
      obtain ⟨b₁, ⟨again, read⟩, after, last⟩ := Performed.bind_inv performed
      cases again with
      | error e => cases last.pure_inv
      | ok image' =>
          have lastLe := last.le
          have lastCalm : Calm R t b₁ b := last.calm (.ret _)
          cases last.pure_inv
          unfold afterRead at after
          rw [if_pos writeStmt] at after
          obtain ⟨c, locked, lock, after⟩ := after.bind_inv
          obtain ⟨d, ⟨reread, kept⟩, second, after⟩ := after.bind_inv
          have lockLe := lock.le
          have secondLe := second.le
          have afterLe := after.le
          cases reread with
          | error e =>
              obtain ⟨_, _, _, done⟩ := Performed.bind_inv after
              cases done.pure_inv
          | ok record' =>
              have afterCalm : Calm R t d b₁ := after.calm (.ret _)
              cases after.pure_inv
              obtain ⟨idx, g, current, rfl⟩ := rereadLocked_found second
              have holds := lockCurrentRow_inv lock writeStmt current
              exact ⟨locked, c, d, idx, by omega, by omega, lock, second, afterCalm.trans lastCalm,
                holds.writeStmt, holds.rowLocked, holds.lockedSlot, current⟩

/-! ### Row reads of every kind -/

theorem fmFindKey_stmt {T : TableShare n} {inx : Nat} {key : PackedKey}
    {found : Except HaErr (Rec n)}
    (performed : Performed R t a (fmFindKey T gran inx key h) b (found, h')) :
    h'.writeStmt = h.writeStmt := by
  obtain ⟨_, result, _, rest⟩ := performed.bind_inv
  cases result with
  | error e =>
      cases rest.pure_inv
      rfl
  | ok pair =>
      obtain ⟨_, g, _, last⟩ := Performed.bind_inv rest
      cases last.pure_inv
      simp only
      split
      · rfl
      · rfl

theorem fmFindNextKey_stmt {T : TableShare n} {inx : Nat} {key : PackedKey} {cur : Option Nat}
    {found : Except HaErr (Rec n)}
    (performed : Performed R t a (fmFindNextKey T gran inx key cur h) b (found, h')) :
    h'.writeStmt = h.writeStmt := by
  obtain ⟨_, result, _, rest⟩ := performed.bind_inv
  cases result with
  | error e =>
      cases rest.pure_inv
      rfl
  | ok pair =>
      obtain ⟨_, g, _, last⟩ := Performed.bind_inv rest
      cases last.pure_inv
      simp only
      split
      · rfl
      · rfl

theorem fmScan_stmt {info info' : Info} {found : Except HaErr (Rec n)}
    (performed : Performed R t a (fmScan gran info) b (found, info')) :
    info'.writeStmt = info.writeStmt := by
  obtain ⟨_, ⟨pos, row⟩, _, rest⟩ := performed.bind_inv
  cases row with
  | error e =>
      cases rest.pure_inv
      rfl
  | ok record =>
      simp only at rest
      cases slot : toSlot (pos - 1) with
      | none =>
          rw [slot] at rest
          cases rest.pure_inv
          rfl
      | some idx =>
          rw [slot] at rest
          obtain ⟨_, g, _, last⟩ := Performed.bind_inv rest
          cases last.pure_inv
          rfl

theorem fmRrnd_stmt {pos : SlotRef} {info info' : Info} {found : Except HaErr (Rec n)}
    (performed : Performed R t a (fmRrnd gran pos info) b (found, info')) :
    info'.writeStmt = info.writeStmt := by
  unfold fmRrnd at performed
  simp only at performed
  split at performed
  · cases performed.pure_inv
    rfl
  · obtain ⟨_, row, _, last⟩ := performed.bind_inv
    cases row with
    | error e =>
        cases last.pure_inv
        rfl
    | ok record =>
        cases last.pure_inv
        rfl

def EndsInRead (gran : Gran) (R : X.Run) (t : Nat) (image : Rec n) (h' : Handler) (a b : Nat) :
    Prop :=
  ∃ gone found h c d, a ≤ c ∧ d ≤ b ∧ h.writeStmt = true ∧
    Performed R t c (rowRead gran gone found h) d (.row image, h') ∧ Calm R t d b

theorem EndsInRead.extend {a' b' : Nat} (ends : EndsInRead gran R t image h' a b)
    (earlier : a' ≤ a) (later : b ≤ b') (rests : Calm R t b b') :
    EndsInRead gran R t image h' a' b' := by
  obtain ⟨gone, found, h, c, d, lower, upper, writeStmt, read, calm⟩ := ends
  exact ⟨gone, found, h, c, d, by omega, by omega, writeStmt, read, calm.trans rests⟩

theorem EndsInRead.of_rowRead {gone : HaErr} {found : Except HaErr (Rec n)}
    (performed : Performed R t a (rowRead gran gone found h) b (.row image, h'))
    (writeStmt : h.writeStmt = true) :
    EndsInRead gran R t image h' a b :=
  ⟨gone, found, h, a, b, Nat.le_refl a, Nat.le_refl b, writeStmt, performed,
    fun _ lower upper => absurd upper (Nat.not_lt.mpr lower)⟩

theorem readIdxMap_ends {T : TableShare n} {inx : Nat} {key : PackedKey}
    (writeStmt : h.writeStmt = true)
    (performed : Performed R t a (readIdxMap T gran inx key h) b (.row image, h')) :
    EndsInRead gran R t image h' a b := by
  obtain ⟨_, ⟨found, kept⟩, look, read⟩ := performed.bind_inv
  exact (EndsInRead.of_rowRead read ((fmFindKey_stmt look).trans writeStmt)).extend look.le
    (Nat.le_refl b) fun _ lower upper => absurd upper (Nat.not_lt.mpr lower)

theorem readNext_ends {T : TableShare n} (writeStmt : h.writeStmt = true)
    (performed : Performed R t a (readNext T gran h) b (.row image, h')) :
    EndsInRead gran R t image h' a b := by
  unfold readNext at performed
  split at performed
  · cases performed.pure_inv
  · obtain ⟨_, ⟨found, kept⟩, look, rest⟩ := performed.bind_inv
    cases found with
    | ok record =>
        exact (EndsInRead.of_rowRead rest ((fmFindNextKey_stmt look).trans writeStmt)).extend look.le
          (Nat.le_refl b) fun _ lower upper => absurd upper (Nat.not_lt.mpr lower)
    | error e =>
        simp only at rest
        split at rest
        · cases rest.pure_inv
        · cases rest.pure_inv

theorem readUnique_ends {getRecBits : Bytes → Nat → Nat → UInt8} {T : TableShare n}
    {uniqueIdx : Nat} (writeStmt : h.writeStmt = true)
    (performed : Performed R t a (readUnique getRecBits T gran record uniqueIdx h) b
      (.row image, h')) :
    EndsInRead gran R t image h' a b := by
  unfold readUnique at performed
  simp only at performed
  split at performed
  · cases performed.pure_inv
  · obtain ⟨_, found, look, rest⟩ := performed.bind_inv
    cases found with
    | error e => cases rest.pure_inv
    | ok pair =>
        obtain ⟨_, g, load, read⟩ := Performed.bind_inv rest
        have earlier := look.le.trans load.le
        exact (EndsInRead.of_rowRead read writeStmt).extend earlier (Nat.le_refl b)
          fun _ lower upper => absurd upper (Nat.not_lt.mpr lower)

def RowCall.readsRow : RowCall n → Bool
  | .indexReadMap _ | .indexReadLastMap _ | .indexReadIdxMap _ _ | .indexNext | .rndNext
  | .rndPos _ | .findUniqueRow _ _ => true
  | _ => false

theorem rowProgram_row {getRecBits : Bytes → Nat → Nat → UInt8} {T : TableShare n}
    {info info' : Info} {call : RowCall n}
    (performed : Performed R t a (rowProgram getRecBits T gran info call) b (.row image, info')) :
    call.readsRow = true := by
  cases call with
  | indexReadMap _ | indexReadLastMap _ | indexReadIdxMap _ _ | indexNext | rndNext | rndPos _
  | findUniqueRow _ _ => rfl
  | externalLock lockType =>
      unfold rowProgram at performed
      obtain ⟨_, performed⟩ := onHandler_inv performed
      obtain ⟨_, _, _, rest⟩ := performed.bind_inv
      cases rest.pure_inv
  | indexInit inx => cases performed.pure_inv
  | rndInit scan =>
      obtain ⟨_, _, _, rest⟩ := Performed.bind_inv performed
      cases rest.pure_inv
  | writeRow numbered record =>
      obtain ⟨_, performed⟩ := onHandler_inv performed
      cases numbered with
      | false => cases performed.pure_inv
      | true =>
          obtain ⟨_, ⟨rc, _⟩, _, rest⟩ := Performed.bind_inv performed
          cases rest.pure_inv
  | updateRow old new =>
      unfold rowProgram at performed
      obtain ⟨_, performed⟩ := onHandler_inv performed
      obtain ⟨_, ⟨rc, _⟩, _, rest⟩ := performed.bind_inv
      cases rest.pure_inv
  | deleteRow buf =>
      unfold rowProgram at performed
      obtain ⟨_, performed⟩ := onHandler_inv performed
      obtain ⟨_, ⟨rc, _⟩, _, rest⟩ := performed.bind_inv
      cases rest.pure_inv
  | reset =>
      obtain ⟨_, _, _, rest⟩ := Performed.bind_inv performed
      cases rest.pure_inv

theorem rowProgram_ends {getRecBits : Bytes → Nat → Nat → UInt8} {T : TableShare n}
    {info info' : Info} {call : RowCall n} (writeStmt : info.writeStmt = true)
    (performed : Performed R t a (rowProgram getRecBits T gran info call) b (.row image, info')) :
    EndsInRead gran R t image info'.toHandler a b := by
  have ofHandler : ∀ {program : Handler → CoreProg n (RowRes n × Handler)},
      (∀ {m h'}, Performed R t a (program info.toHandler) m (.row image, h') →
        EndsInRead gran R t image h' a m) →
      Performed R t a (onHandler program info) b (.row image, info') →
      EndsInRead gran R t image info'.toHandler a b := by
    intro program ends performed
    obtain ⟨m, ⟨value, kept⟩, first, last⟩ := performed.bind_inv
    have lastCalm : Calm R t m b := last.calm (.ret _)
    have lastLe := last.le
    cases last.pure_inv
    exact (ends first).extend (Nat.le_refl a) lastLe lastCalm
  cases call with
  | indexReadMap key => exact ofHandler (readIdxMap_ends writeStmt) performed
  | indexReadLastMap key => exact ofHandler (readIdxMap_ends writeStmt) performed
  | indexReadIdxMap inx key => exact ofHandler (readIdxMap_ends writeStmt) performed
  | indexNext => exact ofHandler (readNext_ends writeStmt) performed
  | findUniqueRow record uniqueIdx => exact ofHandler (readUnique_ends writeStmt) performed
  | rndNext =>
      obtain ⟨_, ⟨found, scanned⟩, look, rest⟩ := Performed.bind_inv performed
      obtain ⟨m, ⟨value, kept⟩, read, last⟩ := rest.bind_inv
      have lastCalm : Calm R t m b := last.calm (.ret _)
      have lastLe := last.le
      cases last.pure_inv
      exact (EndsInRead.of_rowRead read ((fmScan_stmt look).trans writeStmt)).extend look.le
        lastLe lastCalm
  | rndPos pos =>
      obtain ⟨_, ⟨found, scanned⟩, look, rest⟩ := Performed.bind_inv performed
      obtain ⟨m, ⟨value, kept⟩, read, last⟩ := rest.bind_inv
      have lastCalm : Calm R t m b := last.calm (.ret _)
      have lastLe := last.le
      cases last.pure_inv
      exact (EndsInRead.of_rowRead read ((fmRrnd_stmt look).trans writeStmt)).extend look.le
        lastLe lastCalm
  | externalLock _ | indexInit _ | rndInit _ | writeRow _ _ | updateRow _ _ | deleteRow _ | reset =>
      cases rowProgram_row performed

/-! ### The update of a row that is held -/

theorem takeCurrentRow_held (holds : HoldsRow h idx) :
    takeCurrentRow (n := n) h = .ret (true, h) := by
  unfold takeCurrentRow
  rw [if_pos ⟨holds.writeStmt, holds.rowLocked, holds.lockedSlot.trans holds.currentSlot.symm⟩]
  rfl

theorem readCheck_keeps (gran : Gran) (idx : Nat) (old : Rec n) (h : Handler) :
    (readCheck gran idx old h).Performs Act.keepsHeld :=
  (readCheck_reads idx old h).mono fun _ _ kind => kind.keepsHeld

theorem updateRow_held {T : TableShare n} {old new : Rec n} {rc : Except HaErr Unit}
    (explained : ∀ i, i ≤ R.len → ∃ g, Quietly S (R.cfg i) g) (holds : HoldsRow h idx)
    (performed : Performed R t a (updateRow T gran old new h) b (rc, h')) (bound : b ≤ R.len)
    (owner : (R.st a).owner (.wlock idx) = some t) :
    (rc = .ok () ∧ ∃ m e, a ≤ m ∧ e < b ∧ Calm R t a m ∧ WriteSpan R t idx new m e ∧
      Unbumped R t (m + 1) e ∧ Unbumped R t (e + 1) b) ∨
    (∃ e, rc = .error e) ∧ Unbumped R t a b := by
  unfold updateRow at performed
  rw [takeCurrentRow_held holds] at performed
  obtain ⟨a₁, _, take, rest⟩ := Performed.bind_inv performed
  have takeCalm : Calm R t a a₁ := take.calm (.ret _)
  have takeLe := take.le
  cases take.pure_inv
  obtain ⟨b₁, ⟨rc', written⟩, write, rest⟩ := Performed.bind_inv rest
  obtain ⟨b₂, released, unlock, done⟩ := rest.bind_inv
  have unlockLe := unlock.le
  have doneLe := done.le
  have behind : Unbumped R t b₁ b :=
    (unlock.unbumped (D := T.core) (plain_of_looks (unlockCurrentRow_looks written))).trans
      (.of_rest (Does.ret_inv done).2)
  cases done.pure_inv
  unfold fmUpdateRowLocked fmUpdateLockedOn at write
  rw [holds.currentSlot] at write
  obtain ⟨c, checked, check, write⟩ := Performed.bind_inv write
  have checkCalm : Calm R t a₁ c := check.calm (readCheck_keeps gran idx old h)
  have checkLe := check.le
  have writeLe := write.le
  have before : Calm R t a c := takeCalm.trans checkCalm
  cases checked with
  | error e =>
      have writeRests : Unbumped R t c b₁ := .of_rest (Does.ret_inv write).2
      cases write.pure_inv
      exact Or.inr ⟨⟨_, rfl⟩, (before.unbumped (by omega)).trans (writeRests.trans behind)⟩
  | ok _ =>
      obtain ⟨d, result, update, answer⟩ := Performed.bind_inv write
      have updateLe := update.le
      have answerLe := answer.le
      have held := held_owner explained (by omega : a ≤ c) (by omega) before.keepsLock owner
      rcases updateRowLocked_steps explained update (by omega) held with
        ⟨rfl, c', m, e, lower, upper, stale, calm, span, silent, unbumped⟩ | ⟨⟨e, rfl⟩, calm⟩
      · have answerRests : Unbumped R t d b₁ := .of_rest (Does.ret_inv answer).2
        have staleLe := stale.le
        cases answer.pure_inv
        exact Or.inl ⟨rfl, m, e, by omega, by omega, before.trans calm, span, silent,
          unbumped.trans (answerRests.trans behind)⟩
      · have answerRests : Unbumped R t d b₁ := .of_rest (Does.ret_inv answer).2
        cases answer.pure_inv
        exact Or.inr ⟨⟨_, rfl⟩, ((before.trans calm).unbumped (by omega)).trans
          (answerRests.trans behind)⟩

end Reads

/-! ### Runs -/

section Runs

variable {getRecBits : Bytes → Nat → Nat → UInt8} {T : TableShare n} {gran : Gran}

/-- The last call of the handler before time `i` has read this row in a write statement. -/
def JustRead (R : (rowHandlers getRecBits T gran).Run) (t : Nat) (image : Rec n) (info : Info)
    (i : Nat) : Prop :=
  ∃ call before a b, R.Returned t call before a b (.row image) info ∧ before.writeStmt = true ∧
    b < i ∧ ∀ m, b < m → m ≤ i → (R.cfg m).thread t = .idle info

/-- The call writes the row once, from one step of its sequence counter to the other, and steps
no other counter. -/
structure WritesOnce (R : (rowHandlers getRecBits T gran).Run) (t idx : Nat) (new : Rec n)
    (i j m e : Nat) : Prop where
  inside : i < m ∧ e < j
  span : WriteSpan R t idx new m e
  only : ∀ k, i < k → k < j → R.tid k = t → ∀ other, Marked R k (.bumpSeq other) → k = m ∨ k = e

variable {R : (rowHandlers getRecBits T gran).Run} {garbage : Nat → Rec n} {heap : Heap}
  {opened : Info} {t i j : Nat} {image old new : Rec n} {info info' : Info}

/-- What the handler has read is in the slot, and its lock with the handler, when the next call
starts. -/
theorem JustRead.current (starts : R.StartsIn (Core.fresh garbage heap) opened)
    (kept : LockKept opened (fun _ => false) 0) (read : JustRead R t image info i)
    (bound : i < R.len) :
    ∃ idx, HoldsRow info.toHandler idx ∧ (R.st i).owner (.wlock idx) = some t ∧
      RowIs R idx image i := by
  have explained := quietRun_explained (rowHandlers_obedient getRecBits T gran) starts kept
  obtain ⟨call, before, a, b, returned, writeStmt, order, resting⟩ := read
  have performed : Performed R t (a + 1) (rowProgram getRecBits T gran before call) b
      (.row image, info) :=
    .ofReturned returned
  obtain ⟨gone, found, h, c, d, lower, upper, stmt, rowRead, calm⟩ :=
    rowProgram_ends writeStmt performed
  obtain ⟨locked, c', d', idx, lower', upper', _, reread, calm', holds⟩ := rowRead_row stmt rowRead
  have idle := resting i order (Nat.le_refl i)
  have owner : (R.st i).owner (.wlock idx) = some t :=
    (rowHandlers_noted starts kept (by omega) idle idx).mpr ⟨holds.rowLocked, holds.lockedSlot⟩
  -- behind the read there is nothing but its return
  have rests : Calm R t b i := by
    intro m lowerM upperM own
    rcases Nat.eq_or_lt_of_le lowerM with rfl | later
    · rw [R.rest_same (by omega) fun call ρ action next busy => ?_]
      · exact .refl _
      · rw [own, returned.returns] at busy
        cases busy
    · exfalso
      have now := resting m later (by omega)
      have next := resting (m + 1) (by omega) (by omega)
      have step := R.step m (by omega)
      rw [own] at step
      generalize R.ev m = event at step
      generalize R.cfg (m + 1) = after at step next
      cases step with
      | start call' idle' promised =>
          simp only [Config.set, Function.update_self] at next
          cases next
      | act busy ran =>
          rw [now] at busy
          cases busy
      | unroll busy =>
          rw [now] at busy
          cases busy
      | finish busy =>
          rw [now] at busy
          cases busy
  exact ⟨idx, holds, owner, rereadLocked_image explained reread (calm'.trans (calm.trans rests))
    (by omega) (by omega) owner holds.currentSlot⟩

theorem calm_of_idle (bound : i < R.len) (idle : (R.cfg i).thread t = .idle info) :
    Calm R t i (i + 1) := by
  intro m lower upper own
  obtain rfl : m = i := by omega
  rw [R.rest_same bound fun call ρ action next busy => ?_]
  · exact .refl _
  · rw [own, idle] at busy
    cases busy

theorem JustRead.update {rc : Except HaErr Unit}
    (starts : R.StartsIn (Core.fresh garbage heap) opened)
    (kept : LockKept opened (fun _ => false) 0) (read : JustRead R t image info i)
    (returned : R.Returned t (.updateRow old new) info i j (.changed rc) info') :
    (rc = .ok () ∧ ∃ idx m e, info.currentSlot = some idx ∧ WritesOnce R t idx new i j m e ∧
      RowIs R idx image m) ∨
    (∃ e, rc = .error e) ∧ Unbumped R t (i + 1) j := by
  have explained := quietRun_explained (rowHandlers_obedient getRecBits T gran) starts kept
  have bound := returned.bound
  have before := returned.before
  obtain ⟨idx, holds, owner, row⟩ := read.current starts kept (by omega)
  have starting : Calm R t i (i + 1) := calm_of_idle (by omega) returned.started
  have performed : Performed R t (i + 1) (rowProgram getRecBits T gran info (.updateRow old new)) j
      (.changed rc, info') :=
    .ofReturned returned
  unfold rowProgram at performed
  obtain ⟨l, ⟨value, h⟩, call, last⟩ := Performed.bind_inv performed
  obtain ⟨k, ⟨rc', h'⟩, update, answer⟩ := Performed.bind_inv call
  have updateLe := update.le
  have answerLe := answer.le
  have lastLe := last.le
  have behind : Unbumped R t k j :=
    (Unbumped.of_rest (Does.ret_inv answer).2).trans (.of_rest (Does.ret_inv last).2)
  cases last.pure_inv
  cases answer.pure_inv
  have held := held_owner explained (Nat.le_succ i) (by omega) starting.keepsLock owner
  rcases updateRow_held explained holds update (by omega) held with
    ⟨rfl, m, e, lower, upper, calm, span, silent, unbumped⟩ | ⟨error, unbumped⟩
  · have calmTo : Calm R t i m := starting.trans calm
    have order := span.order
    have same := held_slot explained (by omega : i ≤ m) (by omega) calmTo owner row.active
    refine Or.inl ⟨rfl, idx, m, e, holds.currentSlot, ⟨⟨by omega, by omega⟩, span, ?_⟩, ?_⟩
    · intro k' lowerK upperK own other marked
      rcases Nat.lt_trichotomy k' m with earlier | here | later
      · exact absurd marked (calm.unbumped (by omega) k' (by omega) earlier own other)
      · exact Or.inl here
      · rcases Nat.lt_trichotomy k' e with inside | there | behindE
        · exact absurd marked (silent k' (by omega) inside own other)
        · exact Or.inr there
        · exact absurd marked ((unbumped.trans behind) k' (by omega) upperK own other)
    · refine ⟨?_, ?_, ?_⟩
      · rw [same]
        exact row.active
      · rw [same]
        exact row.data
      · unfold Writing
        rw [same]
        exact row.complete
  · exact Or.inr ⟨error, unbumped.trans behind⟩

/-- What is to hold of every row read of a write statement whose handler calls update_row next:
a write that succeeds replaces the image that was read. -/
def WritesOverRead (R : (rowHandlers getRecBits T gran).Run) : Prop :=
  ∀ t image old new info i j info', JustRead R t image info i →
    R.Returned t (.updateRow old new) info i j (.changed (.ok ())) info' →
    ∃ idx m e, info.currentSlot = some idx ∧ WritesOnce R t idx new i j m e ∧ RowIs R idx image m

theorem writesOverRead (starts : R.StartsIn (Core.fresh garbage heap) opened)
    (kept : LockKept opened (fun _ => false) 0) : WritesOverRead R := by
  intro t image old new info i j info' read returned
  rcases read.update starts kept returned with ⟨_, written⟩ | ⟨⟨e, clash⟩, _⟩
  · exact written
  · cases clash

/-- Nobody writes a row between its read and its update. -/
theorem readCycles_atomic (getRecBits : Bytes → Nat → Nat → UInt8) (T : TableShare n) (gran : Gran)
    (R : (rowHandlers getRecBits T gran).Run) (garbage : Nat → Rec n) (heap : Heap)
    (readCheckUsed : Bool) (maxKeyLength activeIndex : Nat)
    (starts : R.StartsIn (Core.fresh garbage heap)
      (fmOpened readCheckUsed maxKeyLength activeIndex)) : WritesOverRead R :=
  writesOverRead starts (fmOpened_kept readCheckUsed maxKeyLength activeIndex)

def justReads (R : (rowHandlers getRecBits T gran).Run) (t : Nat) (call : RowCall n)
    (image : Rec n) (a b i : Nat) : Bool :=
  match ((R.cfg a).thread t).resting, ((R.cfg i).thread t).resting with
  | some before, some info =>
      R.returns t call before a b (.row image) info && before.writeStmt && decide (b < i) &&
        (List.range' (b + 1) (i - b)).all fun m =>
          decide (((R.cfg m).thread t).resting = some info)
  | _, _ => false

theorem justRead_of_justReads {a b : Nat} {call : RowCall n}
    (passed : justReads R t call image a b i = true) (idle : (R.cfg i).thread t = .idle info) :
    JustRead R t image info i := by
  unfold justReads at passed
  rw [idle] at passed
  split at passed
  · rename_i before info' resting same
    cases Option.some.inj same
    simp only [Bool.and_eq_true, decide_eq_true_eq, List.all_eq_true, List.mem_range'_1] at passed
    obtain ⟨⟨⟨returns, writeStmt⟩, order⟩, rests⟩ := passed
    refine ⟨call, before, a, b, Run.returned_of_returns returns, writeStmt, order, ?_⟩
    intro m lower upper
    exact idle_of_resting (rests m ⟨lower, by omega⟩)
  · cases passed

end Runs

/-- Both handlers raise the byte of the row by one. Handler 1 has found the row before handler 0
writes it, and waits for the lock. -/
def cycleTurns : List (Nat × Option (RowCall 1)) :=
  List.flatten [callSteps 0 (.externalLock .wrlck) 1, callSteps 0 (.writeRow true fun _ => 7) 35,
    callSteps 0 (.indexReadIdxMap 0 [7]) 19, callSteps 1 (.externalLock .wrlck) 1,
    callSteps 1 (.rndInit true) 1, callSteps 1 .rndNext 8,
    callSteps 0 (.updateRow (fun _ => 7) fun _ => 8) 20, List.replicate 9 (1, none),
    callSteps 1 (.updateRow (fun _ => 8) fun _ => 9) 20]

theorem cycleTurns_played : (play (S := rowHandlers zeroBits byteShare .whole)
    ⟨byteStart, fun _ => .idle (fmOpened false 1 64)⟩ cycleTurns).isSome = true := by
  decide +kernel

def cycleTurnsRun : (rowHandlers zeroBits byteShare .whole).Run :=
  Run.ofSchedule ⟨byteStart, fun _ => .idle (fmOpened false 1 64)⟩ cycleTurns cycleTurns_played

theorem cycleTurns_read : justReads cycleTurnsRun 0 (.indexReadIdxMap 0 [7]) (fun _ => 7) 38 57 71 =
      true ∧ justReads cycleTurnsRun 1 .rndNext (fun _ => 8) 62 100 101 = true := by
  decide +kernel

def cycleInfo (t m : Nat) : Info :=
  ((cycleTurnsRun.cfg m).thread t).resting.getD (fmOpened false 1 64)

theorem readCycles_atomic_cycleTurns : JustRead cycleTurnsRun 1 (fun _ => 8) (cycleInfo 1 101) 101 ∧
    cycleTurnsRun.Returned 1 (.updateRow (fun _ => 8) fun _ => 9) (cycleInfo 1 101) 101 121
      (.changed (.ok ())) (cycleInfo 1 122) ∧ WritesOverRead cycleTurnsRun := by
  have rests : ((cycleTurnsRun.cfg 101).thread 1).resting.isSome = true := by
    decide +kernel
  obtain ⟨info, resting⟩ := Option.isSome_iff_exists.mp rests
  have idle : ((cycleTurnsRun.cfg 101).thread 1).resting = some (cycleInfo 1 101) := by
    unfold cycleInfo
    rw [resting]
    rfl
  exact ⟨justRead_of_justReads cycleTurns_read.2 (idle_of_resting idle),
    Run.returned_of_returns (by decide +kernel),
    readCycles_atomic zeroBits byteShare .whole cycleTurnsRun _ _ false 1 64 rfl⟩

end Fastmem
