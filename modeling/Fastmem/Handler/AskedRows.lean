/-
Locked row reads return the row that was asked for (ha_fastmem.cc, fm_data.cc).

A row read of a write statement looks the row up, locks its slot and reads the
slot again. fm_reread_locked takes whatever generation it finds there. So the row
it returns is the one that was looked up, under the generation and with the key
that were asked for, if nobody has deleted or written the row between the two
reads.
-/

import Fastmem.Concurrent.PublishedReads
import Fastmem.Handler.ReadCycles

set_option autoImplicit false

namespace Fastmem

open Prog (perform iterate)
open ThreadSystem

variable {n : Nat}

section Reads

variable {S : Setting n} {X : ThreadSystem (coreMachine n)} {R : X.Run} {t a b c d idx : Nat}
  {gran : Gran} {h h' : Handler} {image record : Rec n}

/-! ### What a lookup has tested -/

theorem readPassing_passes {test : Rec n → Bool}
    (performed : Performed R t a (readPassing gran idx test) b (some record)) :
    test record = true := by
  obtain ⟨_, row, _, last⟩ := performed.bind_inv
  cases row with
  | error e => cases last.pure_inv
  | ok buf =>
      have isBuf := last.pure_inv
      split at isBuf
      · rename_i passes
        cases isBuf
        exact passes
      · cases isBuf

theorem walk_passes {σ : Type} {body : σ → CoreProg n (σ ⊕ Except Err (Nat × Rec n))} {k key : Nat}
    (start : Option Nat → σ) (test : Rec n → Bool)
    (round : ∀ a b at_, Performed R t a (body at_) b (.inr (.ok (idx, record))) →
      test record = true)
    (performed : Performed R t a (do
      perform (.lock (.bucket key k))
      let head ← perform (.loadCell (.head key k))
      let found ← iterate (start head) body
      perform (.unlock (.bucket key k))
      return found) b (.ok (idx, record))) : test record = true := by
  obtain ⟨_, _, _, rest⟩ := performed.bind_inv
  obtain ⟨_, head, _, rest⟩ := rest.bind_inv
  obtain ⟨_, found, walked, rest⟩ := rest.bind_inv
  obtain ⟨_, _, _, last⟩ := rest.bind_inv
  cases last.pure_inv
  obtain ⟨from_, until_, at_, _, _, _, ended, _⟩ := Does.iterate_inv
    (M := (coreMachine n).recorded Act.mark) (fun _ _ => True) (fun _ _ _ _ _ => trivial)
    (fun _ _ _ _ _ _ _ _ => trivial) trivial walked
  exact round from_ until_ at_ ended

theorem find_passes {D : ShareDef n} {key : Nat} {packed : PackedKey}
    (performed : Performed R t a (fmCoreFind D gran key packed) b (.ok (idx, record))) :
    (D.keydef key).ops.cmpRecKey record packed = 0 := by
  refine of_decide_eq_true (walk_passes (fun head => head)
    (fun buf => (D.keydef key).ops.cmpRecKey buf packed = 0) ?_ performed)
  intro a b head round
  unfold findRound at round
  split at round
  · cases round.pure_inv
  · obtain ⟨_, row, read, rest⟩ := round.bind_inv
    cases row with
    | some buf =>
        cases rest.pure_inv
        exact readPassing_passes read
    | none =>
        obtain ⟨_, next, _, last⟩ := rest.bind_inv
        cases last.pure_inv

theorem findNext_passes {D : ShareDef n} {key : Nat} {packed : PackedKey} {cur : Option Nat}
    (performed : Performed R t a (fmCoreFindNext D gran key packed cur) b (.ok (idx, record))) :
    (D.keydef key).ops.cmpRecKey record packed = 0 := by
  refine of_decide_eq_true (walk_passes (fun head => (head, false))
    (fun buf => (D.keydef key).ops.cmpRecKey buf packed = 0) ?_ performed)
  intro a b state round
  unfold findNextRound at round
  split at round
  · cases round.pure_inv
  · split at round
    · obtain ⟨_, next, _, last⟩ := round.bind_inv
      cases last.pure_inv
    · obtain ⟨_, row, read, rest⟩ := round.bind_inv
      cases row with
      | some buf =>
          cases rest.pure_inv
          split at read
          · exact readPassing_passes read
          · cases read.pure_inv
      | none =>
          obtain ⟨_, next, _, last⟩ := rest.bind_inv
          cases last.pure_inv

/-! ### The first check of a read -/

theorem Performed.enters {σ β : Type} {body : σ → CoreProg n (σ ⊕ β)} {start : σ} {value : β}
    (performed : Performed R t a (iterate start body) b value) :
    ∃ c, a ≤ c ∧ Unchecked R t a c ∧ Performed R t c (Prog.unroll body start .ret) b value := by
  obtain ⟨m, lower, same, resting, rest⟩ := Does.loop_inv performed
  refine ⟨m + 1, by omega, fun k lowerK upperK own idx marked => ?_, rest⟩
  rcases Nat.eq_or_lt_of_le (Nat.le_of_lt_succ upperK) with rfl | earlier
  · have still : R.history Act.mark (k + 1) = R.history Act.mark k := congrArg Prod.snd same
    rw [Run.history, show _ = _ from marked] at still
    exact absurd still (List.cons_ne_self _ _)
  · exact resting k lowerK earlier own

/-- A read that returns a row finds it ACTIVE when it first checks its state. -/
theorem readRow_first {checkGen : Bool} {g : UInt32}
    (performed : Performed R t a (fmCoreReadRow gran idx checkGen g) b (.ok image)) :
    ∃ d, a ≤ d ∧ d < b ∧ R.tid d = t ∧ Marked R d (.state idx) ∧ Unchecked R t a d ∧
      ((R.st d).slot idx).state = .active := by
  obtain ⟨c, lower, before, entered⟩ := Performed.enters performed
  obtain ⟨e, outcome, round, rest⟩ := Performed.bind_inv entered
  obtain ⟨m, state, loaded, tested⟩ := Performed.bind_inv round
  obtain ⟨d, lowerD, upperD, own, ran, marked, once⟩ := loaded.perform_inv
  have isState : ((R.st d).slot idx).state = state := congrArg Prod.fst (Option.some.inj ran)
  have testedLe := tested.le
  have restLe := rest.le
  refine ⟨d, by omega, by omega, own, marked, before.trans ?_, ?_⟩
  · intro m' lowerM upperM mine
    exact absurd mine (once m' lowerM (by omega) (by omega))
  · split at tested
    · cases tested.pure_inv
      cases rest.pure_inv
    · rename_i active
      exact isState.trans (not_not.mp active)

theorem lockCurrentRow_unchecked (performed : Performed R t a (lockCurrentRow h) b h') :
    Unchecked R t a b := by
  have unlocks : ∀ h : Handler, (unlockCurrentRow (n := n) h).Performs
      fun _ action => ∀ result idx, action.mark result ≠ .state idx := by
    intro h
    unfold unlockCurrentRow
    split
    · exact .step (fun _ _ clash => by cases clash) fun _ => .ret _
    · exact .ret _
    · exact .ret _
  refine performed.unchecked ?_
  unfold lockCurrentRow
  split
  · exact .ret _
  · split
    · exact .ret _
    · exact (unlocks h).bind fun _ => .step (fun _ _ clash => by cases clash) fun _ => .ret _

/-! ### From the lookup to the read under the lock -/

/-- A round of a read copies the row, and then the slot is checked again under its lock. -/
structure RowChecked (gran : Gran) (R : X.Run) (t idx : Nat) (record : Rec n) (checkGen : Bool)
    (g : UInt32) (found first second again : Nat) : Prop where
  round : LastRound gran R t idx record found first second
  gen : checkGen = true → ∃ m, found < m ∧ m < first ∧ R.tid m = t ∧ Marked R m (.gen idx) ∧
    ((R.st m).slot idx).gen = g
  order : second < again
  unbroken : Unbroken R t found again
  marked : Marked R again (.state idx)
  owner : (R.st again).owner (.wlock idx) = some t
  active : ((R.st again).slot idx).state = .active
  even : ¬ ((R.st again).slot idx).seq % 2 = 1

structure RowUntouched (R : X.Run) (idx i j : Nat) : Prop where
  same : SameRow R idx i j
  unwritten : ∀ m, i ≤ m → m < j → ¬ Marked R m (.bumpSeq idx)

namespace RowChecked

variable {checkGen : Bool} {g : UInt32} {found first second again : Nat}

theorem lives (checked : RowChecked gran R t idx record checkGen g found first second again)
    (quiet : QuietRun S R) (bound : again ≤ R.len) (same : SameRow R idx found again) {m : Nat}
    (lower : found ≤ m) (upper : m ≤ again) : QuietRun.Lives R idx m :=
  (quiet.image_active lower (by omega) checked.round.active fun k from_ until_ =>
    same k from_ (by omega)).1

theorem gen_again (checked : RowChecked gran R t idx record checkGen g found first second again)
    (quiet : QuietRun S R) (bound : again ≤ R.len) (same : SameRow R idx found again)
    (checks : checkGen = true) : ((R.st again).slot idx).gen = g := by
  obtain ⟨m, lower, upper, _, _, current⟩ := checked.gen checks
  obtain ⟨_, beforeSecond⟩ := checked.round.order
  have behind := checked.order
  have allocated : idx < (R.st found).slotCount :=
    QuietRun.Lives.allocated (Or.inl checked.round.active) quiet (by omega)
  have toAgain := quiet.gen_same (by omega : found ≤ again) bound allocated same
  have toCheck := quiet.gen_same (Nat.le_of_lt lower) (by omega) allocated
    (same.mono (Nat.le_refl found) (by omega))
  exact toAgain.trans (toCheck.symm.trans current)

theorem data_again (checked : RowChecked gran R t idx record checkGen g found first second again)
    (quiet : QuietRun S R) (bound : again ≤ R.len) (same : SameRow R idx found again)
    (unwritten : ∀ m, first ≤ m → m < again → ¬ Marked R m (.bumpSeq idx)) :
    ((R.st again).slot idx).data = record := by
  obtain ⟨beforeFirst, beforeSecond⟩ := checked.round.order
  have behind := checked.order
  -- the image does not change from the first load of the counter to the check under the lock
  have stays : ∀ m, first ≤ m → m ≤ again →
      ((R.st m).slot idx).data = ((R.st first).slot idx).data := fun m lower upper =>
    (quiet.image_same lower (by omega) (fun k from_ until_ =>
      checked.lives quiet bound same (by omega) (by omega)) checked.round.even
      fun k from_ until_ => unwritten k (by omega) (by omega)).1
  rw [stays again (by omega) (Nat.le_refl again)]
  funext x
  obtain ⟨m, lower, upper, byte⟩ := checked.round.bytes x
  rw [byte, stays m (by omega) (by omega)]

end RowChecked

/-- What is in the slot when the handler checks it under its lock stays there while the handler
rests. -/
theorem lookedUp_checked (quiet : QuietRun S R) {checkGen : Bool} {g g' : UInt32} {e : Nat}
    (looked : Performed R t a (fmCoreReadRow gran idx checkGen g) b (.ok record))
    (between : Unchecked R t b c)
    (reread : Performed R t c (fmCoreReadRow gran idx true g') d (.ok image))
    (order : b ≤ c ∧ d ≤ e) (bound : e ≤ R.len) (rests : Calm R t d e)
    (owner : (R.st e).owner (.wlock idx) = some t) :
    ∃ found first second again, a ≤ found ∧ again < d ∧
      RowChecked gran R t idx record checkGen g found first second again ∧
      (R.st e).slot idx = (R.st again).slot idx := by
  obtain ⟨found, first, second, lowerF, upperS, round, after, checks⟩ := readRow_last looked
  obtain ⟨beforeFirst, beforeSecond⟩ := round.order
  obtain ⟨again, lowerG, upperG, ownG, markedG, before, activeG⟩ := readRow_first reread
  have reading : Calm R t c e :=
    (reread.calm ((readRow_reads idx true g').mono fun _ _ kind => kind.keepsHeld)).trans rests
  have calm : Calm R t again e := fun m lower upper => reading m (by omega) upper
  have held := held_back (by omega : again ≤ e) bound calm.keepsLock owner
  have stays : ∀ m, again ≤ m → m ≤ e → (R.st m).slot idx = (R.st again).slot idx :=
    fun m lower upper => held_slot quiet.explained lower (by omega)
      (fun k from_ until_ => calm k from_ (by omega)) held activeG
  -- the counter is even in the round that the read under the lock ends with
  obtain ⟨last, evenAt, _, lowerL, _, lastRound, _, _⟩ := readRow_last reread
  have checkedFirst : again ≤ last := by
    by_contra earlier
    exact before last (by omega) (by omega) lastRound.own.1 idx lastRound.checked
  obtain ⟨lastOrder, lastSecond⟩ := lastRound.order
  have even := lastRound.even
  rw [stays evenAt (by omega) (by omega)] at even
  exact ⟨found, first, second, again, lowerF, upperG,
    { round := round
      gen := checks
      order := by omega
      unbroken := ⟨by omega, ⟨round.own.1, ownG⟩, after.trans (between.trans before)⟩
      marked := markedG
      owner := held
      active := activeG
      even := even }, stays e (by omega) (Nat.le_refl e)⟩

/-- A row read of a write statement in this time: the read of a slot, and then its read under the
lock. -/
structure LockedRead (gran : Gran) (R : X.Run) (t idx : Nat) (record image : Rec n)
    (checkGen : Bool) (g : UInt32) (h' : Handler) (i j : Nat) : Prop where
  reads : ∃ a b c d gone h, i ≤ a ∧ b ≤ c ∧ d ≤ j ∧ h.writeStmt = true ∧
    h.currentSlot = some idx ∧
    Performed R t a (fmCoreReadRow gran idx checkGen g) b (.ok record) ∧ Unchecked R t b c ∧
    Performed R t c (rowRead gran gone (.ok record) h) d (.row image, h') ∧ Calm R t d j

theorem LockedRead.extend {checkGen : Bool} {g : UInt32} {j' : Nat}
    (read : LockedRead gran R t idx record image checkGen g h' a b) (later : b ≤ j')
    (rests : Calm R t b j') : LockedRead gran R t idx record image checkGen g h' a j' := by
  obtain ⟨a', b', c, d, gone, h, lower, order, upper, stmt, here, looked, between, read, calm⟩ :=
    read
  exact ⟨a', b', c, d, gone, h, lower, order, by omega, stmt, here, looked, between, read,
    calm.trans rests⟩

/-- The handler ends up with the lock of the slot and has returned its row, which is what it found
there when it first checked it under the lock. -/
theorem LockedRead.checked (quiet : QuietRun S R) {checkGen : Bool} {g : UInt32}
    (read : LockedRead gran R t idx record image checkGen g h' a b) (bound : b ≤ R.len)
    (owned : HoldsRow h' idx → (R.st b).owner (.wlock idx) = some t) :
    HoldsRow h' idx ∧ RowIs R idx image b ∧ ∃ found first second again, a ≤ found ∧ again < b ∧
      RowChecked gran R t idx record checkGen g found first second again ∧
      (R.st b).slot idx = (R.st again).slot idx := by
  obtain ⟨a', b', c, d, gone, h, lower, order, upper, stmt, here, looked, between, locked, calm⟩ :=
    read
  obtain ⟨taken, c', d', idx', lower', upper', lock, reread, calm', holds⟩ := rowRead_row stmt locked
  obtain rfl : idx' = idx := by
    obtain ⟨at_, g', current, rfl⟩ := rereadLocked_found reread
    have same : some idx' = some idx :=
      holds.currentSlot.symm.trans ((lockCurrentRow_slot lock).trans here)
    exact Option.some.inj same
  have rests : Calm R t d' b := calm'.trans calm
  have owner := owned holds
  have row := rereadLocked_image quiet.explained reread rests (by omega) bound owner
    holds.currentSlot
  unfold fmRereadLocked at reread
  rw [(lockCurrentRow_slot lock).trans here] at reread
  obtain ⟨e, g', sample, reread⟩ := Performed.bind_inv reread
  have sampled : Unchecked R t c' e :=
    sample.unchecked (.perform fun _ _ clash => by cases clash)
  obtain ⟨f, result, second, last⟩ := Performed.bind_inv reread
  have lastCalm : Calm R t f d' := by
    cases result with
    | ok _ => exact last.calm (.ret _)
    | error _ => exact last.calm (.ret _)
  have sampleLe := sample.le
  have secondLe := second.le
  have lastLe := last.le
  cases result with
  | error _ => cases last.pure_inv
  | ok _ =>
      obtain ⟨found, first, at_, again, lowerF, upperG, checked, still⟩ := lookedUp_checked quiet
        looked (between.trans ((lockCurrentRow_unchecked lock).trans sampled)) second
        ⟨by omega, by omega⟩ bound (lastCalm.trans rests) owner
      exact ⟨holds, row, found, first, at_, again, by omega, by omega, checked, still⟩

/-! ### Row reads of every kind -/

theorem fmFindKey_looks {T : TableShare n} {inx : Nat} {key : PackedKey}
    (performed : Performed R t a (fmFindKey T gran inx key h) b (.ok record, h')) :
    ∃ idx, h'.currentSlot = some idx ∧ ReadLast gran R t idx record a b ∧
      (T.core.keydef inx).ops.cmpRecKey record key = 0 := by
  obtain ⟨c, result, look, rest⟩ := performed.bind_inv
  cases result with
  | error e => cases rest.pure_inv
  | ok pair =>
      obtain ⟨d, g, load, last⟩ := Performed.bind_inv rest
      have loaded : Unchecked R t c d :=
        load.unchecked (.perform fun _ _ clash => by cases clash)
      have after : Unchecked R t c b := loaded.trans (.of_rest (Does.ret_inv last).2)
      have loadLe := load.le
      have lastLe := last.le
      cases last.pure_inv
      exact ⟨pair.1, rfl, (find_read look).extend (Nat.le_refl a) (by omega) after,
        find_passes look⟩

theorem fmFindNextKey_looks {T : TableShare n} {inx : Nat} {key : PackedKey} {cur : Option Nat}
    (performed : Performed R t a (fmFindNextKey T gran inx key cur h) b (.ok record, h')) :
    ∃ idx, h'.currentSlot = some idx ∧ ReadLast gran R t idx record a b ∧
      (T.core.keydef inx).ops.cmpRecKey record key = 0 := by
  obtain ⟨c, result, look, rest⟩ := performed.bind_inv
  cases result with
  | error e => cases rest.pure_inv
  | ok pair =>
      obtain ⟨d, g, load, last⟩ := Performed.bind_inv rest
      have loaded : Unchecked R t c d :=
        load.unchecked (.perform fun _ _ clash => by cases clash)
      have after : Unchecked R t c b := loaded.trans (.of_rest (Does.ret_inv last).2)
      have loadLe := load.le
      have lastLe := last.le
      cases last.pure_inv
      exact ⟨pair.1, rfl, (findNext_read look).extend (Nat.le_refl a) (by omega) after,
        findNext_passes look⟩

def RowCall.Answers (getRecBits : Bytes → Nat → Nat → UInt8) (T : TableShare n) (info : Info)
    (idx : Nat) (slot : Slot n) : RowCall n → Prop
  | .indexReadMap key | .indexReadLastMap key =>
      (T.core.keydef info.activeIndex).ops.cmpRecKey slot.data key = 0
  | .indexReadIdxMap inx key => (T.core.keydef inx).ops.cmpRecKey slot.data key = 0
  | .indexNext =>
      ∃ inx, info.lastinx = some inx ∧
        (T.core.keydef inx).ops.cmpRecKey slot.data info.lastkey = 0
  | .findUniqueRow record uniqueIdx =>
      (T.core.keydef uniqueIdx).ops.cmpRecKey slot.data
        (info.makeKey getRecBits (T.keydef uniqueIdx) record) = 0
  | .rndNext => info.scanPos ≤ idx
  | .rndPos pos => pos.slot = some idx ∧ slot.gen = pos.gen
  | _ => True

def FindsAsked (asked : Nat → Slot n → Prop) (gran : Gran) (R : X.Run) (t : Nat) (image : Rec n)
    (h' : Handler) (a b : Nat) : Prop :=
  ∃ idx record checkGen g, LockedRead gran R t idx record image checkGen g h' a b ∧
    ∀ slot : Slot n, slot.data = record → (checkGen = true → slot.gen = g) → asked idx slot

theorem FindsAsked.of_read {asked : Nat → Slot n → Prop} {gone : HaErr}
    (read : ReadLast gran R t idx record a c)
    (locked : Performed R t c (rowRead gran gone (.ok record) h) b (.row image, h'))
    (writeStmt : h.writeStmt = true) (current : h.currentSlot = some idx)
    (answers : ∀ slot : Slot n, slot.data = record → asked idx slot) :
    FindsAsked asked gran R t image h' a b := by
  obtain ⟨d, e, lower, upper, looked, after⟩ := read
  refine ⟨idx, record, false, 0, ⟨d, e, c, b, gone, h, lower, upper, Nat.le_refl b, writeStmt,
    current, looked, after, locked, fun _ from_ until_ => absurd until_ (Nat.not_lt.mpr from_)⟩, ?_⟩
  intro slot data _
  exact answers slot data

theorem FindsAsked.extend {asked : Nat → Slot n → Prop}
    (finds : FindsAsked asked gran R t image h' a b) (later : b ≤ c) (rests : Calm R t b c) :
    FindsAsked asked gran R t image h' a c := by
  obtain ⟨idx, record, checkGen, g, read, answers⟩ := finds
  exact ⟨idx, record, checkGen, g, read.extend later rests, answers⟩

theorem readIdxMap_asked {T : TableShare n} {inx : Nat} {key : PackedKey}
    (writeStmt : h.writeStmt = true)
    (performed : Performed R t a (readIdxMap T gran inx key h) b (.row image, h')) :
    FindsAsked (fun _ slot => (T.core.keydef inx).ops.cmpRecKey slot.data key = 0) gran R t image
      h' a b := by
  obtain ⟨c, ⟨found, kept⟩, look, locked⟩ := performed.bind_inv
  cases found with
  | error e => cases locked.pure_inv
  | ok record =>
      obtain ⟨idx, current, read, passes⟩ := fmFindKey_looks look
      refine .of_read read locked ((fmFindKey_stmt look).trans writeStmt) current ?_
      intro slot data
      rw [data]
      exact passes

theorem readNext_asked {T : TableShare n} (writeStmt : h.writeStmt = true)
    (performed : Performed R t a (readNext T gran h) b (.row image, h')) :
    FindsAsked (fun _ slot => ∃ inx, h.lastinx = some inx ∧
      (T.core.keydef inx).ops.cmpRecKey slot.data h.lastkey = 0) gran R t image h' a b := by
  unfold readNext at performed
  split at performed
  · cases performed.pure_inv
  · rename_i inx lastinx
    obtain ⟨c, ⟨found, kept⟩, look, locked⟩ := performed.bind_inv
    cases found with
    | error e =>
        simp only at locked
        split at locked
        · cases locked.pure_inv
        · cases locked.pure_inv
    | ok record =>
        obtain ⟨idx, current, read, passes⟩ := fmFindNextKey_looks look
        refine .of_read read locked ((fmFindNextKey_stmt look).trans writeStmt) current ?_
        intro slot data
        rw [data]
        exact ⟨inx, lastinx, passes⟩

theorem readUnique_asked {getRecBits : Bytes → Nat → Nat → UInt8} {T : TableShare n}
    {uniqueIdx : Nat} (writeStmt : h.writeStmt = true)
    (performed : Performed R t a (readUnique getRecBits T gran record uniqueIdx h) b
      (.row image, h')) :
    FindsAsked (fun _ slot => (T.core.keydef uniqueIdx).ops.cmpRecKey slot.data
      (h.makeKey getRecBits (T.keydef uniqueIdx) record) = 0) gran R t image h' a b := by
  unfold readUnique at performed
  simp only at performed
  split at performed
  · cases performed.pure_inv
  · obtain ⟨c, found, look, rest⟩ := performed.bind_inv
    cases found with
    | error e => cases rest.pure_inv
    | ok pair =>
        obtain ⟨d, g, load, locked⟩ := Performed.bind_inv rest
        have loaded : Unchecked R t c d :=
          load.unchecked (.perform fun _ _ clash => by cases clash)
        refine .of_read ((find_read look).extend (Nat.le_refl a) load.le loaded) locked writeStmt
          rfl ?_
        intro slot data
        rw [data]
        exact find_passes look

theorem rndNext_asked {info info' : Info} (writeStmt : info.writeStmt = true)
    (performed : Performed R t a (rndNext gran info) b (.row image, info')) :
    FindsAsked (fun idx _ => info.scanPos ≤ idx) gran R t image info'.toHandler a b := by
  obtain ⟨c, ⟨found, scanned⟩, look, rest⟩ := Performed.bind_inv performed
  obtain ⟨d, ⟨value, kept⟩, locked, last⟩ := rest.bind_inv
  have lastCalm : Calm R t d b := last.calm (.ret _)
  have lastLe := last.le
  cases last.pure_inv
  have stmt := (fmScan_stmt look).trans writeStmt
  cases found with
  | error e => cases locked.pure_inv
  | ok record =>
      obtain ⟨k, ⟨pos, row⟩, scan, rest⟩ := Performed.bind_inv look
      cases row with
      | error e => cases rest.pure_inv
      | ok record' =>
          obtain ⟨_, idx, a', b', _, _, rfl, from_, _, _, lower, upper, read, rests⟩ :=
            scanNext_row scan
          simp only [Nat.add_sub_cancel] at rest
          cases slot : toSlot idx with
          | none =>
              rw [slot] at rest
              cases rest.pure_inv
              obtain ⟨_, _, _, _, _, _, lock, reread, _, holds⟩ := rowRead_row stmt locked
              obtain ⟨_, _, current, rfl⟩ := rereadLocked_found reread
              cases (lockCurrentRow_slot lock).symm.trans current
          | some at_ =>
              rw [slot] at rest
              obtain ⟨_, g, load, done⟩ := Performed.bind_inv rest
              have loaded := load.unchecked (.perform fun _ _ clash => by cases clash)
              have after := loaded.trans (.of_rest (Does.ret_inv done).2)
              have order := load.le.trans done.le
              cases done.pure_inv
              obtain rfl : at_ = idx := by
                unfold toSlot at slot
                split at slot
                · exact (Option.some.inj slot).symm
                · cases slot
              have looked : ReadLast gran R t at_ record a c :=
                ReadLast.extend ⟨a', b', lower, upper, read, .of_rest rests⟩ (Nat.le_refl a) order
                  after
              exact (FindsAsked.of_read looked locked stmt rfl fun _ _ => from_).extend lastLe
                lastCalm

theorem rndPos_asked {pos : SlotRef} {info info' : Info} (writeStmt : info.writeStmt = true)
    (performed : Performed R t a (rndPos gran pos info) b (.row image, info')) :
    FindsAsked (fun idx slot => pos.slot = some idx ∧ slot.gen = pos.gen) gran R t image
      info'.toHandler a b := by
  obtain ⟨c, ⟨found, scanned⟩, look, rest⟩ := Performed.bind_inv performed
  obtain ⟨d, ⟨value, kept⟩, locked, last⟩ := rest.bind_inv
  have lastCalm : Calm R t d b := last.calm (.ret _)
  have lastLe := last.le
  cases last.pure_inv
  have stmt := (fmRrnd_stmt look).trans writeStmt
  unfold fmRrnd at look
  simp only at look
  split at look
  · cases look.pure_inv
    cases locked.pure_inv
  · rename_i idx here
    obtain ⟨k, row, read, done⟩ := look.bind_inv
    cases row with
    | error e =>
        cases done.pure_inv
        cases locked.pure_inv
    | ok record =>
        have after : Unchecked R t k c := .of_rest (Does.ret_inv done).2
        have doneLe := done.le
        cases done.pure_inv
        exact ⟨idx, record, true, pos.gen, ⟨a, k, c, d, _, _, Nat.le_refl a, doneLe, lastLe, stmt,
          rfl, read, after, locked, lastCalm⟩, fun slot _ gen => ⟨here, gen rfl⟩⟩

theorem rowProgram_asked {getRecBits : Bytes → Nat → Nat → UInt8} {T : TableShare n}
    {info info' : Info} {call : RowCall n} (writeStmt : info.writeStmt = true)
    (performed : Performed R t a (rowProgram getRecBits T gran info call) b (.row image, info')) :
    FindsAsked (fun idx slot => call.Answers getRecBits T info idx slot) gran R t image
      info'.toHandler a b := by
  have ofHandler : ∀ {asked : Nat → Slot n → Prop}
      {program : Handler → CoreProg n (RowRes n × Handler)},
      (∀ {m h'}, Performed R t a (program info.toHandler) m (.row image, h') →
        FindsAsked asked gran R t image h' a m) →
      Performed R t a (onHandler program info) b (.row image, info') →
      FindsAsked asked gran R t image info'.toHandler a b := by
    intro asked program finds performed
    obtain ⟨m, ⟨value, kept⟩, first, last⟩ := performed.bind_inv
    have lastCalm : Calm R t m b := last.calm (.ret _)
    have lastLe := last.le
    cases last.pure_inv
    exact (finds first).extend lastLe lastCalm
  cases call with
  | indexReadMap key => exact ofHandler (readIdxMap_asked writeStmt) performed
  | indexReadLastMap key => exact ofHandler (readIdxMap_asked writeStmt) performed
  | indexReadIdxMap inx key => exact ofHandler (readIdxMap_asked writeStmt) performed
  | indexNext => exact ofHandler (readNext_asked writeStmt) performed
  | findUniqueRow record uniqueIdx => exact ofHandler (readUnique_asked writeStmt) performed
  | rndNext => exact rndNext_asked writeStmt performed
  | rndPos pos => exact rndPos_asked writeStmt performed
  | externalLock _ | indexInit _ | rndInit _ | writeRow _ _ | updateRow _ _ | deleteRow _ | reset =>
      cases rowProgram_row performed

end Reads

/-! ### Runs -/

section Runs

variable {getRecBits : Bytes → Nat → Nat → UInt8} {T : TableShare n} {gran : Gran}

/-- Nobody has deleted or written the row between its lookup by this call and its check under
the lock. -/
def TakesUntouched (R : (rowHandlers getRecBits T gran).Run) (t : Nat) (call : RowCall n)
    (info : Info) (i idx : Nat) : Prop :=
  ∀ found again, InCall R t call info i again → i < found → Unbroken R t found again →
    Marked R found (.state idx) → Marked R again (.state idx) →
    (R.st again).owner (.wlock idx) = some t → RowUntouched R idx found again

/-- A row read of a write statement that returns a row has looked it up and then checked it under
its lock, and it answers the call if the row that was looked up does. -/
theorem returned_checked {R : (rowHandlers getRecBits T gran).Run} {garbage : Nat → Rec n}
    {heap : Heap} {readCheckUsed : Bool} {maxKeyLength activeIndex t i j : Nat} {call : RowCall n}
    {info info' : Info} {image : Rec n}
    (starts : R.StartsIn (Core.fresh garbage heap)
      (fmOpened readCheckUsed maxKeyLength activeIndex))
    (returned : R.Returned t call info i j (.row image) info') (writeStmt : info.writeStmt = true) :
    ∃ idx record checkGen g found first second again,
      (HoldsRow info'.toHandler idx ∧ (R.st (j + 1)).owner (.wlock idx) = some t ∧
        RowIs R idx image (j + 1)) ∧
      (InCall R t call info i again ∧ i < found ∧ again ≤ R.len) ∧
      RowChecked gran R t idx record checkGen g found first second again ∧
      (R.st (j + 1)).slot idx = (R.st again).slot idx ∧
      ∀ slot : Slot n, slot.data = record → (checkGen = true → slot.gen = g) →
        call.Answers getRecBits T info idx slot := by
  have kept := fmOpened_kept readCheckUsed maxKeyLength activeIndex
  have quiet := rowHandlers_quiet starts kept
  have bound := returned.bound
  have rests : Calm R t j (j + 1) := by
    intro m lower upper own
    obtain rfl : m = j := by omega
    rw [R.rest_same bound fun call ρ action next busy => ?_]
    · exact .refl _
    · rw [own, returned.returns] at busy
      cases busy
  obtain ⟨idx, record, checkGen, g, read, answers⟩ := (rowProgram_asked writeStmt
    (Performed.ofReturned returned)).extend (Nat.le_succ j) rests
  have owned : HoldsRow info'.toHandler idx → (R.st (j + 1)).owner (.wlock idx) = some t :=
    fun holds => (rowHandlers_noted starts kept bound returned.idle_after idx).mpr
      ⟨holds.rowLocked, holds.lockedSlot⟩
  obtain ⟨holds, row, found, first, second, again, lower, upper, checked, still⟩ :=
    read.checked quiet bound owned
  have order := checked.unbroken.order
  have inCall : InCall R t call info i again :=
    ⟨returned.started, by omega, fun k from_ until_ => returned.inside k from_ (by omega)⟩
  exact ⟨idx, record, checkGen, g, found, first, second, again, ⟨holds, owned holds, row⟩,
    ⟨inCall, by omega, by omega⟩, checked, still, answers⟩

/-- What is to hold of a row read of a write statement that returns a row: the handler has the
lock of a slot with this row in it, and the row is the one that was asked for if nobody has
touched it between its lookup and the lock. -/
def ReadsAsked (R : (rowHandlers getRecBits T gran).Run) : Prop :=
  ∀ t call info i j image info', R.Returned t call info i j (.row image) info' →
    info.writeStmt = true →
    ∃ idx, HoldsRow info'.toHandler idx ∧ (R.st (j + 1)).owner (.wlock idx) = some t ∧
      RowIs R idx image (j + 1) ∧
      (TakesUntouched R t call info i idx →
        call.Answers getRecBits T info idx ((R.st (j + 1)).slot idx))

theorem lockedReads_asked (getRecBits : Bytes → Nat → Nat → UInt8) (T : TableShare n) (gran : Gran)
    (R : (rowHandlers getRecBits T gran).Run) (garbage : Nat → Rec n) (heap : Heap)
    (readCheckUsed : Bool) (maxKeyLength activeIndex : Nat)
    (starts : R.StartsIn (Core.fresh garbage heap)
      (fmOpened readCheckUsed maxKeyLength activeIndex)) : ReadsAsked R := by
  intro t call info i j image info' returned writeStmt
  have quiet := rowHandlers_quiet starts (fmOpened_kept readCheckUsed maxKeyLength activeIndex)
  obtain ⟨idx, record, checkGen, g, found, first, second, again, ⟨holds, owner, row⟩,
    ⟨inCall, later, bound⟩, checked, still, answers⟩ := returned_checked starts returned writeStmt
  refine ⟨idx, holds, owner, row, fun untouched => ?_⟩
  have kept := untouched found again inCall later checked.unbroken checked.round.checked
    checked.marked checked.owner
  have beforeFirst := checked.round.order.1
  rw [still]
  exact answers _ (checked.data_again quiet bound kept.same
    fun m lower upper => kept.unwritten m (by omega) upper)
    (checked.gen_again quiet bound kept.same)

end Runs

def Mark.touched : Mark → Option Nat
  | .bumpGen idx | .bumpSeq idx => some idx
  | _ => none

theorem cycleTurns_untouched (idx : Nat) :
    TakesUntouched cycleTurnsRun 0 (.indexReadIdxMap 0 [7]) (cycleInfo 0 38) 38 idx := by
  have still : ∀ m, m < 58 → 38 ≤ m →
      ((cycleTurnsRun.ev m).labelled Act.mark).bind Mark.touched = none := by
    decide +kernel
  have done : ((cycleTurnsRun.cfg 58).thread 0).resting.isSome = true := by
    decide +kernel
  intro found again inCall after _ _ _ _
  have inside : again < 58 := by
    by_contra beyond
    obtain ⟨program, busy⟩ := inCall.running 58 (by omega) (Nat.not_lt.mp beyond)
    rw [busy] at done
    cases done
  have unmarked : ∀ m mark, found ≤ m → m < again → Marked cycleTurnsRun m mark →
      mark.touched = none := by
    intro m mark lower upper marked
    have none := still m (by omega) (by omega)
    rw [show _ = _ from marked] at none
    exact none
  constructor
  · intro m lower upper marked
    cases unmarked m _ lower upper marked
  · intro m lower upper marked
    cases unmarked m _ lower upper marked

theorem lockedReads_asked_cycleTurns :
    cycleTurnsRun.Returned 0 (.indexReadIdxMap 0 [7]) (cycleInfo 0 38) 38 57 (.row fun _ => 7)
      (cycleInfo 0 58) ∧
    (∃ idx, RowIs cycleTurnsRun idx (fun _ => 7) 58 ∧
      (byteShare.core.keydef 0).ops.cmpRecKey ((cycleTurnsRun.st 58).slot idx).data [7] = 0) ∧
    ReadsAsked cycleTurnsRun := by
  have reads : ReadsAsked cycleTurnsRun :=
    lockedReads_asked zeroBits byteShare .whole cycleTurnsRun _ _ false 1 64 rfl
  have returned : cycleTurnsRun.Returned 0 (.indexReadIdxMap 0 [7]) (cycleInfo 0 38) 38 57
      (.row fun _ => 7) (cycleInfo 0 58) :=
    Run.returned_of_returns (by decide +kernel)
  obtain ⟨idx, _, _, row, answers⟩ := reads _ _ _ _ _ _ _ returned (by decide +kernel)
  exact ⟨returned, ⟨idx, row, answers (cycleTurns_untouched idx)⟩, reads⟩

end Fastmem
