/-
Who owns the row locks (ha_fastmem.cc).

Between two calls a handler owns the lock of the slot it has noted and no other
slot lock. Every function that takes, moves or releases the row lock keeps this,
whatever the other handlers do meanwhile, so an unlock is always one of a lock
that the handler owns.
-/

import Fastmem.Handler.RowHandlers

set_option autoImplicit false

namespace Fastmem

open Prog (perform)
open ThreadSystem

variable {n : Nat}

/-! ### Locking and unlocking the current row -/

def rowSlots (row : Option Nat) (idx : Nat) : Bool := decide (row = some idx)

theorem rowSlots_drop (idx : Nat) :
    Function.update (rowSlots (some idx)) idx false = rowSlots none := by
  funext other
  by_cases same : other = idx
  · subst same
    rw [Function.update_self]
    rfl
  · rw [Function.update_of_ne same]
    exact decide_eq_false fun clash => same (Option.some.inj clash).symm

theorem rowSlots_take (idx : Nat) :
    Function.update (rowSlots none) idx true = rowSlots (some idx) := by
  funext other
  by_cases same : other = idx
  · subst same
    rw [Function.update_self]
    exact (decide_eq_true rfl).symm
  · rw [Function.update_of_ne same]
    exact (decide_eq_false fun clash => same (Option.some.inj clash).symm).symm

def Handler.Sound (h : Handler) : Prop := h.rowLocked = true → h.lockedSlot ≠ none

def RowKept (h : Handler) (ghost : Ghost n) : Prop :=
  ∃ seen, ghost = Ghost.rest (rowSlots h.held) seen ∧ h.Sound ∧ CurrentBelow h seen

theorem Handler.unlocked_sound (h : Handler) : h.unlocked.Sound := by
  intro locked
  unfold unlocked at locked
  split at locked
  · cases locked
  · contradiction

theorem Handler.unlocked_currentSlot (h : Handler) : h.unlocked.currentSlot = h.currentSlot := by
  unfold unlocked
  split <;> rfl

theorem Handler.unlocked_kept {h : Handler} {seen : Nat} (below : CurrentBelow h seen) :
    RowKept h.unlocked (Ghost.rest (rowSlots none) seen : Ghost n) := by
  refine ⟨seen, ?_, h.unlocked_sound, ?_⟩
  · rw [unlocked_held]
  · intro idx current
    rw [unlocked_currentSlot] at current
    exact below idx current

section Triples

variable {S : Setting n} {t : Nat} {kind : Bool} {promise : (coreProtocol S).Promise}
  {seen : Nat} {h : Handler} {role : Role n}

theorem unlockCurrentRow_triple (sound : h.Sound)
    (ended : role = .idle ∨ ∃ idx, h.held = some idx ∧ role.settled S.D S.linked idx) :
    CoreTriple S t kind promise ((Ghost.rest (rowSlots h.held) seen).become role)
      (unlockCurrentRow h) fun h' ghost' =>
        h' = h.unlocked ∧ ghost' = Ghost.rest (rowSlots none) seen := by
  cases locked : h.rowLocked with
  | false =>
      have held : h.held = none := by
        unfold Handler.held
        rw [locked, if_neg Bool.false_ne_true]
      have same : h.unlocked = h := by
        unfold Handler.unlocked
        rw [locked, if_neg Bool.false_ne_true]
      have idle : role = .idle := by
        cases ended with
        | inl idle => exact idle
        | inr settled =>
            obtain ⟨idx, clash, _⟩ := settled
            rw [held] at clash
            cases clash
      unfold unlockCurrentRow
      rw [locked, held, idle, same]
      exact Protocol.Triple.ret ⟨rfl, rfl⟩
  | true =>
      obtain ⟨idx, slot⟩ := Option.ne_none_iff_exists'.mp (sound locked)
      have held : h.held = some idx := by
        unfold Handler.held
        rw [locked, if_pos rfl, slot]
      have same : h.unlocked = { h with rowLocked := false, lockedSlot := none } := by
        unfold Handler.unlocked
        rw [locked, if_pos rfl]
      have mine : ((Ghost.rest (rowSlots h.held) seen).become role : Ghost n).slots idx = true := by
        change decide (h.held = some idx) = true
        exact decide_eq_true held
      have dropped : CoreTriple S t kind promise
          ((Ghost.rest (rowSlots h.held) seen).become role) (perform (.unlock (.wlock idx)))
          fun _ ghost' => ghost' = Ghost.rest (rowSlots none) seen := by
        rw [held] at mine ⊢
        rw [← rowSlots_drop idx]
        cases ended with
        | inl idle =>
            subst idle
            exact CoreTriple.unlockSlot mine fun clash => by cases clash
        | inr settled =>
            obtain ⟨idx', holds, settled⟩ := settled
            rw [held] at holds
            cases holds
            exact CoreTriple.unlockSettled settled mine rfl
      unfold unlockCurrentRow
      rw [locked, slot, same]
      refine Protocol.Triple.bind dropped ?_
      rintro _ _ rfl
      exact Protocol.Triple.ret ⟨rfl, rfl⟩

theorem lockCurrentRow_triple {idx : Nat} (current : h.currentSlot = some idx)
    (below : idx < seen) (sound : h.Sound) :
    CoreTriple S t kind promise (Ghost.rest (rowSlots h.held) seen) (lockCurrentRow h)
      fun h' ghost' => h' = h.locking idx ∧ ghost' = Ghost.rest (rowSlots (some idx)) seen := by
  unfold lockCurrentRow
  rw [current]
  by_cases already : h.rowLocked = true ∧ h.lockedSlot = some idx
  · have held : h.held = some idx := (if_pos already.1).trans already.2
    have same : h.locking idx = h := by
      unfold Handler.locking
      rw [← already.1, ← already.2]
    simp only [if_pos already]
    rw [held, same]
    exact Protocol.Triple.ret ⟨rfl, rfl⟩
  · have relocked : ({ h.unlocked with rowLocked := true, lockedSlot := some idx } : Handler) =
        h.locking idx := by
      unfold Handler.unlocked Handler.locking
      split <;> rfl
    simp only [if_neg already]
    refine Protocol.Triple.bind (unlockCurrentRow_triple sound (Or.inl rfl)) ?_
    rintro _ _ ⟨rfl, rfl⟩
    refine Protocol.Triple.bind (CoreTriple.lockSlot (Or.inl below)) ?_
    rintro _ _ ⟨_, rfl⟩
    refine Protocol.Triple.ret ⟨relocked, ?_⟩
    rw [← rowSlots_take idx]
    rfl

theorem fmRereadLocked_triple (gran : Gran) {ghost : Ghost n} :
    CoreTriple S t kind promise ghost (fmRereadLocked gran h) fun outcome ghost' =>
      ghost' = ghost ∧ ∃ g, outcome.2 = { h with currentGen := g } := by
  unfold fmRereadLocked
  split
  · exact Protocol.Triple.ret ⟨rfl, h.currentGen, rfl⟩
  · rename_i idx current
    refine Protocol.Triple.bind (CoreTriple.load (.loadGen idx) trivial) ?_
    rintro g _ rfl
    refine Protocol.Triple.bind CoreTriple.readRow_same ?_
    rintro row _ rfl
    cases row with
    | ok record => exact Protocol.Triple.ret ⟨rfl, g, rfl⟩
    | error e => exact Protocol.Triple.ret ⟨rfl, h.currentGen, rfl⟩

theorem lockCurrentRow_kept (sound : h.Sound) (below : CurrentBelow h seen) :
    CoreTriple S t kind promise (Ghost.rest (rowSlots h.held) seen) (lockCurrentRow h)
      fun h' ghost' => ghost' = Ghost.rest (rowSlots h'.held) seen ∧ h'.Sound ∧
        h'.currentSlot = h.currentSlot := by
  cases current : h.currentSlot with
  | none =>
      unfold lockCurrentRow
      rw [current]
      exact Protocol.Triple.ret ⟨rfl, sound, current⟩
  | some idx =>
      refine (lockCurrentRow_triple current (below idx current) sound).mono ?_
      rintro _ _ ⟨rfl, rfl⟩
      exact ⟨rfl, fun _ clash => (by cases clash), current⟩

/-! ### Row reads -/

theorem afterRead_triple (gran : Gran) (gone : HaErr) (record : Rec n) (sound : h.Sound)
    (below : CurrentBelow h seen) :
    CoreTriple S t kind promise (Ghost.rest (rowSlots h.held) seen)
      (afterRead gran gone record h) fun outcome ghost' => RowKept outcome.2 ghost' := by
  unfold afterRead
  by_cases writing : h.writeStmt = true
  · simp only [if_pos writing]
    refine Protocol.Triple.bind (lockCurrentRow_kept sound below) ?_
    rintro locked _ ⟨rfl, sound', same⟩
    have below' : CurrentBelow locked seen := fun idx current => below idx (same.symm.trans current)
    refine Protocol.Triple.bind (fmRereadLocked_triple gran) ?_
    rintro ⟨again, read⟩ _ ⟨rfl, g, changed⟩
    cases changed
    cases again with
    | ok record => exact Protocol.Triple.ret ⟨seen, rfl, sound', below'⟩
    | error e =>
        refine Protocol.Triple.bind (unlockCurrentRow_triple
          (h := { locked with currentGen := g }) sound' (Or.inl rfl)) ?_
        rintro _ _ ⟨rfl, rfl⟩
        exact Protocol.Triple.ret (Handler.unlocked_kept below')
  · simp only [if_neg writing]
    exact Protocol.Triple.ret ⟨seen, rfl, sound, below⟩

theorem rowRead_triple (gran : Gran) (gone : HaErr) (found : Except HaErr (Rec n))
    (sound : h.Sound) (below : CurrentBelow h seen) :
    CoreTriple S t kind promise (Ghost.rest (rowSlots h.held) seen)
      (rowRead gran gone found h) fun outcome ghost' => RowKept outcome.2 ghost' := by
  cases found with
  | error e => exact Protocol.Triple.ret ⟨seen, rfl, sound, below⟩
  | ok record =>
      refine Protocol.Triple.bind (afterRead_triple gran gone record sound below) ?_
      rintro ⟨again, read⟩ ghost kept
      cases again with
      | ok record => exact Protocol.Triple.ret kept
      | error e => exact Protocol.Triple.ret kept

theorem Looked.sound {h h' : Handler} {seen seen' : Nat} (looked : Looked h h' seen seen')
    (sound : h.Sound) : h'.Sound := by
  intro locked
  rw [looked.lockedSlot]
  exact sound (looked.rowLocked.symm.trans locked)

theorem Looked.held {h h' : Handler} {seen seen' : Nat} (looked : Looked h h' seen seen') :
    h'.held = h.held := by
  unfold Handler.held
  rw [looked.rowLocked, looked.lockedSlot]

theorem looked_triple {α β : Type} {program : CoreProg n α} {next : α → CoreProg n β}
    {handler : α → Handler} {post : β → Ghost n → Prop} (sound : h.Sound)
    (below : CurrentBelow h seen)
    (looks : CoreTriple S t kind promise (Ghost.rest (rowSlots h.held) seen) program
      fun value ghost' => ∃ seen', ghost' = Ghost.rest (rowSlots h.held) seen' ∧
        Looked h (handler value) seen seen')
    (rest : ∀ value seen', (handler value).Sound → CurrentBelow (handler value) seen' →
      CoreTriple S t kind promise (Ghost.rest (rowSlots (handler value).held) seen') (next value)
        post) :
    CoreTriple S t kind promise (Ghost.rest (rowSlots h.held) seen) (program.bind next) post := by
  refine Protocol.Triple.bind looks ?_
  rintro value _ ⟨seen', rfl, looked⟩
  rw [← looked.held]
  exact rest value seen' (looked.sound sound) (looked.below below)

theorem readIdxMap_triple (T : TableShare n) (core : S.D = T.core) (inx : Nat) (key : PackedKey)
    (sound : h.Sound) (below : CurrentBelow h seen) :
    CoreTriple S t kind promise (Ghost.rest (rowSlots h.held) seen) (readIdxMap T S.gran inx key h)
      fun outcome ghost' => RowKept outcome.2 ghost' :=
  looked_triple sound below (fmFindKey_triple T core inx key h) fun value _ sound' below' =>
    rowRead_triple S.gran .keyNotFound value.1 sound' below'

theorem readNext_triple (T : TableShare n) (core : S.D = T.core) (sound : h.Sound)
    (below : CurrentBelow h seen) :
    CoreTriple S t kind promise (Ghost.rest (rowSlots h.held) seen) (readNext T S.gran h)
      fun outcome ghost' => RowKept outcome.2 ghost' := by
  unfold readNext
  split
  · exact Protocol.Triple.ret ⟨seen, rfl, sound, below⟩
  · rename_i inx _
    refine looked_triple sound below (fmFindNextKey_triple T core inx h.lastkey h.currentSlot h) ?_
    rintro ⟨found, read⟩ seen' sound' below'
    cases found with
    | ok record => exact rowRead_triple S.gran .keyNotFound (.ok record) sound' below'
    | error e =>
        simp only
        split
        · exact Protocol.Triple.ret ⟨seen', rfl, sound', below'⟩
        · exact Protocol.Triple.ret ⟨seen', rfl, sound', below'⟩

theorem readUnique_triple (getRecBits : Bytes → Nat → Nat → UInt8) (T : TableShare n)
    (core : S.D = T.core) (record : Rec n) (uniqueIdx : Nat) (sound : h.Sound)
    (below : CurrentBelow h seen) :
    CoreTriple S t kind promise (Ghost.rest (rowSlots h.held) seen)
      (readUnique getRecBits T S.gran record uniqueIdx h)
      fun outcome ghost' => RowKept outcome.2 ghost' := by
  unfold readUnique
  simp only
  split
  · exact Protocol.Triple.ret ⟨seen, rfl, sound, below⟩
  · rw [← core]
    refine Protocol.Triple.bind CoreTriple.find_triple ?_
    rintro found _ ⟨count, rfl, above, _⟩
    have more : seen ≤ max seen count := Nat.le_max_left seen count
    cases found with
    | error e => exact Protocol.Triple.ret ⟨max seen count, rfl, sound, below.mono more⟩
    | ok pair =>
        refine Protocol.Triple.bind (CoreTriple.load (.loadGen pair.1) trivial) ?_
        rintro g _ rfl
        refine rowRead_triple S.gran .keyNotFound (.ok pair.2) (h := { h with
          currentSlot := some pair.1
          currentGen := g
          lastkey := h.makeKey getRecBits (T.keydef uniqueIdx) record
          lastinx := some uniqueIdx
          update := { HaState.none with aktiv := true } }) sound fun idx same => ?_
        cases same
        exact Nat.lt_of_lt_of_le (above pair rfl) (Nat.le_max_right seen count)

theorem rndNext_triple (gran : Gran) (info : Info) (sound : info.toHandler.Sound)
    (below : CurrentBelow info.toHandler seen) :
    CoreTriple S t kind promise (Ghost.rest (rowSlots info.toHandler.held) seen)
      (rndNext gran info) fun outcome ghost' => RowKept outcome.2.toHandler ghost' := by
  refine looked_triple sound below (fmScan_triple gran info) fun value seen' sound' below' => ?_
  refine Protocol.Triple.bind (rowRead_triple gran .recordDeleted value.1 sound' below') ?_
  exact fun _ _ kept => Protocol.Triple.ret kept

theorem rndPos_triple (gran : Gran) (pos : SlotRef) (info : Info) (sound : info.toHandler.Sound)
    (below : CurrentBelow info.toHandler seen) (valid : ∀ idx, pos.slot = some idx → idx < seen) :
    CoreTriple S t kind promise (Ghost.rest (rowSlots info.toHandler.held) seen)
      (rndPos gran pos info) fun outcome ghost' => RowKept outcome.2.toHandler ghost' := by
  have looks : CoreTriple S t kind promise (Ghost.rest (rowSlots info.toHandler.held) seen)
      (fmRrnd gran pos info) _ :=
    fmRrnd_triple gran pos info valid
  refine looked_triple sound below (looks.mono fun _ _ outcome => ⟨seen, outcome⟩)
    fun value seen' sound' below' => ?_
  refine Protocol.Triple.bind (rowRead_triple gran .recordDeleted value.1 sound' below') ?_
  exact fun _ _ kept => Protocol.Triple.ret kept

/-! ### Row writes -/

theorem fmWriteRow_triple (T : TableShare n) (core : S.D = T.core) (record : Rec n)
    (sound : h.Sound) (below : CurrentBelow h seen) :
    CoreTriple S t kind promise (Ghost.rest (rowSlots h.held) seen)
      (fmWriteRow T S.gran record h) fun outcome ghost' => RowKept outcome.2 ghost' := by
  unfold fmWriteRow fmWriteOn
  rw [← core]
  refine Protocol.Triple.bind CoreTriple.insertRow_triple ?_
  rintro result _ ⟨count, rfl, above⟩
  have more : seen ≤ max seen count := Nat.le_max_left seen count
  cases result with
  | error e =>
      have kept : RowKept (h.noteErr e) (Ghost.rest (rowSlots h.held) (max seen count) : Ghost n) := by
        cases e <;> exact ⟨max seen count, rfl, sound, below.mono more⟩
      exact Protocol.Triple.ret kept
  | ok idx =>
      refine Protocol.Triple.bind (CoreTriple.load (.loadGen idx) trivial) ?_
      rintro g _ rfl
      refine Protocol.Triple.ret ⟨max seen count, rfl, sound, fun idx' same => ?_⟩
      cases same
      exact Nat.lt_of_lt_of_le (above idx rfl) (Nat.le_max_right seen count)

/-- What the guard of update_row and delete_row leaves: the handler with the lock of its row, or
without any. -/
def Taken (h : Handler) (taken : Bool) (h' : Handler) : Prop :=
  h'.Sound ∧ h'.currentSlot = h.currentSlot ∧
    if taken then h'.currentSlot ≠ none ∧ h'.held = h'.currentSlot else h'.held = none

theorem taken_of_locked (sound : h.Sound) (locked : h.rowLocked = true)
    (same : h.lockedSlot = h.currentSlot) : Taken h true h := by
  refine ⟨sound, rfl, ?_, ?_⟩
  · rw [← same]
    exact sound locked
  · rw [← same]
    exact if_pos locked

theorem takeCurrentRow_triple (sound : h.Sound) (below : CurrentBelow h seen) :
    CoreTriple S t kind promise (Ghost.rest (rowSlots h.held) seen) (takeCurrentRow h)
      fun outcome ghost' => ghost' = Ghost.rest (rowSlots outcome.2.held) seen ∧
        Taken h outcome.1 outcome.2 := by
  unfold takeCurrentRow
  split
  · rename_i all
    exact Protocol.Triple.ret ⟨rfl, taken_of_locked sound all.2.1 all.2.2⟩
  · have locked : CoreTriple S t kind promise (Ghost.rest (rowSlots h.held) seen)
        (if h.writeStmt = true ∧ h.currentSlot ≠ none ∧ h.rowLocked = false then lockCurrentRow h
          else return h) fun h' ghost' => ghost' = Ghost.rest (rowSlots h'.held) seen ∧ h'.Sound ∧
            h'.currentSlot = h.currentSlot := by
      split
      · exact lockCurrentRow_kept sound below
      · exact Protocol.Triple.ret ⟨rfl, sound, rfl⟩
    refine Protocol.Triple.bind locked ?_
    rintro h' _ ⟨rfl, sound', same⟩
    split
    · rename_i both
      have taken := taken_of_locked sound' both.1 both.2
      exact Protocol.Triple.ret ⟨rfl, sound', same, taken.2.2⟩
    · refine Protocol.Triple.bind (unlockCurrentRow_triple sound' (Or.inl rfl)) ?_
      rintro _ _ ⟨rfl, rfl⟩
      refine Protocol.Triple.ret ⟨?_, Handler.unlocked_sound h', ?_, Handler.unlocked_held h'⟩
      · rw [Handler.unlocked_held]
      · rw [Handler.unlocked_currentSlot]
        exact same

theorem readCheck_same (gran : Gran) (idx : Nat) (old : Rec n) {ghost : Ghost n} :
    CoreTriple S t kind promise ghost (readCheck gran idx old h)
      fun _ ghost' => ghost' = ghost := by
  unfold readCheck
  split
  · refine Protocol.Triple.bind CoreTriple.readRow_same ?_
    rintro row _ rfl
    cases row with
    | error e => exact Protocol.Triple.ret rfl
    | ok scratch =>
        simp only
        split
        · exact Protocol.Triple.ret rfl
        · exact Protocol.Triple.ret rfl
  · exact Protocol.Triple.ret rfl

def Written (h' : Handler) (idx seen : Nat) (S : Setting n) (ghost : Ghost n) : Prop :=
  h'.Sound ∧ h'.held = some idx ∧ CurrentBelow h' seen ∧
    ∃ role, ghost = (Ghost.rest (rowSlots (some idx)) seen).become role ∧
      (role = .idle ∨ role.settled S.D S.linked idx)

theorem unlockWritten_triple {h' : Handler} {idx : Nat} {ghost : Ghost n}
    (written : Written h' idx seen S ghost) :
    CoreTriple S t kind promise ghost (unlockCurrentRow h')
      fun h'' ghost' => h'' = h'.unlocked ∧ RowKept h'' ghost' := by
  obtain ⟨sound, held, below, role, rfl, ended⟩ := written
  rw [← held]
  refine (unlockCurrentRow_triple sound
    (ended.imp_right fun settled => ⟨idx, held, settled⟩)).mono ?_
  rintro _ _ ⟨rfl, rfl⟩
  exact ⟨rfl, Handler.unlocked_kept below⟩

/-- What update_row relies on where chains count: its row is as the caller has read it, and may
move to the buckets of the new record. -/
structure MayUpdate (S : Setting n) (t : Nat) (promise : (coreProtocol S).Promise)
    (old new : Rec n) : Prop where
  current : S.linked → ∀ idx g, CoreTriple.Current S promise idx g old
  moves : ∀ idx, CoreTriple.MayMove S t promise idx old new

theorem MayUpdate.unlinked {old new : Rec n} (unlinked : ¬ S.linked) :
    MayUpdate S t promise old new where
  current linked := absurd linked unlinked
  moves _ := ⟨fun distinct => absurd (S.distinct_linked distinct) unlinked,
    fun linked => absurd linked unlinked⟩

theorem fmUpdateRowLocked_triple (T : TableShare n) (core : S.D = T.core) (old new : Rec n)
    (may : MayUpdate S t promise old new) {idx : Nat} (current : h.currentSlot = some idx) (held : h.held = some idx)
    (sound : h.Sound) (below : CurrentBelow h seen) :
    CoreTriple S t kind promise (Ghost.rest (rowSlots (some idx)) seen)
      (fmUpdateRowLocked T S.gran old new h)
      fun outcome ghost' => Written outcome.2 idx seen S ghost' := by
  have mine : rowSlots (some idx) idx = true := decide_eq_true rfl
  have kept : Written h idx seen S (Ghost.rest (rowSlots (some idx)) seen) :=
    ⟨sound, held, below, .idle, rfl, Or.inl rfl⟩
  unfold fmUpdateRowLocked fmUpdateLockedOn
  split
  · rename_i absent
    cases current.symm.trans absent
  · rename_i idx' present
    obtain rfl : idx = idx' := Option.some.inj (current.symm.trans present)
    rw [← core]
    refine Protocol.Triple.bind (readCheck_same S.gran idx old) ?_
    rintro checked _ rfl
    cases checked with
    | error e => exact Protocol.Triple.ret kept
    | ok _ =>
        refine Protocol.Triple.bind (CoreTriple.updateRowLocked_triple mine
          (fun linked => may.current linked idx h.currentGen) (may.moves idx)) ?_
        rintro result ghost ended
        cases result with
        | error e =>
            have noted : Written (h.noteErr e) idx seen S ghost := by
              cases e <;> exact ⟨sound, held, below, ended⟩
            exact Protocol.Triple.ret noted
        | ok _ => exact Protocol.Triple.ret ⟨sound, held, below, ended⟩

theorem fmDeleteLocked_triple (T : TableShare n) (core : S.D = T.core) (buf : Rec n) {idx : Nat}
    (opens : CoreTriple.FlipOpen S promise idx) (current : h.currentSlot = some idx)
    (held : h.held = some idx) (sound : h.Sound) (below : CurrentBelow h seen) :
    CoreTriple S t kind promise (Ghost.rest (rowSlots (some idx)) seen)
      (fmDeleteLocked T S.gran buf h)
      fun outcome ghost' => Written outcome.2 idx seen S ghost' := by
  have mine : rowSlots (some idx) idx = true := decide_eq_true rfl
  have kept : Written h idx seen S (Ghost.rest (rowSlots (some idx)) seen) :=
    ⟨sound, held, below, .idle, rfl, Or.inl rfl⟩
  have deleted : ∀ tail : Except Err Unit → CoreProg n (HaResult Unit),
      (∀ e, tail (.error e) = pure (.error e.toHa, h)) →
      tail (.ok ()) = pure (.ok (), { h with
        update := { HaState.none with deleted := true }
        currentSlot := none }) →
      CoreTriple S t kind promise (Ghost.rest (rowSlots (some idx)) seen)
        ((fmCoreDeleteRowLocked S.D S.gran idx h.currentGen).bind tail)
        fun outcome ghost' => Written outcome.2 idx seen S ghost' := by
    intro tail refused done
    refine Protocol.Triple.bind (CoreTriple.deleteRowLocked_triple mine opens) ?_
    intro result ghost ended
    cases result with
    | error e =>
        rw [refused]
        exact Protocol.Triple.ret ⟨sound, held, below, ended⟩
    | ok _ =>
        rw [done]
        refine Protocol.Triple.ret ⟨sound, held, fun _ clash => ?_, ended⟩
        cases clash
  unfold fmDeleteLocked
  split
  · rename_i absent
    cases current.symm.trans absent
  · rename_i idx' present
    obtain rfl : idx = idx' := Option.some.inj (current.symm.trans present)
    rw [← core]
    simp only
    split
    · refine Protocol.Triple.bind CoreTriple.readRow_same ?_
      rintro row _ rfl
      cases row with
      | error e => exact Protocol.Triple.ret kept
      | ok scratch =>
          simp only
          split
          · exact Protocol.Triple.ret kept
          · exact deleted _ (fun _ => rfl) rfl
    · exact deleted _ (fun _ => rfl) rfl

/-- update_row and delete_row with their own ways to write the locked row. -/
theorem takenWrite_triple {write : Handler → CoreProg n (HaResult Unit)}
    (writes : ∀ {h' : Handler} {idx : Nat}, h'.currentSlot = some idx → h'.held = some idx →
      h'.Sound → CurrentBelow h' seen →
      CoreTriple S t kind promise (Ghost.rest (rowSlots (some idx)) seen) (write h')
        fun outcome ghost' => Written outcome.2 idx seen S ghost')
    (sound : h.Sound) (below : CurrentBelow h seen) :
    CoreTriple S t kind promise (Ghost.rest (rowSlots h.held) seen)
      (do let (taken, h) ← takeCurrentRow h
          if !taken then
            return (.error .recordChanged, h)
          else
            let (rc, h) ← write h
            let h ← unlockCurrentRow h
            return (rc, h))
      fun outcome ghost' => RowKept outcome.2 ghost' := by
  refine Protocol.Triple.bind (takeCurrentRow_triple sound below) ?_
  rintro ⟨taken, h'⟩ _ ⟨rfl, sound', same, locked⟩
  have below' : CurrentBelow h' seen := fun idx current => below idx (same.symm.trans current)
  cases taken with
  | false => exact Protocol.Triple.ret ⟨seen, rfl, sound', below'⟩
  | true =>
      obtain ⟨present, held⟩ := locked
      obtain ⟨idx, current⟩ := Option.ne_none_iff_exists'.mp present
      have mine : h'.held = some idx := held.trans current
      change CoreTriple S t kind promise (Ghost.rest (rowSlots h'.held) seen) _ _
      rw [mine]
      refine Protocol.Triple.bind (writes current mine sound' below') ?_
      rintro ⟨rc, after⟩ ghost written
      refine Protocol.Triple.bind (unlockWritten_triple written) ?_
      rintro _ _ ⟨rfl, kept⟩
      exact Protocol.Triple.ret kept

theorem updateRow_kept (T : TableShare n) (core : S.D = T.core) (old new : Rec n)
    (may : MayUpdate S t promise old new) (sound : h.Sound) (below : CurrentBelow h seen) :
    CoreTriple S t kind promise (Ghost.rest (rowSlots h.held) seen)
      (updateRow T S.gran old new h) fun outcome ghost' => RowKept outcome.2 ghost' :=
  takenWrite_triple (fun current held sound' below' =>
    fmUpdateRowLocked_triple T core old new may current held sound' below') sound below

theorem deleteRow_kept (T : TableShare n) (core : S.D = T.core) (buf : Rec n)
    (opens : ∀ idx, CoreTriple.FlipOpen S promise idx) (sound : h.Sound)
    (below : CurrentBelow h seen) :
    CoreTriple S t kind promise (Ghost.rest (rowSlots h.held) seen)
      (deleteRow T S.gran buf h) fun outcome ghost' => RowKept outcome.2 ghost' :=
  takenWrite_triple (fun current held sound' below' =>
    fmDeleteLocked_triple T core buf (opens _) current held sound' below') sound below

end Triples

/-! ### All calls -/

def LockKept (info : Info) (slots : Nat → Bool) (seen : Nat) : Prop :=
  slots = rowSlots info.toHandler.held ∧ info.toHandler.Sound ∧ CurrentBelow info.toHandler seen

section Obedience

variable {S : Setting n} {t : Nat} {kind : Bool} {promise : (coreProtocol S).Promise}
  {seen : Nat} {info : Info}

theorem onHandler_kept {α : Type} {program : Handler → CoreProg n (α × Handler)}
    {ghost : Ghost n} (triple : CoreTriple S t kind promise ghost (program info.toHandler)
      fun outcome ghost' => RowKept outcome.2 ghost') :
    CoreTriple S t kind promise ghost (onHandler program info)
      fun outcome ghost' => RowKept outcome.2.toHandler ghost' :=
  Protocol.Triple.bind triple fun _ _ kept => Protocol.Triple.ret kept

theorem externalLock_triple {h : Handler} (lockType : LockType) (sound : h.Sound)
    (below : CurrentBelow h seen) :
    CoreTriple S t kind promise (Ghost.rest (rowSlots h.held) seen) (externalLock lockType h)
      fun h' ghost' => RowKept h' ghost' := by
  cases lockType with
  | rdlck => exact Protocol.Triple.ret ⟨seen, rfl, sound, below⟩
  | wrlck => exact Protocol.Triple.ret ⟨seen, rfl, sound, below⟩
  | unlck =>
      refine (unlockCurrentRow_triple (h := { h with writeStmt := false }) sound (Or.inl rfl)).mono
        ?_
      rintro _ _ ⟨rfl, rfl⟩
      exact Handler.unlocked_kept below

theorem forget_triple {forget : Info → Info} (sound : info.toHandler.Sound)
    (held : ∀ info, (forget info).toHandler.held = info.toHandler.held)
    (sounds : ∀ info, info.toHandler.Sound → (forget info).toHandler.Sound)
    (forgets : ∀ info, (forget info).currentSlot = none) :
    CoreTriple S t kind promise (Ghost.rest (rowSlots info.toHandler.held) seen)
      (do let h ← unlockCurrentRow info.toHandler
          return forget { info with toHandler := h })
      fun info' ghost' => RowKept info'.toHandler ghost' := by
  refine Protocol.Triple.bind (unlockCurrentRow_triple sound (Or.inl rfl)) ?_
  rintro _ _ ⟨rfl, rfl⟩
  refine Protocol.Triple.ret ⟨seen, ?_, sounds _ info.toHandler.unlocked_sound, ?_⟩
  · rw [held, Handler.unlocked_held]
  · intro idx current
    cases (forgets _).symm.trans current

theorem reset_triple (sound : info.toHandler.Sound) :
    CoreTriple S t kind promise (Ghost.rest (rowSlots info.toHandler.held) seen) (reset info)
      fun info' ghost' => RowKept info'.toHandler ghost' :=
  forget_triple sound (fun _ => rfl) (fun _ => id) fun _ => rfl

theorem rndInit_triple (scan : Bool) (sound : info.toHandler.Sound)
    (below : CurrentBelow info.toHandler seen) :
    CoreTriple S t kind promise (Ghost.rest (rowSlots info.toHandler.held) seen)
      (rndInit scan info) fun info' ghost' => RowKept info'.toHandler ghost' := by
  cases scan with
  | false => exact Protocol.Triple.ret ⟨seen, rfl, sound, below⟩
  | true => exact forget_triple sound (fun _ => rfl) (fun _ => id) fun _ => rfl

theorem rowProgram_kept (getRecBits : Bytes → Nat → Nat → UInt8) (T : TableShare n)
    (core : S.D = T.core) (call : RowCall n)
    (may : ∀ old new, call = .updateRow old new → MayUpdate S t promise old new)
    (opens : ∀ idx, CoreTriple.FlipOpen S promise idx)
    (valid : ∀ pos, call = .rndPos pos → ∀ idx, pos.slot = some idx → idx < seen)
    (sound : info.toHandler.Sound) (below : CurrentBelow info.toHandler seen) :
    CoreTriple S t kind promise (Ghost.rest (rowSlots info.toHandler.held) seen)
      (rowProgram getRecBits T S.gran info call)
      fun outcome ghost' => RowKept outcome.2.toHandler ghost' := by
  cases call with
  | externalLock lockType =>
      unfold rowProgram
      refine onHandler_kept ?_
      exact Protocol.Triple.bind (externalLock_triple lockType sound below)
        fun _ _ kept => Protocol.Triple.ret kept
  | indexInit inx => exact Protocol.Triple.ret ⟨seen, rfl, sound, below⟩
  | indexReadMap key => exact onHandler_kept (readIdxMap_triple T core _ key sound below)
  | indexReadLastMap key => exact onHandler_kept (readIdxMap_triple T core _ key sound below)
  | indexReadIdxMap inx key => exact onHandler_kept (readIdxMap_triple T core inx key sound below)
  | indexNext => exact onHandler_kept (readNext_triple T core sound below)
  | rndInit scan =>
      exact Protocol.Triple.bind (rndInit_triple scan sound below)
        fun _ _ kept => Protocol.Triple.ret kept
  | rndNext => exact rndNext_triple S.gran info sound below
  | rndPos pos => exact rndPos_triple S.gran pos info sound below (valid pos rfl)
  | findUniqueRow record uniqueIdx =>
      exact onHandler_kept (readUnique_triple getRecBits T core record uniqueIdx sound below)
  | writeRow numbered record =>
      cases numbered with
      | false => exact onHandler_kept (Protocol.Triple.ret ⟨seen, rfl, sound, below⟩)
      | true =>
          exact onHandler_kept (Protocol.Triple.bind (fmWriteRow_triple T core record sound below)
            fun _ _ kept => Protocol.Triple.ret kept)
  | updateRow old new =>
      unfold rowProgram
      refine onHandler_kept ?_
      exact Protocol.Triple.bind (updateRow_kept T core old new (may old new rfl) sound below)
        fun _ _ kept => Protocol.Triple.ret kept
  | deleteRow buf =>
      unfold rowProgram
      refine onHandler_kept ?_
      exact Protocol.Triple.bind (deleteRow_kept T core buf opens sound below)
        fun _ _ kept => Protocol.Triple.ret kept
  | reset =>
      exact Protocol.Triple.bind (reset_triple sound) fun _ _ kept => Protocol.Triple.ret kept

end Obedience

end Fastmem
