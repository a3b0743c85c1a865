/-
What a table's row count is made of (fm_core.h, ha_fastmem.cc).

fm_core_insert_row adds one to `records` when it publishes its row and
fm_core_delete_row_locked takes one away when it retires its row. Every other
call, and every call that fails, leaves the counter alone. So once no call is
under way the table holds as many rows as write_row calls have succeeded, less
the successful delete_row calls: none is lost and none counts twice.
-/

import Fastmem.Concurrent.Integrity
import Fastmem.Handler.QuietHandlers
import Fastmem.OwnChanges

set_option autoImplicit false

namespace Fastmem

open Prog (perform iterate Performs)
open ThreadSystem

variable {n : Nat} {D : ShareDef n} {T : TableShare n} {gran : Gran} {t : Nat} {α β : Type}

/-! ### Programs that leave the counter alone -/

def Act.uncounted (ρ : Type) : Act n ρ → Prop
  | .addRecords _ | .storeRecords _ => False
  | _ => True

abbrev Counts (t : Nat) (program : CoreProg n α) (amount : α → Int) : Prop :=
  Adds (M := coreMachine n) Core.records t program amount

theorem uncounted_of_looks {program : CoreProg n α} (work : program.Performs Act.looks) :
    program.Performs Act.uncounted := by
  refine work.mono ?_
  intro ρ action kind
  cases action <;> first | exact trivial | exact kind.elim

theorem Counts.none {program : CoreProg n α} (work : program.Performs Act.uncounted) :
    Counts t program fun _ => 0 := by
  refine Adds.keeps ?_ work
  intro ρ action s s' result kind ran
  cases action with
  | addRecords delta => exact kind.elim
  | storeRecords count => exact kind.elim
  | lock l =>
      simp only [coreMachine, Act.exec] at ran
      split at ran
      · cases ran
        rfl
      · cases ran
  | _ =>
      cases ran
      rfl

theorem Counts.change (delta : Int) :
    Counts (n := n) t (perform (.addRecords delta)) fun _ => delta := by
  refine Adds.perform ?_
  intro s s' result ran
  cases ran
  rfl

/-! ### The functions of the core -/

section Core

open Prog.Performs (step)

theorem memcpyIn_uncounted (idx : Nat) (rec : Rec n) :
    (memcpyIn gran idx rec).Performs Act.uncounted := by
  cases gran with
  | whole => exact .perform trivial
  | bytewise => exact .forEach fun _ _ => .perform trivial

theorem freeSlot_uncounted (idx : Nat) :
    (fmCoreFreeSlot (n := n) idx).Performs Act.uncounted :=
  step trivial fun _ => step trivial fun _ => .perform trivial

theorem growKeyNext_uncounted (c keys left : Nat) :
    (growKeyNext (n := n) c keys left).Performs Act.uncounted := by
  induction left with
  | zero => exact .ret _
  | succ left ih =>
      refine step trivial fun granted => step trivial fun _ => ?_
      split
      · exact step trivial fun _ => ih
      · refine Performs.bind (.forEach fun _ _ => .perform trivial) fun _ => ?_
        refine step trivial fun _ => step trivial fun _ => step trivial fun _ => ?_
        exact step trivial fun _ => .ret _

theorem growChunk_uncounted : (fmCoreGrowChunk D).Performs Act.uncounted := by
  have keys : ∀ c, (growChunkKeys D c).Performs Act.uncounted := by
    intro c
    unfold growChunkKeys
    split
    · exact .ret _
    · refine step trivial fun granted => step trivial fun _ => ?_
      split
      · exact growKeyNext_uncounted c D.keys D.keys
      · exact step trivial fun _ => step trivial fun _ => .ret _
  refine step trivial fun c => ?_
  split
  · exact .ret _
  · refine step trivial fun granted => step trivial fun _ => ?_
    split
    · exact .ret _
    · refine step trivial fun _ => (keys c).bind fun complete => ?_
      split
      · exact step trivial fun _ => .ret _
      · exact .ret _

theorem allocSlot_uncounted : (fmCoreAllocSlot D).Performs Act.uncounted := by
  refine step trivial fun head => ?_
  cases head with
  | some idx => exact step trivial fun _ => step trivial fun _ => .ret _
  | none =>
      refine step trivial fun cnt => ?_
      dsimp only
      split
      · exact .ret _
      · refine growChunk_uncounted.bind fun failed => ?_
        split
        · exact .ret _
        · exact Performs.bind (.forEach fun i _ => freeSlot_uncounted i) fun _ => .ret _

theorem chainUnlink_uncounted (k b idx : Nat) :
    (fmCoreChainUnlink (n := n) k b idx).Performs Act.uncounted := by
  refine .iterate fun link => step trivial fun pointed => ?_
  cases pointed with
  | none => exact .ret _
  | some h =>
      dsimp only
      split
      · exact step trivial fun _ => step trivial fun _ => .ret _
      · exact .ret _

theorem chainLink_uncounted (k b idx : Nat) :
    (fmCoreChainLink (n := n) k b idx).Performs Act.uncounted :=
  step trivial fun _ => step trivial fun _ => .perform trivial

theorem reads_uncounted {program : CoreProg n α} (work : program.Performs Act.reads) :
    program.Performs Act.uncounted :=
  uncounted_of_looks (looks_of_reads work)

theorem insertLinkKeys_uncounted (rec : Rec n) (idx : Nat) (keys : List Nat) :
    (insertLinkKeys D gran rec idx keys).Performs Act.uncounted := by
  induction keys with
  | nil => exact .ret _
  | cons k rest ih =>
      refine step trivial fun _ => (reads_uncounted (dupCheck_reads k _ rec)).bind fun dup => ?_
      split
      · exact step trivial fun _ => .ret _
      · exact (chainLink_uncounted k _ idx).bind fun _ => step trivial fun _ => ih

theorem insertRollback_uncounted (rec : Rec n) (idx k : Nat) :
    (insertRollback D rec idx k).Performs Act.uncounted := by
  induction k with
  | zero => exact .ret _
  | succ k ih =>
      exact step trivial fun _ => (chainUnlink_uncounted k _ idx).bind fun _ =>
        step trivial fun _ => ih

theorem updateRowLocked_uncounted (idx : Nat) (g : UInt32) (old new : Rec n) :
    (fmCoreUpdateRowLocked D gran idx g old new).Performs Act.uncounted := by
  have unlocks : ∀ pairs, (unlockBuckets (n := n) pairs).Performs Act.uncounted :=
    fun _ => .forEach fun _ _ => .perform trivial
  have writes : (fmCoreWriteImage gran idx new).Performs Act.uncounted :=
    step trivial fun _ => (memcpyIn_uncounted idx new).bind fun _ => .perform trivial
  refine (reads_uncounted ((slotStale_readsSlot idx g).mono Act.readsSlot.reads)).bind
    fun stale => ?_
  split
  · exact .ret _
  · dsimp only
    split
    · exact writes.bind fun _ => .ret _
    · refine Performs.bind (.forEach fun _ _ => .perform trivial) fun _ => ?_
      refine (reads_uncounted (dupCheckChanged_reads new _)).bind fun dup => ?_
      cases dup with
      | some k => exact (unlocks _).bind fun _ => .ret _
      | none =>
          refine writes.bind fun _ => Performs.bind (.forEach fun k _ => ?_) fun _ => ?_
          · exact (chainUnlink_uncounted k _ idx).bind fun _ => chainLink_uncounted k _ idx
          · exact (unlocks _).bind fun _ => .ret _

end Core

/-! ### The functions that count -/

def onSuccess {ε : Type} (amount : Int) : Except ε α → Int
  | .ok _ => amount
  | .error _ => 0

def RowRes.succeeded (amount : Int) : RowRes n → Int
  | .changed result => onSuccess amount result
  | _ => 0

def RowCall.effect : RowCall n → RowRes n → Int
  | .writeRow _ _, result => result.succeeded 1
  | .deleteRow _, result => result.succeeded (-1)
  | _, _ => 0

theorem insertRow_counts (rec : Rec n) :
    Counts t (fmCoreInsertRow D gran rec) (onSuccess 1) := by
  refine Adds.after (Counts.none (.perform trivial)) fun _ => Adds.after (Counts.none allocSlot_uncounted) fun slot => ?_
  cases slot with
  | none =>
      refine Adds.after (Counts.none (.perform trivial)) fun _ => ?_
      exact Adds.after (Counts.none (.perform trivial)) fun _ => Adds.ret rfl
  | some idx =>
      refine Adds.after (Counts.none (memcpyIn_uncounted idx rec)) fun _ => ?_
      refine Adds.after (Counts.none (insertLinkKeys_uncounted rec idx _)) fun dup => ?_
      cases dup with
      | some k =>
          refine Adds.after (Counts.none (insertRollback_uncounted rec idx k)) fun _ => ?_
          refine Adds.after (Counts.none (freeSlot_uncounted idx)) fun _ => ?_
          exact Adds.after (Counts.none (.perform trivial)) fun _ => Adds.ret rfl
      | none =>
          refine Adds.after (Counts.none (.perform trivial)) fun _ => ?_
          refine Adds.bind (Counts.change 1) fun _ => ?_
          exact Adds.after (Counts.none (.perform trivial)) fun _ => Adds.ret rfl

theorem deleteRowLocked_counts (idx : Nat) (g : UInt32) :
    Counts t (fmCoreDeleteRowLocked D gran idx g) (onSuccess (-1)) := by
  refine Adds.after (Counts.none (reads_uncounted ((slotStale_readsSlot idx g).mono Act.readsSlot.reads)))
    fun stale => ?_
  split
  · exact Adds.ret rfl
  · refine Adds.after (Counts.none (.perform trivial)) fun _ => ?_
    refine Adds.after (Counts.none (reads_uncounted (memcpyOut_reads idx))) fun scratch => ?_
    refine Adds.after (Counts.none (.forEach fun k _ => ?_)) fun _ => ?_
    · exact .step trivial fun _ => (chainUnlink_uncounted k _ idx).bind fun _ => .perform trivial
    · refine Adds.after (Counts.none (.perform trivial)) fun _ => Adds.after (Counts.none (.perform trivial)) fun _ => ?_
      refine Adds.bind (Counts.change (-1)) fun _ => Adds.after (Counts.none (.perform trivial)) fun _ => ?_
      refine Adds.after (Counts.none (freeSlot_uncounted idx)) fun _ => ?_
      exact Adds.after (Counts.none (.perform trivial)) fun _ => Adds.ret rfl

/-! ### Calls -/

theorem writeRow_counts (numbered : Bool) (record : Rec n) (h : Handler) :
    Counts t (writeRow T gran numbered record h) fun outcome => outcome.1.succeeded 1 := by
  unfold writeRow
  split
  · have writes : Counts t (fmWriteRow T gran record h) fun outcome => onSuccess 1 outcome.1 := by
      refine Adds.bind (insertRow_counts record) fun inserted => ?_
      cases inserted with
      | error e => exact Adds.ret rfl
      | ok idx => exact Adds.after (Counts.none (.perform trivial)) fun g => Adds.ret rfl
    refine Adds.bind writes fun outcome => ?_
    exact Adds.ret (sub_self _)
  · exact Adds.ret rfl

theorem fmDeleteLocked_counts (buf : Rec n) (h : Handler) :
    Counts t (fmDeleteLocked T gran buf h) fun outcome => onSuccess (-1) outcome.1 := by
  unfold fmDeleteLocked
  split
  · exact Adds.ret rfl
  · rename_i idx _
    split
    · refine Adds.after (Counts.none (reads_uncounted (readRow_reads idx true _))) fun row => ?_
      cases row with
      | error e => exact Adds.ret rfl
      | ok scratch =>
          dsimp only
          split
          · exact Adds.ret rfl
          · refine Adds.bind (deleteRowLocked_counts idx h.currentGen) fun result => ?_
            cases result with
            | error e => exact Adds.ret rfl
            | ok _ => exact Adds.ret rfl
    · refine Adds.bind (deleteRowLocked_counts idx h.currentGen) fun result => ?_
      cases result with
      | error e => exact Adds.ret rfl
      | ok _ => exact Adds.ret rfl

theorem deleteRow_counts (buf : Rec n) (h : Handler) :
    Counts t (deleteRow T gran buf h) fun outcome => onSuccess (-1) outcome.1 := by
  refine Adds.after (Counts.none (uncounted_of_looks (takeCurrentRow_looks h))) fun outcome => ?_
  obtain ⟨taken, kept⟩ := outcome
  cases taken with
  | false => exact Adds.ret rfl
  | true =>
      refine Adds.bind (fmDeleteLocked_counts buf kept) fun written => ?_
      refine Adds.after (Counts.none (uncounted_of_looks (unlockCurrentRow_looks written.2)))
        fun _ => ?_
      exact Adds.ret (sub_self _)

theorem updateRow_uncounted (old new : Rec n) (h : Handler) :
    (updateRow T gran old new h).Performs Act.uncounted := by
  refine Performs.bind (uncounted_of_looks (takeCurrentRow_looks h)) fun outcome => ?_
  obtain ⟨taken, kept⟩ := outcome
  cases taken with
  | false => exact .ret _
  | true =>
      refine Performs.bind ?_ fun written =>
        (uncounted_of_looks (unlockCurrentRow_looks written.2)).bind fun _ => .ret _
      unfold fmUpdateRowLocked fmUpdateLockedOn
      split
      · exact .ret _
      · rename_i idx _
        refine Performs.bind (reads_uncounted (readCheck_reads idx old kept)) fun checked => ?_
        cases checked with
        | error e => exact .ret _
        | ok _ =>
            refine (updateRowLocked_uncounted idx kept.currentGen old new).bind fun result => ?_
            cases result with
            | error e => exact .ret _
            | ok _ => exact .ret _

theorem rowProgram_counts (getRecBits : Bytes → Nat → Nat → UInt8) (info : Info)
    (call : RowCall n) :
    Counts t (rowProgram getRecBits T gran info call) fun outcome => call.effect outcome.1 := by
  cases looks : call.looks with
  | true =>
      have none : Counts t (rowProgram getRecBits T gran info call) fun _ => 0 :=
        Counts.none (uncounted_of_looks (rowProgram_looks getRecBits info call looks))
      have effect : (fun outcome : RowRes n × Info => call.effect outcome.1) = fun _ => 0 := by
        funext outcome
        cases call <;> first | rfl | cases looks
      rw [effect]
      exact none
  | false =>
      cases call with
      | writeRow numbered record =>
          refine Adds.bind (writeRow_counts numbered record info.toHandler) fun outcome => ?_
          exact Adds.ret (sub_self _)
      | deleteRow buf =>
          have changes : Counts t ((deleteRow T gran buf info.toHandler).bind fun outcome =>
              .ret ((RowRes.changed outcome.1 : RowRes n), outcome.2)) fun outcome =>
                outcome.1.succeeded (-1) :=
            Adds.bind (deleteRow_counts buf info.toHandler) fun _ => Adds.ret (sub_self _)
          refine Adds.bind changes fun outcome => ?_
          exact Adds.ret (sub_self _)
      | updateRow old new =>
          refine Counts.none ?_
          exact ((updateRow_uncounted old new info.toHandler).bind fun _ => .ret _).bind
            fun _ => .ret _
      | _ => cases looks

/-! ### Runs -/

/-- Once no call is under way, the counter is the number of successful write_row calls less the
number of successful delete_row calls, and there are as many rows. -/
theorem rowHandlers_accounted (getRecBits : Bytes → Nat → Nat → UInt8) (T : TableShare n)
    (gran : Gran) (R : (rowHandlers getRecBits T gran).Run) (garbage : Nat → Rec n) (heap : Heap)
    (readCheckUsed : Bool) (maxKeyLength activeIndex : Nat)
    (starts : R.StartsIn (Core.fresh garbage heap)
      (fmOpened readCheckUsed maxKeyLength activeIndex))
    (m : Nat) (bound : m ≤ R.len) (resting : ∀ t, ∃ info, (R.cfg m).thread t = .idle info) :
    (R.st m).records = ∑ j ∈ Finset.range m, R.returned RowCall.effect j ∧
      (R.st m).records = (activeSlots (R.st m)).card := by
  constructor
  · have total := Run.total starts (fun t call info => rowProgram_counts (t := t) getRecBits info call)
      bound resting
    exact total.trans (zero_add _)
  · exact (quietRun_rests (rowHandlers_obedient getRecBits T gran) starts
      (fmOpened_kept readCheckUsed maxKeyLength activeIndex) bound resting).2

/-- Both handlers write the row 7 at the same time. Then handler 0 deletes it while handler 1 writes
the row 9. -/
def countTurns : List (Nat × Option (RowCall 1)) :=
  List.flatten [callSteps 0 (.writeRow true fun _ => 7) 18,
    callSteps 1 (.writeRow true fun _ => 7) 0, List.replicate 17 (0, none),
    List.replicate 19 (1, none), callSteps 0 (.externalLock .wrlck) 1,
    callSteps 0 (.rndInit true) 1, callSteps 0 .rndNext 17, callSteps 0 (.deleteRow fun _ => 7) 8,
    callSteps 1 (.writeRow true fun _ => 9) 5, List.replicate 5 (0, none),
    List.replicate 12 (1, none), List.replicate 7 (0, none)]

theorem countTurns_played : (play (S := rowHandlers zeroBits byteShare .whole)
    ⟨byteStart, fun _ => .idle (fmOpened false 1 64)⟩ countTurns).isSome = true := by
  decide +kernel

def countTurnsRun : (rowHandlers zeroBits byteShare .whole).Run :=
  Run.ofSchedule ⟨byteStart, fun _ => .idle (fmOpened false 1 64)⟩ countTurns countTurns_played

theorem countTurns_rests (t : Nat) : ∃ info, (countTurnsRun.cfg 117).thread t = .idle info :=
  countTurnsRun.all_rest 1 rfl (by decide +kernel) (Nat.le_refl 117) (by decide +kernel) t

theorem rowHandlers_accounted_countTurns : (countTurnsRun.st 117).records = 1 ∧
    (∑ j ∈ Finset.range 117, countTurnsRun.returned RowCall.effect j) = 1 ∧
      (activeSlots (countTurnsRun.st 117)).card = 1 := by
  have one : (countTurnsRun.st 117).records = 1 := by
    decide +kernel
  obtain ⟨total, rows⟩ := rowHandlers_accounted zeroBits byteShare .whole countTurnsRun _ _ false 1
    64 rfl 117 (Nat.le_refl 117) countTurns_rests
  exact ⟨one, total.symm.trans one, Int.natCast_inj.mp (rows.symm.trans one)⟩

end Fastmem
