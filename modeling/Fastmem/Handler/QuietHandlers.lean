/-
Handlers as threads that never truncate.

Of the calls of a handler only update_row steps a sequence counter, by the one
image write of fm_core_update_row_locked; the other calls are plain. All of them
keep the habits of the core's code, so the runs of handlers are quiet.
-/

import Fastmem.Concurrent.SlotHistories
import Fastmem.Handler.RowOwnership

set_option autoImplicit false

namespace Fastmem

open Prog (Heeds Performs perform)
open ThreadSystem

variable {n : Nat} {D : ShareDef n} {T : TableShare n} {gran : Gran}

/-! ### Programs that only look -/

def Act.looks (ρ : Type) : Act n ρ → Prop
  | .lock _ | .unlock _ => True
  | action => action.reads

theorem looks_of_reads {α : Type} {program : CoreProg n α} (work : program.Performs Act.reads) :
    program.Performs Act.looks := by
  refine work.mono ?_
  intro ρ action kind
  cases action <;> first | exact kind | exact kind.elim

theorem plain_of_looks {α : Type} {program : CoreProg n α} (work : program.Performs Act.looks) :
    Plain D program := by
  refine Heeds.of_performs (fun next kind => ?_) work
  rename_i action
  cases action <;> first | exact trivial | exact kind.elim

theorem scanNext_reads (pos : Nat) : (fmCoreScanNext (n := n) gran pos).Performs Act.reads := by
  refine .step trivial fun cnt => .iterate fun pos => ?_
  unfold scanRound
  split
  · refine (readRow_reads pos false 0).bind fun row => ?_
    cases row with
    | ok buf => exact .ret _
    | error e => exact .ret _
  · exact .ret _

theorem find_looks (key : Nat) (packed : PackedKey) :
    (fmCoreFind D gran key packed).Performs Act.looks := by
  refine .step trivial fun _ => .step trivial fun head => ?_
  refine Performs.bind (.iterate fun h => ?_) fun found => .step trivial fun _ => .ret _
  cases h with
  | none => exact .ret _
  | some idx =>
      refine (looks_of_reads (readPassing_reads idx _)).bind fun row => ?_
      cases row with
      | some buf => exact .ret _
      | none => exact .step trivial fun _ => .ret _

theorem findNext_looks (key : Nat) (packed : PackedKey) (cur : Option Nat) :
    (fmCoreFindNext D gran key packed cur).Performs Act.looks := by
  refine .step trivial fun _ => .step trivial fun head => ?_
  refine Performs.bind (.iterate fun state => ?_) fun found => .step trivial fun _ => .ret _
  obtain ⟨h, afterCur⟩ := state
  cases h with
  | none => exact .ret _
  | some idx =>
      dsimp only [findNextRound]
      split
      · exact .step trivial fun _ => .ret _
      · refine Performs.bind ?_ fun row => ?_
        · split
          · exact looks_of_reads (readPassing_reads idx _)
          · exact .ret _
        · cases row with
          | some buf => exact .ret _
          | none => exact .step trivial fun _ => .ret _

/-! ### Row locks and row reads -/

theorem unlockCurrentRow_looks (h : Handler) :
    (unlockCurrentRow (n := n) h).Performs Act.looks := by
  unfold unlockCurrentRow
  split
  · exact .step trivial fun _ => .ret _
  · exact .ret _
  · exact .ret _

theorem lockCurrentRow_looks (h : Handler) :
    (lockCurrentRow (n := n) h).Performs Act.looks := by
  unfold lockCurrentRow
  split
  · exact .ret _
  · split
    · exact .ret _
    · exact (unlockCurrentRow_looks h).bind fun _ => .step trivial fun _ => .ret _

theorem fmRereadLocked_looks (h : Handler) :
    (fmRereadLocked (n := n) gran h).Performs Act.looks := by
  unfold fmRereadLocked
  split
  · exact .ret _
  · refine .step trivial fun g => (looks_of_reads (readRow_reads _ true g)).bind fun row => ?_
    cases row with
    | ok record => exact .ret _
    | error e => exact .ret _

theorem rowRead_looks (gone : HaErr) (found : Except HaErr (Rec n)) (h : Handler) :
    (rowRead gran gone found h).Performs Act.looks := by
  cases found with
  | error e => exact .ret _
  | ok record =>
      refine Performs.bind ?_ fun outcome => ?_
      · unfold afterRead
        split
        · refine (lockCurrentRow_looks h).bind fun locked => ?_
          refine (fmRereadLocked_looks locked).bind fun outcome => ?_
          obtain ⟨again, kept⟩ := outcome
          cases again with
          | ok record => exact .ret _
          | error e => exact (unlockCurrentRow_looks kept).bind fun _ => .ret _
        · exact .ret _
      · obtain ⟨again, kept⟩ := outcome
        cases again with
        | ok record => exact .ret _
        | error e => exact .ret _

theorem readIdxMap_looks (inx : Nat) (key : PackedKey) (h : Handler) :
    (readIdxMap T gran inx key h).Performs Act.looks := by
  refine Performs.bind ((find_looks inx key).bind fun found => ?_) fun outcome => ?_
  · cases found with
    | error e => exact .ret _
    | ok pair => exact .step trivial fun _ => .ret _
  · exact rowRead_looks .keyNotFound outcome.1 outcome.2

theorem readNext_looks (h : Handler) : (readNext T gran h).Performs Act.looks := by
  unfold readNext
  split
  · exact .ret _
  · rename_i inx _
    refine Performs.bind ((findNext_looks inx _ _).bind fun found => ?_) fun outcome => ?_
    · cases found with
      | error e => exact .ret _
      | ok pair => exact .step trivial fun _ => .ret _
    · obtain ⟨found, kept⟩ := outcome
      cases found with
      | ok record => exact rowRead_looks .keyNotFound (.ok record) kept
      | error e =>
          simp only
          split
          · exact .ret _
          · exact .ret _

theorem readUnique_looks (getRecBits : Bytes → Nat → Nat → UInt8) (record : Rec n)
    (uniqueIdx : Nat) (h : Handler) :
    (readUnique getRecBits T gran record uniqueIdx h).Performs Act.looks := by
  unfold readUnique
  simp only
  split
  · exact .ret _
  · refine (find_looks uniqueIdx _).bind fun found => ?_
    cases found with
    | error e => exact .ret _
    | ok pair => exact .step trivial fun _ => rowRead_looks .keyNotFound (.ok pair.2) _

theorem rndNext_looks (info : Info) : (rndNext (n := n) gran info).Performs Act.looks := by
  refine Performs.bind ((looks_of_reads (scanNext_reads info.scanPos)).bind fun outcome => ?_) fun found => ?_
  · obtain ⟨pos, row⟩ := outcome
    cases row with
    | error e => exact .ret _
    | ok record =>
        simp only
        cases toSlot (pos - 1) with
        | none => exact .ret _
        | some idx => exact .step trivial fun _ => .ret _
  · exact (rowRead_looks .recordDeleted found.1 found.2.toHandler).bind fun _ => .ret _

theorem rndPos_looks (pos : SlotRef) (info : Info) :
    (rndPos (n := n) gran pos info).Performs Act.looks := by
  refine Performs.bind ?_ fun found => ?_
  · unfold fmRrnd
    cases pos.slot with
    | none => exact .ret _
    | some idx =>
        refine (looks_of_reads (readRow_reads idx true pos.gen)).bind fun row => ?_
        cases row with
        | error e => exact .ret _
        | ok record => exact .ret _
  · exact (rowRead_looks .recordDeleted found.1 found.2.toHandler).bind fun _ => .ret _

/-! ### Row writes -/

theorem takeCurrentRow_looks (h : Handler) :
    (takeCurrentRow (n := n) h).Performs Act.looks := by
  unfold takeCurrentRow
  split
  · exact .ret _
  · refine Performs.bind ?_ fun locked => ?_
    · split
      · exact lockCurrentRow_looks h
      · exact .ret _
    · split
      · exact .ret _
      · exact (unlockCurrentRow_looks locked).bind fun _ => .ret _

theorem writeRow_plain (numbered : Bool) (record : Rec n) (h : Handler) :
    Plain T.core (writeRow T gran numbered record h) := by
  unfold writeRow
  split
  · refine Heeds.bind ((insertRow_plain record).bind fun inserted => ?_) fun _ => .ret _
    cases inserted with
    | error e => exact .ret _
    | ok idx => exact .step trivial fun _ => .ret _
  · exact .ret _

theorem fmDeleteLocked_plain (buf : Rec n) (h : Handler) :
    Plain T.core (fmDeleteLocked T gran buf h) := by
  unfold fmDeleteLocked
  split
  · exact .ret _
  · rename_i idx _
    split
    · refine (plain_of_reads (readRow_reads idx true _)).bind fun row => ?_
      cases row with
      | error e => exact .ret _
      | ok scratch =>
          simp only
          split
          · exact .ret _
          · refine (deleteRowLocked_plain idx h.currentGen).bind fun result => ?_
            cases result with
            | error e => exact .ret _
            | ok _ => exact .ret _
    · refine (deleteRowLocked_plain idx h.currentGen).bind fun result => ?_
      cases result with
      | error e => exact .ret _
      | ok _ => exact .ret _

theorem deleteRow_rowPlain (buf : Rec n) (h : Handler) : Plain T.core (deleteRow T gran buf h) := by
  refine (plain_of_looks (takeCurrentRow_looks h)).bind fun outcome => ?_
  obtain ⟨taken, kept⟩ := outcome
  cases taken with
  | false => exact .ret _
  | true =>
      refine (fmDeleteLocked_plain buf kept).bind fun written => ?_
      exact (plain_of_looks (unlockCurrentRow_looks written.2)).bind fun _ => .ret _

theorem readCheck_reads (idx : Nat) (old : Rec n) (h : Handler) :
    (readCheck gran idx old h).Performs Act.reads := by
  unfold readCheck
  split
  · refine (readRow_reads idx true h.currentGen).bind fun row => ?_
    cases row with
    | error e => exact .ret _
    | ok scratch =>
        simp only
        split
        · exact .ret _
        · exact .ret _
  · exact .ret _

theorem updateRow_rowTidy (old new : Rec n) (h : Handler) :
    Tidy T.core (updateRow T gran old new h) := by
  refine (plain_of_looks (takeCurrentRow_looks h)).tidy.bind fun outcome => ?_
  obtain ⟨taken, kept⟩ := outcome
  cases taken with
  | false => exact .ret _
  | true =>
      refine Heeds.bind ?_ fun written => (plain_of_looks (unlockCurrentRow_looks written.2)).tidy.bind fun _ => .ret _
      unfold fmUpdateRowLocked fmUpdateLockedOn
      split
      · exact .ret _
      · rename_i idx _
        refine (tidy_of_reads (readCheck_reads idx old kept)).bind fun checked => ?_
        cases checked with
        | error e => exact .ret _
        | ok _ =>
            refine (updateRowLocked_tidy idx kept.currentGen old new).bind fun result => ?_
            cases result with
            | error e => exact .ret _
            | ok _ => exact .ret _

/-! ### Calls -/

def RowCall.writes : RowCall n → Bool
  | .updateRow _ _ => true
  | _ => false

def RowCall.looks : RowCall n → Bool
  | .writeRow _ _ | .updateRow _ _ | .deleteRow _ => false
  | _ => true

theorem onHandler_looks {α : Type} {program : Handler → CoreProg n (α × Handler)}
    (work : ∀ h, (program h).Performs Act.looks) (info : Info) :
    (onHandler program info).Performs Act.looks :=
  (work info.toHandler).bind fun _ => .ret _

theorem rowProgram_looks (getRecBits : Bytes → Nat → Nat → UInt8) (info : Info) (call : RowCall n)
    (looks : call.looks = true) :
    (rowProgram getRecBits T gran info call).Performs Act.looks := by
  cases call with
  | externalLock lockType =>
      unfold rowProgram
      refine onHandler_looks (fun h => ?_) info
      refine Performs.bind ?_ fun _ => .ret _
      cases lockType with
      | rdlck => exact .ret _
      | wrlck => exact .ret _
      | unlck => exact unlockCurrentRow_looks _
  | indexInit inx => exact .ret _
  | indexReadMap key => exact onHandler_looks (readIdxMap_looks info.activeIndex key) info
  | indexReadLastMap key => exact onHandler_looks (readIdxMap_looks info.activeIndex key) info
  | indexReadIdxMap inx key => exact onHandler_looks (readIdxMap_looks inx key) info
  | indexNext => exact onHandler_looks readNext_looks info
  | rndInit scan =>
      refine Performs.bind ?_ fun _ => .ret _
      unfold rndInit
      split
      · exact (unlockCurrentRow_looks _).bind fun _ => .ret _
      · exact .ret _
  | rndNext => exact rndNext_looks info
  | rndPos pos => exact rndPos_looks pos info
  | findUniqueRow record uniqueIdx =>
      exact onHandler_looks (readUnique_looks getRecBits record uniqueIdx) info
  | writeRow numbered record => cases looks
  | updateRow old new => cases looks
  | deleteRow buf => cases looks
  | reset =>
      refine Performs.bind ?_ fun _ => .ret _
      exact (unlockCurrentRow_looks _).bind fun _ => .ret _

theorem rowProgram_plain (getRecBits : Bytes → Nat → Nat → UInt8) (info : Info) (call : RowCall n)
    (other : call.writes = false) : Plain T.core (rowProgram getRecBits T gran info call) := by
  cases looks : call.looks with
  | true => exact plain_of_looks (rowProgram_looks getRecBits info call looks)
  | false =>
      cases call with
      | writeRow numbered record =>
          exact (writeRow_plain numbered record info.toHandler).bind fun _ => .ret _
      | deleteRow buf =>
          exact ((deleteRow_rowPlain buf info.toHandler).bind fun _ => .ret _).bind fun _ => .ret _
      | updateRow old new => cases other
      | _ => cases looks

theorem rowProgram_tidy (getRecBits : Bytes → Nat → Nat → UInt8) (info : Info) (call : RowCall n) :
    Tidy T.core (rowProgram getRecBits T gran info call) := by
  cases writes : call.writes with
  | false => exact (rowProgram_plain getRecBits info call writes).tidy
  | true =>
      cases call with
      | updateRow old new =>
          exact ((updateRow_rowTidy old new info.toHandler).bind fun _ => .ret _).bind fun _ => .ret _
      | _ => cases writes

/-! ### Runs -/

variable {getRecBits : Bytes → Nat → Nat → UInt8} {R : (rowHandlers getRecBits T gran).Run}

theorem rowHandlers_quiet {garbage : Nat → Rec n} {heap : Heap} {opened : Info}
    (starts : R.StartsIn (Core.fresh garbage heap) opened)
    (kept : LockKept opened (fun _ => false) 0) : QuietRun (looseSetting T.core gran) R :=
  (rowHandlers_obedient getRecBits T gran).quietRun starts kept
    fun _ call info => rowProgram_tidy getRecBits info call

end Fastmem
