/-
Scans and positions of a handler (fm_data.cc), and threads that use them.

`Info` is an FM_INFO with its scan position. fm_scan, fm_find_key and
fm_find_next_key leave the slot they returned in `current_slot` and then load
its generation; fm_set_position packs the two, fm_rrnd reads a row by them.
The threads of `infoClients` make these calls and, besides, every call of the
core but the truncation.
-/

import Fastmem.Concurrent.QuietSystems
import Fastmem.Concurrent.RowReads
import Fastmem.Concurrent.TidyPrograms
import Fastmem.Handler.RowOperations

set_option autoImplicit false

namespace Fastmem

open Prog (perform)
open ThreadSystem

variable {n : Nat}

structure Info extends Handler where
  scanPos : Nat
  deriving DecidableEq

/-- FM_SLOT_REF; the slot -1 is `none`. -/
structure SlotRef where
  slot : Option Nat
  gen : UInt32
  deriving DecidableEq, Repr

/-- The conversion of an unsigned number to fm_i32; a negative number is no slot. -/
def toSlot (pos : Nat) : Option Nat := if pos < 2 ^ 31 then some pos else none

def fmSetPosition (info : Info) : SlotRef := ⟨info.currentSlot, info.currentGen⟩

def fmRrnd (gran : Gran) (pos : SlotRef) (info : Info) :
    CoreProg n (Except HaErr (Rec n) × Info) :=
  let info := { info with lastinx := none }
  match pos.slot with
  | none => return (.error .endOfFile, { info with update := HaState.none })
  | some idx => do
      match ← fmCoreReadRow gran idx true pos.gen with
      | .error _ =>
          return (.error .recordDeleted,
            { info with update := { HaState.none with prevFound := true, nextFound := true } })
      | .ok record =>
          return (.ok record, { info with
            currentSlot := some idx
            currentGen := pos.gen
            update := { HaState.none with prevFound := true, nextFound := true, aktiv := true } })

def fmScanInit (info : Info) : Info :=
  { info with
    lastinx := none
    scanPos := 0
    currentSlot := none
    update := HaState.none }

def fmScan (gran : Gran) (info : Info) : CoreProg n (Except HaErr (Rec n) × Info) := do
  let (pos, row) ← fmCoreScanNext gran info.scanPos
  let info := { info with scanPos := pos }
  match row with
  | .error _ =>
      return (.error .endOfFile,
        { info with update := { HaState.none with prevFound := true, nextFound := true } })
  | .ok record =>
      let info := { info with currentSlot := toSlot (pos - 1) }
      match info.currentSlot with
      | none => return (.ok record, info)
      | some idx =>
          let g ← perform (.loadGen idx)
          return (.ok record, { info with
            currentGen := g
            update := { HaState.none with prevFound := true, nextFound := true, aktiv := true } })

/-! ### Threads -/

inductive InfoCall (n : Nat)
  | core (call : CoreCall n)
  | scanInit
  | scan
  | findKey (inx : Nat) (key : PackedKey)
  | findNextKey (inx : Nat) (key : PackedKey) (cur : Option Nat)
  | rrnd (pos : SlotRef)
  deriving DecidableEq

inductive InfoRes (n : Nat)
  | core (result : CoreRes n)
  | row (result : Except HaErr (Rec n))
  | done
  deriving DecidableEq

def InfoCall.program (T : TableShare n) (gran : Gran) (info : Info) :
    InfoCall n → CoreProg n (InfoRes n × Info)
  | .core call => do return (.core (← call.program T.core gran), info)
  | .scanInit => return (.done, fmScanInit info)
  | .scan => do
      let (row, info) ← fmScan gran info
      return (.row row, info)
  | .findKey inx key => do
      let (row, h) ← fmFindKey T gran inx key info.toHandler
      return (.row row, { info with toHandler := h })
  | .findNextKey inx key cur => do
      let (row, h) ← fmFindNextKey T gran inx key cur info.toHandler
      return (.row row, { info with toHandler := h })
  | .rrnd pos => do
      let (row, info) ← fmRrnd gran pos info
      return (.row row, info)

/-- No thread truncates; key numbers are those of the table and a position is of an allocated
slot or of none. -/
def InfoCall.allowed (T : TableShare n) (t : Nat) (s : Core n) : InfoCall n → Bool
  | .core call => !call.truncates && call.allowed T.core t s
  | .scanInit | .scan => true
  | .findKey inx _ | .findNextKey inx _ _ => decide (inx < T.core.keys)
  | .rrnd pos => pos.slot.all fun idx => decide (idx < s.slotCount)

def infoClients (T : TableShare n) (gran : Gran) : ThreadSystem (coreMachine n) where
  Call := InfoCall n
  Res := InfoRes n
  Loc := Info
  code _ call info := call.program T gran info
  allowed t call _ s := call.allowed T t s

section Obedience

variable {S : Setting n} {t : Nat} {slots : Nat → Bool} {seen : Nat}

theorem coreCall_uncleared (unlinked : ¬ S.linked) (call : CoreCall n)
    (stays : call.truncates = false) (ready : call.Ready slots seen) :
    CoreTriple S t false (unclearedPromise S) (Ghost.rest slots seen) (call.program S.D S.gran)
      fun _ ghost => ∃ slots' seen', Ended S slots' seen' ghost := by
  have notClear : call ≠ .clear := by
    rintro rfl
    cases stays
  have triple : CoreTriple S t call.truncates ((coreFit S True fun _ _ _ => True).promise t call)
      (Ghost.rest slots seen) (call.program S.D S.gran)
      fun result ghost => (coreFit S True fun _ _ _ => True).Done t call result () ghost :=
    program_triple call ready fun _ => notClear
  rw [stays] at triple
  refine (triple.mono fun result ghost done => ?_).promised fun action s ghosts uncleared => ?_
  · obtain ⟨⟨slots', seen', role, same, ended⟩, _⟩ := done
    exact ⟨slots', seen', role, same, ended⟩
  · refine ⟨?_, trivial, fun _ => uncleared⟩
    cases action with
    | loadGen idx => exact fun _ _ _ _ linked => absurd linked unlinked
    | loadState y => exact fun _ _ _ _ _ distinct => absurd (S.distinct_linked distinct) unlinked
    | storeCell cell value =>
        cases cell with
        | head k b =>
            cases value with
            | none => trivial
            | some idx => exact fun _ _ _ _ linked => absurd linked unlinked
        | next k i => trivial
        | freeHead => trivial
        | freeNext i => trivial
    | storeState idx state =>
        cases state with
        | deleting => exact fun u cleared emptied role => uncleared u ⟨cleared, emptied, role⟩
        | free => trivial
        | active => trivial
        | deleted => trivial
    | lock l =>
        cases l with
        | structMutex => exact fun isClear => absurd isClear notClear
        | wlock i => trivial
        | bucket k b => trivial
    | _ => trivial

variable {kind : Bool} {promise : (coreProtocol S).Promise} {ghost : Ghost n}

def CurrentBelow (h : Handler) (count : Nat) : Prop := ∀ idx, h.currentSlot = some idx → idx < count

theorem CurrentBelow.mono {h : Handler} {count count' : Nat} (below : CurrentBelow h count)
    (more : count ≤ count') : CurrentBelow h count' :=
  fun idx current => Nat.lt_of_lt_of_le (below idx current) more

structure Looked (h h' : Handler) (seen seen' : Nat) : Prop where
  more : seen ≤ seen'
  below : CurrentBelow h seen → CurrentBelow h' seen'
  rowLocked : h'.rowLocked = h.rowLocked
  lockedSlot : h'.lockedSlot = h.lockedSlot

theorem fmScan_triple (gran : Gran) (info : Info) :
    CoreTriple S t kind promise (Ghost.rest slots seen) (fmScan gran info) fun outcome ghost' =>
      ∃ seen', ghost' = Ghost.rest slots seen' ∧
        Looked info.toHandler outcome.2.toHandler seen seen' := by
  refine Protocol.Triple.bind CoreTriple.scanNext_sees ?_
  rintro ⟨pos, row⟩ _ ⟨count, rfl, above⟩
  have more : seen ≤ max seen count := Nat.le_max_left seen count
  cases row with
  | error e => exact Protocol.Triple.ret ⟨max seen count, rfl, more, fun below => below.mono more, rfl, rfl⟩
  | ok record =>
      have slot : ∀ idx, toSlot (pos - 1) = some idx → idx < max seen count := by
        intro idx isSlot
        unfold toSlot at isSlot
        split at isSlot
        · cases isSlot
          exact Nat.lt_of_lt_of_le (above record rfl) (Nat.le_max_right seen count)
        · cases isSlot
      simp only
      cases current : toSlot (pos - 1) with
      | none =>
          refine Protocol.Triple.ret ⟨max seen count, rfl, more, fun _ idx clash => ?_, rfl, rfl⟩
          cases clash
      | some idx =>
          refine Protocol.Triple.bind (CoreTriple.load (.loadGen idx) trivial) ?_
          rintro g _ rfl
          refine Protocol.Triple.ret ⟨max seen count, rfl, more, fun _ idx' same => ?_, rfl, rfl⟩
          cases same
          exact slot idx current

theorem fmRrnd_triple (gran : Gran) (pos : SlotRef) (info : Info)
    (valid : ∀ idx, pos.slot = some idx → idx < seen) :
    CoreTriple S t kind promise (Ghost.rest slots seen) (fmRrnd gran pos info)
      fun outcome ghost' => ghost' = Ghost.rest slots seen ∧
        Looked info.toHandler outcome.2.toHandler seen seen := by
  unfold fmRrnd
  cases slot : pos.slot with
  | none => exact Protocol.Triple.ret ⟨rfl, Nat.le_refl seen, id, rfl, rfl⟩
  | some idx =>
      refine Protocol.Triple.bind CoreTriple.readRow_same ?_
      rintro row _ rfl
      cases row with
      | error e => exact Protocol.Triple.ret ⟨rfl, Nat.le_refl seen, id, rfl, rfl⟩
      | ok record =>
          refine Protocol.Triple.ret ⟨rfl, Nat.le_refl seen, fun _ idx' same => ?_, rfl, rfl⟩
          cases same
          exact valid idx slot

theorem fmFindKey_triple (T : TableShare n) (core : S.D = T.core) (inx : Nat) (key : PackedKey)
    (h : Handler) :
    CoreTriple S t kind promise (Ghost.rest slots seen) (fmFindKey T S.gran inx key h)
      fun outcome ghost' => ∃ seen', ghost' = Ghost.rest slots seen' ∧
        Looked h outcome.2 seen seen' := by
  unfold fmFindKey
  rw [← core]
  refine Protocol.Triple.bind CoreTriple.find_triple ?_
  rintro found _ ⟨count, rfl, above, _⟩
  have more : seen ≤ max seen count := Nat.le_max_left seen count
  cases found with
  | error e => exact Protocol.Triple.ret ⟨max seen count, rfl, more, fun below => below.mono more, rfl, rfl⟩
  | ok pair =>
      refine Protocol.Triple.bind (CoreTriple.load (.loadGen pair.1) trivial) ?_
      rintro g _ rfl
      refine Protocol.Triple.ret ⟨max seen count, rfl, more, fun _ idx same => ?_, ?_, ?_⟩
      · cases same
        exact Nat.lt_of_lt_of_le (above pair rfl) (Nat.le_max_right seen count)
      · simp only
        split <;> rfl
      · simp only
        split <;> rfl

theorem fmFindNextKey_triple (T : TableShare n) (core : S.D = T.core) (inx : Nat)
    (key : PackedKey) (cur : Option Nat) (h : Handler) :
    CoreTriple S t kind promise (Ghost.rest slots seen) (fmFindNextKey T S.gran inx key cur h)
      fun outcome ghost' => ∃ seen', ghost' = Ghost.rest slots seen' ∧
        Looked h outcome.2 seen seen' := by
  unfold fmFindNextKey
  rw [← core]
  refine Protocol.Triple.bind CoreTriple.findNext_triple ?_
  rintro found _ ⟨count, rfl, above⟩
  have more : seen ≤ max seen count := Nat.le_max_left seen count
  cases found with
  | error e => exact Protocol.Triple.ret ⟨max seen count, rfl, more, fun below => below.mono more, rfl, rfl⟩
  | ok pair =>
      refine Protocol.Triple.bind (CoreTriple.load (.loadGen pair.1) trivial) ?_
      rintro g _ rfl
      refine Protocol.Triple.ret ⟨max seen count, rfl, more, fun _ idx same => ?_, ?_, ?_⟩
      · cases same
        exact Nat.lt_of_lt_of_le (above pair rfl) (Nat.le_max_right seen count)
      · simp only
        split <;> rfl
      · simp only
        split <;> rfl

/-- The calls of `infoClients` keep to the protocol, whatever slot locks a thread holds. -/
theorem infoClients_obedient (T : TableShare n) (gran : Gran) :
    Obedient (looseSetting T.core gran) (infoClients T gran) fun _ _ _ => True where
  later _ _ := trivial
  code := by
    intro t call info slots s allowed holding _
    have sees : ∀ {α : Type} {program : CoreProg n α} {f : α → InfoRes n × Info}
        {fact : α → Nat → Prop},
        CoreTriple (looseSetting T.core gran) t false (unclearedPromise _)
          (Ghost.rest slots s.slotCount) program (fun value ghost => ∃ seen',
            ghost = Ghost.rest slots seen' ∧ fact value seen') →
        CoreTriple (looseSetting T.core gran) t false (unclearedPromise _)
          (Ghost.rest slots s.slotCount) (program.bind fun value => .ret (f value))
          fun outcome ghost => ∃ slots' seen', Ended (looseSetting T.core gran) slots' seen' ghost ∧
            True := by
      intro α program f fact triple
      refine Protocol.Triple.bind triple ?_
      rintro value _ ⟨seen', rfl, _⟩
      exact Protocol.Triple.ret ⟨slots, seen', Ended.rest, trivial⟩
    cases call with
    | core call =>
        obtain ⟨stays, granted⟩ := Bool.and_eq_true_iff.mp (show (!call.truncates &&
          call.allowed T.core t s) = true from allowed)
        refine Protocol.Triple.bind (coreCall_uncleared id call (by simpa using stays)
          (CoreCall.ready_of_allowed holding granted)) ?_
        rintro result ghost ⟨slots', seen', ended⟩
        exact Protocol.Triple.ret ⟨slots', seen', ended, trivial⟩
    | scanInit => exact Protocol.Triple.ret ⟨slots, s.slotCount, Ended.rest, trivial⟩
    | scan => exact sees (fmScan_triple gran info)
    | findKey inx key => exact sees (fmFindKey_triple T rfl inx key info.toHandler)
    | findNextKey inx key cur =>
        exact sees (fmFindNextKey_triple T rfl inx key cur info.toHandler)
    | rrnd pos =>
        have valid : ∀ idx, pos.slot = some idx → idx < s.slotCount := by
          intro idx slot
          have checked : pos.slot.all (fun idx => decide (idx < s.slotCount)) = true := allowed
          rw [slot] at checked
          exact of_decide_eq_true checked
        refine Protocol.Triple.bind (fmRrnd_triple gran pos info valid) ?_
        rintro value _ ⟨rfl, _⟩
        exact Protocol.Triple.ret ⟨slots, s.slotCount, Ended.rest, trivial⟩

end Obedience

theorem infoClients_tidy (T : TableShare n) (gran : Gran) (t : Nat) (call : InfoCall n)
    (info : Info) : Tidy T.core ((infoClients T gran).code t call info) := by
  cases call with
  | core call => exact (coreCall_tidy call).bind fun _ => .ret _
  | scanInit => exact .ret _
  | scan =>
      refine Prog.Heeds.bind ((scanNext_plain info.scanPos).tidy.bind fun outcome => ?_) fun _ => .ret _
      obtain ⟨pos, row⟩ := outcome
      cases row with
      | error e => exact .ret _
      | ok record =>
          simp only
          cases toSlot (pos - 1) with
          | none => exact .ret _
          | some idx => exact .step trivial fun _ => .ret _
  | findKey inx key =>
      refine Prog.Heeds.bind ((find_plain inx key).tidy.bind fun found => ?_) fun _ => .ret _
      cases found with
      | error e => exact .ret _
      | ok pair => exact .step trivial fun _ => .ret _
  | findNextKey inx key cur =>
      refine Prog.Heeds.bind ((findNext_plain inx key cur).tidy.bind fun found => ?_) fun _ => .ret _
      cases found with
      | error e => exact .ret _
      | ok pair => exact .step trivial fun _ => .ret _
  | rrnd pos =>
      refine Prog.Heeds.bind ?_ fun _ => .ret _
      unfold fmRrnd
      cases pos.slot with
      | none => exact .ret _
      | some idx =>
          refine (tidy_of_reads (readRow_reads idx true pos.gen)).bind fun row => ?_
          cases row with
          | error e => exact .ret _
          | ok record => exact .ret _

/-! ### What a returned call did -/

section Returns

variable {T : TableShare n} {gran : Gran} {R : (infoClients T gran).Run} {t i j : Nat}
  {info info' : Info} {record : Rec n}

structure Sampled (R : (infoClients T gran).Run) (t idx : Nat) (g : UInt32) (m j b : Nat) : Prop
    where
  time : m ≤ b ∧ b < j
  own : R.tid b = t
  marked : Marked R b (.gen idx)
  gen : ((R.st b).slot idx).gen = g
  alone : ∀ k, m ≤ k → k < j → k ≠ b → R.tid k ≠ t

theorem sample_inv {idx m m' : Nat} {g : UInt32}
    (performed : Performed R t m (perform (.loadGen idx)) m' g)
    (after : ∀ k, m' ≤ k → k < j → R.tid k ≠ t) (order : m' ≤ j) :
    ∃ b, Sampled R t idx g m j b := by
  obtain ⟨b, lower, upper, own, ran, marked, alone⟩ := performed.perform_inv
  refine ⟨b, ⟨lower, by omega⟩, own, marked, congrArg Prod.fst (Option.some.inj ran), ?_⟩
  intro k lowerK upperK different
  rcases Nat.lt_or_ge k m' with earlier | later
  · exact alone k lowerK earlier different
  · exact after k later upperK

theorem returns_rest {α β : Type} {m m' : Nat} {value : α} {answer : β}
    (first : Performed R t m (pure value) m' value) (second : Performed R t m' (pure answer) j answer) :
    ∀ k, m ≤ k → k < j → R.tid k ≠ t := by
  intro k lower upper
  rcases Nat.lt_or_ge k m' with earlier | later
  · exact (Does.ret_inv first).2 k lower earlier
  · exact (Does.ret_inv second).2 k later upper

theorem scanNext_returned {pos : Nat} {result : InfoRes n}
    (returned : R.Returned t (.core (.scanNext pos)) info i j result info') :
    ∃ m pos' row, result = .core (.scanned pos' row) ∧ m ≤ j ∧
      Performed R t (i + 1) (fmCoreScanNext gran pos) m (pos', row) := by
  obtain ⟨m, res, first, last⟩ := (Performed.ofReturned returned).bind_inv
  obtain ⟨m', outcome, scanned, mid⟩ := Performed.bind_inv first
  have isRes := mid.pure_inv
  have isResult := last.pure_inv
  have midLe := mid.le
  have lastLe := last.le
  subst isRes
  exact ⟨m', outcome.1, outcome.2, congrArg Prod.fst isResult, by omega, scanned⟩

theorem scan_row (returned : R.Returned t .scan info i j (.row (.ok record)) info') :
    ∃ m pos, m ≤ j ∧
      Performed R t (i + 1) (fmCoreScanNext gran info.scanPos) m (pos, .ok record) ∧
      info'.scanPos = pos ∧ info'.currentSlot = toSlot (pos - 1) ∧
      ∀ idx, toSlot (pos - 1) = some idx → ∃ b, Sampled R t idx info'.currentGen m j b := by
  obtain ⟨m, outcome, scanned, last⟩ := (Performed.ofReturned returned).bind_inv
  obtain ⟨m', ⟨pos, row⟩, walked, rest⟩ := Performed.bind_inv scanned
  have lastLe := last.le
  have restLe := rest.le
  cases row with
  | error e =>
      cases rest.pure_inv
      cases last.pure_inv
  | ok record' =>
      refine ⟨m', pos, by omega, ?_⟩
      simp only at rest
      cases slot : toSlot (pos - 1) with
      | none =>
          rw [slot] at rest
          cases rest.pure_inv
          cases last.pure_inv
          exact ⟨walked, rfl, rfl, fun idx clash => by cases clash⟩
      | some idx =>
          rw [slot] at rest
          obtain ⟨m'', g, sampled, ended⟩ := rest.bind_inv
          have endedLe := ended.le
          cases ended.pure_inv
          cases last.pure_inv
          refine ⟨walked, rfl, rfl, fun idx' same => ?_⟩
          cases same
          exact sample_inv sampled (returns_rest ended last) (by omega)

theorem scan_end {e : HaErr} (returned : R.Returned t .scan info i j (.row (.error e)) info') :
    ∃ m pos err, m ≤ j ∧
      Performed R t (i + 1) (fmCoreScanNext gran info.scanPos) m (pos, .error err) := by
  obtain ⟨m, outcome, scanned, last⟩ := (Performed.ofReturned returned).bind_inv
  obtain ⟨m', ⟨pos, row⟩, walked, rest⟩ := Performed.bind_inv scanned
  have lastLe := last.le
  have restLe := rest.le
  cases row with
  | error err => exact ⟨m', pos, err, by omega, walked⟩
  | ok record =>
      simp only at rest
      cases slot : toSlot (pos - 1) with
      | none =>
          rw [slot] at rest
          cases rest.pure_inv
          cases last.pure_inv
      | some idx =>
          rw [slot] at rest
          obtain ⟨m'', g, _, ended⟩ := rest.bind_inv
          cases ended.pure_inv
          cases last.pure_inv

end Returns

end Fastmem
