/-
Positions of rows among other threads.

fm_scan, fm_find_key and fm_find_next_key copy a row first and load the generation
of its slot afterwards; fm_rrnd checks the generation first and copies afterwards.
A delete that bumps the generation in between makes the pair name another row, or
returns one. As long as no bump falls into these windows, a position is that of
the row whose image was returned, and fm_rrnd returns an image of the same row or
HA_ERR_RECORD_DELETED.
-/

import Fastmem.Concurrent.SlotHistories
import Fastmem.Handler.LooseScans

set_option autoImplicit false

namespace Fastmem

open Prog (perform)
open ThreadSystem
open QuietRun (Holds)

variable {n : Nat}

/-! ### The windows -/

section Windows

variable {T : ThreadSystem (coreMachine n)}

def SameRow (R : T.Run) (idx i j : Nat) : Prop :=
  ∀ m, i ≤ m → m < j → ¬ Marked R m (.bumpGen idx)

structure Unbroken (R : T.Run) (t i j : Nat) : Prop where
  order : i < j
  own : R.tid i = t ∧ R.tid j = t
  unchecked : Unchecked R t (i + 1) j

/-- No delete bumps the generation of a slot between a reader's check of its state and the load
of its generation behind the copy, or between a check of its generation and the end of the copy.
A copy byte by byte meets fewer than 2^32 steps of the sequence counter. -/
structure DeletesApart (gran : Gran) (R : T.Run) : Prop where
  sampled : ∀ t idx a c b, Unbroken R t a c → Unbroken R t c b → Marked R a (.state idx) →
    Marked R c (.seq idx) → Marked R b (.gen idx) → SameRow R idx a b
  checked : ∀ t idx b e, Unbroken R t b e → Marked R b (.gen idx) → Marked R e (.seq idx) →
    SameRow R idx b e
  writes : gran = .bytewise → ∀ t idx c e, Unbroken R t c e → Marked R c (.seq idx) →
    Marked R e (.seq idx) → markCount R (.bumpSeq idx) c e < 2 ^ 32

variable {R : T.Run} {idx i j k : Nat}

theorem SameRow.trans (first : SameRow R idx i j) (second : SameRow R idx j k) :
    SameRow R idx i k := by
  intro m lower upper
  rcases Nat.lt_or_ge m j with earlier | later
  · exact first m lower earlier
  · exact second m later upper

theorem SameRow.mono {i' j' : Nat} (same : SameRow R idx i j) (lower : i ≤ i') (upper : j' ≤ j) :
    SameRow R idx i' j' :=
  fun m from_ until_ => same m (by omega) (by omega)

theorem sameRow_iff : SameRow R idx i j ↔ markCount R (.bumpGen idx) i j = 0 := by
  constructor
  · intro same
    refine Finset.card_eq_zero.mpr (Finset.filter_eq_empty_iff.mpr fun m member => ?_)
    obtain ⟨lower, upper⟩ := Finset.mem_Ico.mp member
    exact same m lower upper
  · exact fun none m lower upper => markCount_zero none lower upper

theorem Unbroken.within {t i j i' j' : Nat} (unchecked : Unchecked R t (i + 1) j) (lower : i ≤ i')
    (upper : j' ≤ j) (order : i' < j') (own : R.tid i' = t ∧ R.tid j' = t) :
    Unbroken R t i' j' :=
  ⟨order, own, fun m from_ until_ => unchecked m (by omega) (by omega)⟩

end Windows

/-! ### Rows and generations -/

section Rows

variable {S : Setting n} {T : ThreadSystem (coreMachine n)} {R : T.Run} {gran : Gran}
  {t u idx i j k b : Nat} {record image : Rec n}

theorem QuietRun.gen_same (quiet : QuietRun S R) (order : i ≤ j) (bound : j ≤ R.len)
    (allocated : idx < (R.st i).slotCount) (same : SameRow R idx i j) :
    ((R.st j).slot idx).gen = ((R.st i).slot idx).gen := by
  have counted := quiet.counter_eq Slot.gen SlotMove.gen_eq order bound allocated
  rw [sameRow_iff.mp same] at counted
  exact counted.trans (UInt32.add_zero _)

theorem QuietRun.Holds.allocated (holds : Holds gran R idx image i) (quiet : QuietRun S R)
    (bound : i ≤ R.len) : idx < (R.st i).slotCount :=
  QuietRun.Lives.allocated (Or.inl holds.active) quiet bound

/-- A row that was read, and whose generation was loaded behind the read, was ACTIVE with that
image under that generation. -/
theorem read_sampled (quiet : QuietRun S R) (apart : DeletesApart gran R)
    (read : ReadLast gran R t idx record i k) (later : k ≤ b) (bound : b < R.len)
    (unchecked : Unchecked R t k b) (own : R.tid b = t) (marked : Marked R b (.gen idx)) :
    ∃ m, i ≤ m ∧ m ≤ b ∧ Holds gran R idx record m ∧
      ((R.st m).slot idx).gen = ((R.st b).slot idx).gen ∧ SameRow R idx m b := by
  obtain ⟨from_, until_, lower, upper, performed, after⟩ := read
  obtain ⟨a, c, e, lowerA, upperE, round, during, _⟩ := readRow_last performed
  obtain ⟨beforeC, beforeE⟩ := round.order
  obtain ⟨ownA, ownC, ownE⟩ := round.own
  have whole : Unchecked R t (a + 1) b := during.trans (after.trans unchecked)
  have same := apart.sampled t idx a c b
    (.within whole (Nat.le_refl a) (by omega) beforeC ⟨ownA, ownC⟩)
    (.within whole (by omega) (Nat.le_refl b) (by omega) ⟨ownC, own⟩)
    round.checked round.first marked
  obtain ⟨m, lowerM, upperM, holds⟩ := quiet.round_image round (by omega)
    (same.mono (Nat.le_refl a) (by omega))
    fun bytewise => apart.writes bytewise t idx c e
      (.within whole (by omega) (by omega) beforeE ⟨ownC, ownE⟩) round.first round.second
  have rest : SameRow R idx m b := same.mono lowerM (Nat.le_refl b)
  have allocated := holds.allocated quiet (by omega)
  refine ⟨m, by omega, by omega, holds, ?_, rest⟩
  exact (quiet.gen_same (by omega) (by omega) allocated rest).symm

/-- A read with the generation of a row that was ACTIVE before returns an image of that row. -/
theorem read_checked (quiet : QuietRun S R) (apart : DeletesApart gran R) {m : Nat} {g : UInt32}
    (performed : Performed R u i (fmCoreReadRow gran idx true g) j (.ok image)) (bound : j ≤ R.len)
    (holds : Holds gran R idx record m) (before : m ≤ i) (gen : ((R.st m).slot idx).gen = g)
    (few : markCount R (.bumpGen idx) m j < 2 ^ 32) :
    ∃ m', i ≤ m' ∧ m' ≤ j ∧ Holds gran R idx image m' ∧ SameRow R idx m m' := by
  obtain ⟨a, c, e, lowerA, upperE, round, during, checks⟩ := readRow_last performed
  obtain ⟨b, lowerB, upperB, own, marked, current⟩ := checks rfl
  obtain ⟨beforeC, beforeE⟩ := round.order
  obtain ⟨_, ownC, ownE⟩ := round.own
  have allocated := holds.allocated quiet (by omega)
  -- the generation is as it was, so no delete came between
  have none := quiet.counter_same Slot.gen SlotMove.gen_eq (show m ≤ b by omega) (by omega)
    allocated (Nat.lt_of_le_of_lt (markCount_mono (Nat.le_refl m) (by omega)) few)
    (current.trans gen.symm)
  have copying := apart.checked u idx b e
    (.within during (by omega) (by omega) (by omega) ⟨own, ownE⟩) marked round.second
  have same : SameRow R idx m e := (sameRow_iff.mpr none).trans copying
  obtain ⟨m', lower, upper, held⟩ := quiet.round_image round (by omega)
    (same.mono (by omega) (Nat.le_refl e))
    fun bytewise => apart.writes bytewise u idx c e
      (.within during (by omega) (by omega) beforeE ⟨ownC, ownE⟩) round.first round.second
  exact ⟨m', by omega, by omega, held, same.mono (Nat.le_refl m) upper⟩

end Rows

/-! ### Captured positions -/

def InfoCall.captures : InfoCall n → Bool
  | .scan | .findKey _ _ | .findNextKey _ _ _ => true
  | .core _ | .scanInit | .rrnd _ => false

section Captured

variable {T : TableShare n} {gran : Gran} {R : (infoClients T gran).Run} {t u i j : Nat}
  {before after info info' : Info} {record : Rec n}

def Captured (R : (infoClients T gran).Run) (t i j : Nat) (record : Rec n) (after : Info) : Prop :=
  ∃ idx m b, after.currentSlot = some idx ∧ ReadLast gran R t idx record (i + 1) m ∧
    Sampled R t idx after.currentGen m j b

theorem scan_captured (small : ∀ k, k ≤ R.len → (R.st k).slotCount < 2 ^ 31)
    (returned : R.Returned t .scan before i j (.row (.ok record)) after) :
    Captured R t i j record after := by
  obtain ⟨m, pos, upper, walked, _, current, sampled⟩ := scan_row returned
  obtain ⟨k, idx, beforeM, rfl, below, read⟩ := scanNext_read walked
  have bound := returned.bound
  have slot : toSlot (idx + 1 - 1) = some idx := by
    have := small k (by omega)
    exact if_pos (show idx + 1 - 1 < 2 ^ 31 by omega)
  obtain ⟨b, sample⟩ := sampled idx slot
  exact ⟨idx, m, b, current.trans slot, read, sample⟩

theorem lookup_captured {find : CoreProg n (Except Err (Nat × Rec n))} {e : HaErr}
    {missed : Handler} (kept : Nat → UInt32 → Handler)
    (position : ∀ idx g, (kept idx g).currentSlot = some idx ∧ (kept idx g).currentGen = g)
    (reads : ∀ m idx, Performed R t (i + 1) find m (.ok (idx, record)) →
      ReadLast gran R t idx record (i + 1) m)
    (performed : Performed R t (i + 1) (do
      let (row, h) ← (do
        match ← find with
        | .error _ => return (.error e, missed)
        | .ok (idx, record) =>
            let g ← perform (.loadGen idx)
            return (.ok record, kept idx g))
      return (InfoRes.row row, { before with toHandler := h })) j (.row (.ok record), after)) :
    Captured R t i j record after := by
  obtain ⟨m, outcome, looked, last⟩ := performed.bind_inv
  obtain ⟨m', found, walked, rest⟩ := Performed.bind_inv looked
  have lastLe := last.le
  cases found with
  | error e =>
      cases rest.pure_inv
      cases last.pure_inv
  | ok pair =>
      obtain ⟨idx, record'⟩ := pair
      obtain ⟨m'', g, sampled, ended⟩ := Performed.bind_inv rest
      have endedLe := ended.le
      cases ended.pure_inv
      cases last.pure_inv
      obtain ⟨slot, gen⟩ := position idx g
      obtain ⟨b, sample⟩ := sample_inv sampled (returns_rest ended last) (by omega)
      refine ⟨idx, m', b, slot, reads m' idx walked, ?_⟩
      rw [gen]
      exact sample

theorem call_captured (small : ∀ k, k ≤ R.len → (R.st k).slotCount < 2 ^ 31) {call : InfoCall n}
    (captures : call.captures = true)
    (returned : R.Returned t call before i j (.row (.ok record)) after) :
    Captured R t i j record after := by
  cases call with
  | scan => exact scan_captured small returned
  | findKey inx key =>
      exact lookup_captured _ (fun _ _ => ⟨rfl, rfl⟩) (fun _ _ => find_read)
        (Performed.ofReturned returned)
  | findNextKey inx key cur =>
      exact lookup_captured _ (fun _ _ => ⟨rfl, rfl⟩) (fun _ _ => findNext_read)
        (Performed.ofReturned returned)
  | core call => cases captures
  | scanInit => cases captures
  | rrnd pos => cases captures

/-- fm_rrnd returns the row it reads, or that it was deleted. -/
theorem rrnd_returned {idx : Nat} {g : UInt32} {result : InfoRes n}
    (returned : R.Returned u (.rrnd ⟨some idx, g⟩) info i j result info') :
    result = .row (.error .recordDeleted) ∨ ∃ image m, result = .row (.ok image) ∧ m ≤ j ∧
      Performed R u (i + 1) (fmCoreReadRow gran idx true g) m (.ok image) := by
  obtain ⟨m, outcome, looked, last⟩ := (Performed.ofReturned returned).bind_inv
  obtain ⟨m', row, read, rest⟩ := Performed.bind_inv looked
  have lastLe := last.le
  have restLe := rest.le
  cases row with
  | error e =>
      cases rest.pure_inv
      cases last.pure_inv
      exact Or.inl rfl
  | ok image =>
      cases rest.pure_inv
      cases last.pure_inv
      exact Or.inr ⟨image, m', rfl, by omega, read⟩

end Captured

/-- The slot held the image under the generation of the position, and whoever reads the row by
this position later gets an image of the same row or HA_ERR_RECORD_DELETED. -/
def Identifies {T : TableShare n} {gran : Gran} (R : (infoClients T gran).Run) (i j : Nat)
    (pos : SlotRef) (record : Rec n) : Prop :=
  ∃ idx m, pos.slot = some idx ∧ i ≤ m ∧ m ≤ j ∧ Holds gran R idx record m ∧
    ((R.st m).slot idx).gen = pos.gen ∧
    ∀ u info i' j' result info', j ≤ i' → R.Returned u (.rrnd pos) info i' j' result info' →
      markCount R (.bumpGen idx) m j' < 2 ^ 32 →
      result = .row (.error .recordDeleted) ∨
        ∃ image m', result = .row (.ok image) ∧ i' ≤ m' ∧ m' ≤ j' ∧ Holds gran R idx image m' ∧
          SameRow R idx m m'

/-- In a run whose deletes keep out of the windows, the position of a returned row is its own. -/
theorem positions_identify (T : TableShare n) (gran : Gran) (R : (infoClients T gran).Run)
    (garbage : Nat → Rec n) (heap : Heap) (info : Info)
    (starts : R.StartsIn (Core.fresh garbage heap) info) (apart : DeletesApart gran R) :
    ∀ t call before i j record after, InfoCall.captures call = true →
      R.Returned t call before i j (.row (.ok record)) after →
      Identifies R i j (fmSetPosition after) record := by
  intro t call before i j record after captures returned
  have quiet := (infoClients_obedient T gran).quietRun starts trivial (infoClients_tidy T gran)
  have small := slotCount_lt starts (infoClients_tidy T gran)
  obtain ⟨idx, k, b, slot, read, sample⟩ := call_captured small captures returned
  obtain ⟨lowerB, upperB⟩ := sample.time
  have bound := returned.bound
  have unchecked : Unchecked R t k b := .of_rest fun m lower upper =>
    sample.alone m lower (by omega) (by omega)
  obtain ⟨m, lower, upper, holds, gen, _⟩ := read_sampled quiet apart read lowerB (by omega)
    unchecked sample.own sample.marked
  refine ⟨idx, m, slot, by omega, by omega, holds, gen.trans sample.gen, ?_⟩
  intro u info i' j' result info' later again few
  have isPosition : fmSetPosition after = ⟨some idx, after.currentGen⟩ := by
    unfold fmSetPosition
    rw [slot]
  rw [isPosition] at again
  rcases rrnd_returned again with deleted | ⟨image, k', isRow, upperK, performed⟩
  · exact Or.inl deleted
  · have boundJ := again.bound
    obtain ⟨m', lowerM, upperM, held, same⟩ := read_checked quiet apart performed (by omega) holds
      (by omega) (gen.trans sample.gen)
      (Nat.lt_of_le_of_lt (markCount_mono (Nat.le_refl m) upperK) few)
    exact Or.inr ⟨image, m', isRow, by omega, by omega, held, same⟩

/-! ### Two runs -/

/-- Thread 0 deletes the row and inserts another one while thread 1 is about to load the
generation of the row it has copied. -/
def recycled : List (Nat × Option (InfoCall 1)) :=
  List.flatten [callSteps 0 (.core (.insertRow fun _ => 7)) 34, callSteps 1 .scanInit 1,
    callSteps 1 .scan 7, callSteps 0 (.core (.deleteRow 0 0)) 21,
    callSteps 0 (.core (.insertRow fun _ => 8)) 16, [(1, none), (1, none)],
    callSteps 1 (.rrnd ⟨some 0, 1⟩) 7]

theorem recycled_played : (play (S := infoClients byteShare .whole)
    ⟨byteStart, fun _ => .idle openedInfo⟩ recycled).isSome = true := by
  decide +kernel

def recycledRun : (infoClients byteShare .whole).Run :=
  Run.ofSchedule ⟨byteStart, fun _ => .idle openedInfo⟩ recycled recycled_played

/-- The FM_INFO after a scan or fm_rrnd returned the row of slot 0. -/
def firstRow (g : UInt32) : Info :=
  { fmScanInit openedInfo with
    scanPos := 1
    currentSlot := some 0
    currentGen := g
    update := { HaState.none with prevFound := true, nextFound := true, aktiv := true } }

/-- The scan returned 7 and left the position of the row inserted after it was deleted, which
fm_rrnd then returned. -/
theorem positions_recycled : recycledRun.Returned 1 .scan (fmScanInit openedInfo) 37 85
      (.row (.ok fun _ => 7)) (firstRow 1) ∧
    recycledRun.Returned 1 (.rrnd (fmSetPosition (firstRow 1))) (firstRow 1) 86 93
      (.row (.ok fun _ => 8)) (firstRow 1) ∧
    ¬ Identifies recycledRun 37 85 (fmSetPosition (firstRow 1)) fun _ => 7 := by
  refine ⟨Run.returned_of_returns (by decide +kernel), Run.returned_of_returns (by decide +kernel),
    ?_⟩
  rintro ⟨idx, m, slot, lower, upper, holds, gen, _⟩
  cases slot
  -- under generation 1 the slot never held the first row
  have other : ∀ m ∈ List.range' 37 49, ((recycledRun.st m).slot 0).data 0 = 7 →
      ((recycledRun.st m).slot 0).state = .active → ((recycledRun.st m).slot 0).gen ≠ 1 := by
    decide +kernel
  exact other m (List.mem_range'_1.mpr ⟨lower, by omega⟩) (congrFun holds.data 0) holds.active gen

def Mark.bumps : Mark → Bool
  | .bumpGen _ => true
  | _ => false

def Mark.samples : Mark → Bool
  | .gen _ | .seq _ => true
  | _ => false

def Mark.checks : Mark → Bool
  | .state _ => true
  | _ => false

section Test

variable {T : ThreadSystem (coreMachine n)} {R : T.Run}

def marks (R : T.Run) (test : Mark → Bool) (m : Nat) : Bool :=
  ((R.ev m).labelled Act.mark).any test

theorem Marked.marks {m : Nat} {mark : Mark} {test : Mark → Bool} (marked : Marked R m mark)
    (passes : test mark = true) : Fastmem.marks R test m = true := by
  unfold Fastmem.marks
  rw [show (R.ev m).labelled Act.mark = some mark from marked]
  exact passes

/-- One delete bumps a generation, and every thread checks the state of a slot after it before it
loads a generation or a counter again. -/
theorem deletesApart_of_steps {bump : Nat} (only : ∀ m, marks R Mark.bumps m = true → m = bump)
    (anew : ∀ k, bump < k → marks R Mark.samples k = true → ∃ m, bump < m ∧ m < k ∧
      R.tid m = R.tid k ∧ marks R Mark.checks m = true) : DeletesApart .whole R := by
  -- a check behind the bump ends every window over it
  have window : ∀ t i j, i ≤ bump → bump < j → R.tid j = t → Unchecked R t (i + 1) j →
      marks R Mark.samples j = true → False := by
    intro t i j before behind own unchecked samples
    obtain ⟨m, above, below, same, checks⟩ := anew j behind samples
    obtain ⟨mark, marked, passes⟩ := (Option.any_eq_true _ _).mp checks
    cases mark with
    | state idx => exact unchecked m (by omega) below (same.trans own) idx marked
    | gen _ | seq _ | bumpGen _ | bumpSeq _ | other => cases passes
  refine ⟨?_, ?_, fun clash => by cases clash⟩
  · intro t idx a c b first second _ copied loaded m lower upper bumped
    obtain rfl := only m (bumped.marks rfl)
    refine window t a b lower upper second.own.2 (first.unchecked.trans ?_) (loaded.marks rfl)
    intro k from_ until_ own idx' checked
    rcases Nat.lt_or_eq_of_le from_ with later | rfl
    · exact second.unchecked k later until_ own idx' checked
    · cases Option.some.inj ((show _ = _ from copied).symm.trans checked)
  · intro t idx b e copy _ second m lower upper bumped
    obtain rfl := only m (bumped.marks rfl)
    exact window t b e lower upper copy.own.2 copy.unchecked (second.marks rfl)

end Test

/-- Thread 1 scans the row 7 while thread 0 inserts another one, and reads it again by its
position, once before and once after thread 0 deletes it and takes its slot for a new row. -/
def rereading : List (Nat × Option (InfoCall 1)) :=
  List.flatten [callSteps 0 (.core (.insertRow fun _ => 7)) 34, callSteps 1 .scanInit 1,
    callSteps 1 .scan 4, callSteps 0 (.core (.insertRow fun _ => 8)) 16, List.replicate 5 (1, none),
    callSteps 1 (.rrnd ⟨some 0, 0⟩) 7, callSteps 0 (.core (.deleteRow 0 0)) 21,
    callSteps 0 (.core (.insertRow fun _ => 9)) 16, callSteps 1 (.rrnd ⟨some 0, 0⟩) 4]

theorem rereading_played : (play (S := infoClients byteShare .whole)
    ⟨byteStart, fun _ => .idle openedInfo⟩ rereading).isSome = true := by
  decide +kernel

def rereadingRun : (infoClients byteShare .whole).Run :=
  Run.ofSchedule ⟨byteStart, fun _ => .idle openedInfo⟩ rereading rereading_played

theorem rereading_marks {test : Mark → Bool} {m : Nat}
    (passes : marks rereadingRun test m = true) : m < 116 := by
  by_contra outside
  have past : rereadingRun.ev m = .unroll :=
    Run.ofSchedule_beyond _ _ rereading_played (Nat.not_lt.mp outside)
  unfold marks at passes
  rw [past] at passes
  cases passes

theorem rereading_passes :
    (∀ m ∈ List.range 116, marks rereadingRun Mark.bumps m = true → m = 86) ∧
    (∀ k ∈ List.range' 87 29, marks rereadingRun Mark.samples k = true →
      ∃ m ∈ List.range' 87 (k - 87), rereadingRun.tid m = rereadingRun.tid k ∧
        marks rereadingRun Mark.checks m = true) ∧
    rereadingRun.returns 1 .scan (fmScanInit openedInfo) 37 63 (.row (.ok fun _ => 7)) (firstRow 0) =
      true ∧
    rereadingRun.returns 1 (.rrnd (fmSetPosition (firstRow 0))) (firstRow 0) 64 71
      (.row (.ok fun _ => 7)) (firstRow 0) = true ∧
    rereadingRun.returns 1 (.rrnd (fmSetPosition (firstRow 0))) (firstRow 0) 111 115
      (.row (.error .recordDeleted)) { firstRow 0 with
        update := { HaState.none with prevFound := true, nextFound := true } } = true := by
  decide +kernel

theorem rereading_apart : DeletesApart .whole rereadingRun := by
  obtain ⟨only, anew, _⟩ := rereading_passes
  refine deletesApart_of_steps (fun m bumps =>
    only m (List.mem_range.mpr (rereading_marks bumps)) bumps) fun k behind samples => ?_
  have := rereading_marks samples
  obtain ⟨m, member, same, checks⟩ :=
    anew k (List.mem_range'_1.mpr ⟨behind, by omega⟩) samples
  obtain ⟨above, below⟩ := List.mem_range'_1.mp member
  exact ⟨m, above, by omega, same, checks⟩

/-- The position stays that of the row 7: fm_rrnd returns it, and no longer when it is deleted. -/
theorem positions_identify_rereading : DeletesApart .whole rereadingRun ∧
    Identifies rereadingRun 37 63 (fmSetPosition (firstRow 0)) (fun _ => 7) ∧
    rereadingRun.Returned 1 (.rrnd (fmSetPosition (firstRow 0))) (firstRow 0) 64 71
      (.row (.ok fun _ => 7)) (firstRow 0) ∧
    ∃ after, rereadingRun.Returned 1 (.rrnd (fmSetPosition (firstRow 0))) (firstRow 0) 111 115
      (.row (.error .recordDeleted)) after := by
  obtain ⟨_, _, scanned, again, deleted⟩ := rereading_passes
  exact ⟨rereading_apart, positions_identify byteShare .whole rereadingRun _ _ openedInfo rfl
      rereading_apart 1 .scan _ 37 63 _ _ rfl (Run.returned_of_returns scanned),
    Run.returned_of_returns again, _, Run.returned_of_returns deleted⟩

end Fastmem
