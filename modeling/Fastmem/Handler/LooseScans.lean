/-
A full scan among other threads.

A scan makes one call after the other, each from the position the last one left,
until a call finds the end. The bound of a call is the number of slots at that
moment, so rows inserted meanwhile may or may not be returned. A row that stays
ACTIVE throughout is returned exactly once: the position passes its slot once,
and a read of it cannot fail.
-/

import Fastmem.Concurrent.RowReads
import Fastmem.Concurrent.TidyPrograms
import Fastmem.Handler.Cursors
import Fastmem.Handler.IndexScans
import Fastmem.RunExtension

set_option autoImplicit false

namespace Fastmem

open Prog (iterate)
open ThreadSystem

variable {n : Nat}

/-! ### What a scan returns -/

section Scans

variable {T : TableShare n} {gran : Gran}

/-- A scan with fm_core_scan_next from `pos`, begun after `from_` and back from its last call at
`until_`, with the slots and rows it returned. -/
inductive CoreScan (R : (infoClients T gran).Run) (t : Nat) :
    (pos from_ : Nat) → List (Nat × Rec n) → (until_ : Nat) → Prop
  | last {pos pos' from_ i j : Nat} {info info' : Info} (later : from_ ≤ i)
      (returned : R.Returned t (.core (.scanNext pos)) info i j
        (.core (.scanned pos' (.error .eof))) info') : CoreScan R t pos from_ [] j
  | row {pos pos' from_ i j until_ : Nat} {info info' : Info} {record : Rec n}
      {rows : List (Nat × Rec n)} (later : from_ ≤ i)
      (returned : R.Returned t (.core (.scanNext pos)) info i j
        (.core (.scanned pos' (.ok record))) info')
      (rest : CoreScan R t pos' j rows until_) :
      CoreScan R t pos from_ ((pos' - 1, record) :: rows) until_

/-- A scan with fm_scan, with the `current_slot` each call left. -/
inductive InfoScan (R : (infoClients T gran).Run) (t : Nat) :
    Info → (from_ : Nat) → List (Option Nat × Rec n) → (until_ : Nat) → Prop
  | last {from_ i j : Nat} {info info' : Info} (later : from_ ≤ i)
      (returned : R.Returned t .scan info i j (.row (.error .endOfFile)) info') :
      InfoScan R t info from_ [] j
  | row {from_ i j until_ : Nat} {info info' : Info} {record : Rec n}
      {rows : List (Option Nat × Rec n)} (later : from_ ≤ i)
      (returned : R.Returned t .scan info i j (.row (.ok record)) info')
      (rest : InfoScan R t info' j rows until_) :
      InfoScan R t info from_ ((info'.currentSlot, record) :: rows) until_

/-- Slots are returned in increasing order, those that stay ACTIVE exactly once, each with bytes
of its own; there are at most as many calls as slots, and one. -/
structure ScanComplete (R : (infoClients T gran).Run) (from_ : Nat) (rows : List (Nat × Rec n))
    (until_ : Nat) : Prop where
  increasing : (rows.map Prod.fst).Pairwise (· < ·)
  staying : ∀ r, StaysActive R r from_ (until_ + 1) → (rows.map Prod.fst).count r = 1
  bytes : ∀ row ∈ rows, ∀ x, ∃ m, from_ ≤ m ∧ m ≤ until_ ∧
    row.2 x = ((R.st m).slot row.1).data x
  calls : rows.length + 1 ≤ (R.st until_).slotCount + 1

/-! ### Call by call -/

/-- The calls of a scan as calls of fm_core_scan_next. -/
inductive ScanTrace (R : (infoClients T gran).Run) (t : Nat) :
    (pos from_ : Nat) → List (Nat × Rec n) → (until_ : Nat) → Prop
  | last {pos pos' from_ i j until_ : Nat} {e : Err} (later : from_ ≤ i) (before : j ≤ until_)
      (bound : until_ < R.len)
      (call : Performed R t i (fmCoreScanNext gran pos) j (pos', .error e)) :
      ScanTrace R t pos from_ [] until_
  | row {pos pos' from_ i j until_ : Nat} {record : Rec n} {rows : List (Nat × Rec n)}
      (later : from_ ≤ i)
      (call : Performed R t i (fmCoreScanNext gran pos) j (pos', .ok record))
      (rest : ScanTrace R t pos' j rows until_) :
      ScanTrace R t pos from_ ((pos' - 1, record) :: rows) until_

variable {R : (infoClients T gran).Run} {t pos from_ until_ : Nat} {rows : List (Nat × Rec n)}

theorem ScanTrace.le (trace : ScanTrace R t pos from_ rows until_) :
    from_ ≤ until_ ∧ until_ < R.len := by
  induction trace with
  | last later before bound call =>
      have callLe := call.le
      exact ⟨by omega, bound⟩
  | row later call _ ih =>
      have callLe := call.le
      exact ⟨by omega, ih.2⟩

theorem ScanTrace.earlier (trace : ScanTrace R t pos from_ rows until_) {before : Nat}
    (order : before ≤ from_) : ScanTrace R t pos before rows until_ := by
  cases trace with
  | last later ends bound call => exact .last (by omega) ends bound call
  | row later call rest => exact .row (by omega) call rest

structure ScanRest (R : (infoClients T gran).Run) (pos from_ : Nat) (rows : List (Nat × Rec n))
    (until_ : Nat) : Prop where
  increasing : (rows.map Prod.fst).Pairwise (· < ·)
  ahead : ∀ row ∈ rows, pos ≤ row.1
  staying : ∀ r, pos ≤ r → StaysActive R r from_ (until_ + 1) → r ∈ rows.map Prod.fst
  below : ∀ row ∈ rows, row.1 < (R.st until_).slotCount
  bytes : ∀ row ∈ rows, ∀ x, ∃ m, from_ ≤ m ∧ m ≤ until_ ∧
    row.2 x = ((R.st m).slot row.1).data x

theorem ScanTrace.rest {S : Setting n} (trace : ScanTrace R t pos from_ rows until_)
    (explained : ∀ i, i ≤ R.len → ∃ g, Quietly S (R.cfg i) g)
    (mono : ∀ i j, i ≤ j → j ≤ R.len → (R.st i).slotCount ≤ (R.st j).slotCount) :
    ScanRest R pos from_ rows until_ := by
  induction trace with
  | last later before bound call =>
      obtain ⟨_, k, lowerK, upperK, passed⟩ := scanNext_eof call
      refine ⟨List.Pairwise.nil, ?_, fun r above stays => ?_, ?_, ?_⟩
      · exact fun _ member => absurd member List.not_mem_nil
      · -- an ACTIVE slot is below the bound of the last call
        obtain ⟨g, quietly⟩ := explained k (by omega)
        have below := quietly.inv.roles.active r (stays k (by omega) (by omega))
        exact absurd (fun m lower upper => stays m (by omega) (by omega)) (passed r above below)
      · exact fun _ member => absurd member List.not_mem_nil
      · exact fun _ member => absurd member List.not_mem_nil
  | @row pos pos' from_ i j until_ record rows later call rest ih =>
      obtain ⟨restLe, bound⟩ := rest.le
      obtain ⟨k, idx, a, b, lowerK, upperK, rfl, above, below, passed, lowerA, upperB, read, _⟩ :=
        scanNext_row call
      have callLe := call.le
      rw [Nat.add_sub_cancel]
      refine ⟨?_, ?_, fun r ahead stays => ?_, ?_, ?_⟩
      · rw [List.map_cons, List.pairwise_cons]
        refine ⟨fun slot member => ?_, ih.increasing⟩
        obtain ⟨row, present, rfl⟩ := List.mem_map.mp member
        exact ih.ahead row present
      · intro row member
        rcases List.mem_cons.mp member with rfl | later
        · exact above
        · exact Nat.le_trans (Nat.le_succ_of_le above) (ih.ahead row later)
      · rw [List.map_cons, List.mem_cons]
        rcases Nat.lt_trichotomy r idx with earlier | same | further
        · exact absurd (fun m lower upper => stays m (by omega) (by omega)) (passed r ahead earlier)
        · exact Or.inl same
        · exact Or.inr (ih.staying r further fun m lower upper => stays m (by omega) upper)
      · intro row member
        rcases List.mem_cons.mp member with rfl | later
        · exact Nat.lt_of_lt_of_le below (mono k until_ (by omega) (Nat.le_of_lt bound))
        · exact ih.below row later
      · intro row member x
        rcases List.mem_cons.mp member with rfl | later
        · obtain ⟨c, d, e, lowerC, upperE, round, _, _⟩ := readRow_last read
          obtain ⟨m, lowerM, upperM, byte⟩ := round.bytes x
          have order := round.order
          exact ⟨m, by omega, by omega, byte⟩
        · obtain ⟨m, lowerM, upperM, byte⟩ := ih.bytes row later x
          exact ⟨m, by omega, upperM, byte⟩

theorem ScanRest.complete (rest : ScanRest R 0 from_ rows until_) :
    ScanComplete R from_ rows until_ := by
  have nodup : (rows.map Prod.fst).Nodup := rest.increasing.imp Nat.ne_of_lt
  refine ⟨rest.increasing, fun r stays => ?_, rest.bytes, ?_⟩
  · exact List.count_eq_one_of_mem nodup (rest.staying r (Nat.zero_le r) stays)
  · have within : rows.map Prod.fst ⊆ List.range (R.st until_).slotCount := by
      intro slot member
      obtain ⟨row, present, rfl⟩ := List.mem_map.mp member
      exact List.mem_range.mpr (rest.below row present)
    have short := (List.subperm_of_subset nodup within).length_le
    rw [List.length_map, List.length_range] at short
    exact Nat.succ_le_succ short

theorem CoreScan.trace (scan : CoreScan R t pos from_ rows until_) :
    ScanTrace R t pos from_ rows until_ := by
  induction scan with
  | last later returned =>
      obtain ⟨m, pos', row, same, before, call⟩ := scanNext_returned returned
      cases same
      exact .last (by omega) before returned.bound call
  | row later returned rest ih =>
      obtain ⟨m, pos', row, same, before, call⟩ := scanNext_returned returned
      cases same
      exact .row (by omega) call (ih.earlier before)

/-- `current_slot` is the slot just read. -/
theorem InfoScan.trace {info : Info} {entries : List (Option Nat × Rec n)}
    (scan : InfoScan R t info from_ entries until_)
    (small : ∀ i, i ≤ R.len → (R.st i).slotCount < 2 ^ 31) :
    ∃ rows, ScanTrace R t info.scanPos from_ rows until_ ∧
      entries = rows.map fun row => (some row.1, row.2) := by
  induction scan with
  | last later returned =>
      obtain ⟨m, pos, e, before, call⟩ := scan_end returned
      exact ⟨[], .last (by omega) before returned.bound call, rfl⟩
  | row later returned rest ih =>
      obtain ⟨m, pos, before, call, isPos, current, _⟩ := scan_row returned
      obtain ⟨rows, trace, rfl⟩ := ih
      obtain ⟨k, idx, _, _, _, upperK, rfl, _, below, _⟩ := scanNext_row call
      have bound := returned.bound
      rw [isPos] at trace
      have slot : toSlot (idx + 1 - 1) = some (idx + 1 - 1) := by
        refine if_pos ?_
        have := small k (by omega)
        omega
      refine ⟨(idx + 1 - 1, _) :: rows, .row (by omega) call (trace.earlier before), ?_⟩
      rw [current, slot, List.map_cons]

end Scans

/-- A full scan, with fm_core_scan_next from position 0 or with fm_scan_init and fm_scan, among
any inserts, updates, deletes and reads of other threads. -/
theorem looseScan_complete (T : TableShare n) (gran : Gran) (R : (infoClients T gran).Run)
    (garbage : Nat → Rec n) (heap : Heap) (info : Info)
    (starts : R.StartsIn (Core.fresh garbage heap) info) (t : Nat) :
    (∀ from_ rows until_, CoreScan R t 0 from_ rows until_ →
      ScanComplete R from_ rows until_) ∧
    ∀ before i j fresh entries until_, R.Returned t .scanInit before i j .done fresh →
      InfoScan R t fresh j entries until_ →
      ∃ rows, entries = rows.map (fun row => (some row.1, row.2)) ∧
        ScanComplete R i rows until_ := by
  have obedient := infoClients_obedient T gran
  have explained := quietRun_explained obedient starts trivial
  have mono : ∀ i j, i ≤ j → j ≤ R.len → (R.st i).slotCount ≤ (R.st j).slotCount :=
    fun i j order bound => slotCount_mono obedient starts trivial order bound
  have small := slotCount_lt starts (infoClients_tidy T gran)
  constructor
  · intro from_ rows until_ scan
    exact (scan.trace.rest explained mono).complete
  · intro before i j fresh entries until_ returned scan
    have isFresh : fresh = fmScanInit before :=
      congrArg Prod.snd (Performed.ofReturned returned).pure_inv
    obtain ⟨rows, trace, same⟩ := scan.trace small
    rw [isFresh] at trace
    have order : i ≤ j := Nat.le_of_lt returned.before
    exact ⟨rows, same, ((trace.earlier order).rest explained mono).complete⟩

def byteShare : TableShare 1 := ⟨byteTable, fun _ => byteKeydef⟩

def openedInfo : Info := ⟨readingHandler [0], 0⟩

instance (T : TableShare n) (gran : Gran) : DecidableEq (infoClients T gran).Call :=
  inferInstanceAs (DecidableEq (InfoCall n))

instance (T : TableShare n) (gran : Gran) : DecidableEq (infoClients T gran).Res :=
  inferInstanceAs (DecidableEq (InfoRes n))

instance (T : TableShare n) (gran : Gran) : DecidableEq (infoClients T gran).Loc :=
  inferInstanceAs (DecidableEq Info)

theorem scan_ends (T : TableShare n) (gran : Gran) (t : Nat) {s : Core n} {info : Info}
    (settled : ∀ i, (s.slot i).seq % 2 = 0) (past : liveFrom s info.scanPos = []) :
    ∃ pos, Runs t (InfoCall.program T gran info .scan) s
      (.row (.error .endOfFile), { info with
        scanPos := pos
        update := { HaState.none with prevFound := true, nextFound := true } }) s := by
  have walked := scanWalk_runs (t := t) gran settled (s.slotCount - info.scanPos) info.scanPos rfl
  rw [past] at walked
  obtain ⟨pos, ran⟩ := walked
  have ended : Runs t (fmScan gran info) s (.error .endOfFile, { info with
      scanPos := pos
      update := { HaState.none with prevFound := true, nextFound := true } }) s :=
    runs_bind (runs_perform_bind rfl ran) (runs_pure _ s)
  exact ⟨pos, runs_bind ended (runs_pure _ s)⟩

theorem scan_reads (T : TableShare n) (gran : Gran) (info : Info) :
    (InfoCall.program T gran info .scan).Performs Act.reads := by
  have walk : ∀ cnt, (iterate info.scanPos (scanRound (n := n) gran cnt)).Performs Act.reads := by
    intro cnt
    refine .iterate fun pos => ?_
    unfold scanRound
    split
    · refine (readRow_reads pos false 0).bind fun row => ?_
      cases row with
      | ok buf => exact .ret _
      | error e => exact .ret _
    · exact .ret _
  have next : (fmCoreScanNext (n := n) gran info.scanPos).Performs Act.reads :=
    .step trivial fun cnt => walk _
  refine Prog.Performs.bind (next.bind fun outcome => ?_) fun _ => .ret _
  obtain ⟨pos, row⟩ := outcome
  cases row with
  | error e => exact .ret _
  | ok record =>
      simp only
      cases toSlot (pos - 1) with
      | none => exact .ret _
      | some idx => exact .step trivial fun _ => .ret _

/-- Thread 1 scans the rows 7 and 8, while thread 0 changes 7 to 10 and inserts 9, and thread 2
deletes the 9 again once it is scanned. -/
def scanTurns : List (Nat × Option (InfoCall 1)) :=
  List.flatten [callSteps 0 (.core (.insertRow fun _ => 7)) 34,
    callSteps 0 (.core (.insertRow fun _ => 8)) 16, callSteps 1 .scanInit 1, callSteps 1 .scan 5,
    callSteps 0 (.core (.updateRow 0 0 (fun _ => 7) fun _ => 10)) 28, List.replicate 9 (1, none),
    callSteps 0 (.core (.insertRow fun _ => 9)) 6, callSteps 1 .scan 9, List.replicate 10 (0, none),
    callSteps 1 .scan 9, callSteps 2 (.core (.deleteRow 2 0)) 21]

theorem scanTurns_played : (play (S := infoClients byteShare .whole)
    ⟨byteStart, fun _ => .idle openedInfo⟩ scanTurns).isSome = true := by
  decide +kernel

def scanTurnsRun : (infoClients byteShare .whole).Run :=
  Run.ofSchedule ⟨byteStart, fun _ => .idle openedInfo⟩ scanTurns scanTurns_played

def scanTurnsInfo (m : Nat) : Info := ((scanTurnsRun.cfg m).thread 1).resting.getD openedInfo

def BothLive (s : Core 1) : Prop := (s.slot 0).state = .active ∧ (s.slot 1).state = .active

instance (s : Core 1) : Decidable (BothLive s) := inferInstanceAs (Decidable (_ ∧ _))

theorem scanTurns_passes :
    ((scanTurnsRun.returns 1 .scanInit openedInfo 52 53 .done (fmScanInit openedInfo) = true ∧
        scanTurnsRun.returns 1 .scan (fmScanInit openedInfo) 54 97 (.row (.ok fun _ => 10))
          (scanTurnsInfo 98) = true ∧
        scanTurnsRun.returns 1 .scan (scanTurnsInfo 98) 105 114 (.row (.ok fun _ => 8))
          (scanTurnsInfo 115) = true ∧
        scanTurnsRun.returns 1 .scan (scanTurnsInfo 115) 125 134 (.row (.ok fun _ => 9))
          (scanTurnsInfo scanTurnsRun.len) = true) ∧
      scanTurnsRun.returns 0 (.core (.updateRow 0 0 (fun _ => 7) fun _ => 10)) openedInfo 60 88
        (.core (.changed (.ok ()))) openedInfo = true ∧
      scanTurnsRun.returns 0 (.core (.insertRow fun _ => 9)) openedInfo 98 124
        (.core (.inserted (.ok 2))) openedInfo = true) ∧
    ((scanTurnsInfo 98).currentSlot = some 0 ∧ (scanTurnsInfo 115).currentSlot = some 1 ∧
      (scanTurnsInfo scanTurnsRun.len).currentSlot = some 2) ∧
    (∀ i, i < scanTurnsRun.len → scanTurnsRun.tid i ≤ 2) ∧
    (∀ t, t ≤ 2 → ((scanTurnsRun.cfg scanTurnsRun.len).thread t).resting.isSome = true) ∧
    ∀ m ≤ 157, 52 ≤ m → BothLive (scanTurnsRun.st m) := by
  decide +kernel

theorem scanTurns_rests (t : Nat) : ∃ info, (scanTurnsRun.cfg scanTurnsRun.len).thread t = .idle info :=
  scanTurnsRun.all_rest 2 rfl scanTurns_passes.2.2.1 (Nat.le_refl _) scanTurns_passes.2.2.2.1 t

theorem scanTurns_past : liveFrom (scanTurnsRun.st scanTurnsRun.len) (scanTurnsInfo scanTurnsRun.len).scanPos = [] := by
  have counted := (quietRun_rests (infoClients_obedient byteShare .whole) (R := scanTurnsRun) rfl
    trivial (Nat.le_refl _) scanTurns_rests).2
  have all : activeSlots (scanTurnsRun.st scanTurnsRun.len) = {0, 1} :=
    activeSlots_eq counted (by decide +kernel) (by decide +kernel)
  have at_ : (scanTurnsInfo scanTurnsRun.len).scanPos = 3 := by
    decide +kernel
  refine List.eq_nil_iff_forall_not_mem.mpr fun i member => ?_
  obtain ⟨above, below, active⟩ := mem_liveFrom.mp member
  have live : i ∈ activeSlots (scanTurnsRun.st scanTurnsRun.len) :=
    Finset.mem_filter.mpr ⟨Finset.mem_range.mpr below, active⟩
  rw [all] at live
  rw [at_] at above
  simp only [Finset.mem_insert, Finset.mem_singleton] at live
  omega

/-- Both calls of thread 0 fall into calls of the scan; the scan's last call is made alone. -/
theorem looseScan_complete_scanTurns :
    ∃ (R : (infoClients byteShare .whole).Run) (until_ : Nat), R.StartsIn byteStart openedInfo ∧
      R.Returned 0 (.core (.updateRow 0 0 (fun _ => 7) fun _ => 10)) openedInfo 60 88
        (.core (.changed (.ok ()))) openedInfo ∧
      R.Returned 0 (.core (.insertRow fun _ => 9)) openedInfo 98 124 (.core (.inserted (.ok 2)))
        openedInfo ∧
      InfoScan R 1 (fmScanInit openedInfo) 53
        [(some 0, fun _ => 10), (some 1, fun _ => 8), (some 2, fun _ => 9)] until_ ∧
      StaysActive R 0 52 (until_ + 1) ∧ StaysActive R 1 52 (until_ + 1) ∧
      ∃ rows, [(some 0, fun _ => 10), (some 1, fun _ => 8), (some 2, fun _ => 9)] =
        rows.map (fun row : Nat × Rec 1 => (some row.1, row.2)) ∧ ScanComplete R 52 rows until_ := by
  obtain ⟨⟨returns, updated, inserted⟩, slots, _, _, bothLive⟩ := scanTurns_passes
  have settled := (quietRun_rests (infoClients_obedient byteShare .whole) (R := scanTurnsRun) rfl
    trivial (Nat.le_refl _) scanTurns_rests).1
  have length : scanTurnsRun.len = 157 := rfl
  obtain ⟨pos, ran⟩ := scan_ends byteShare .whole 1 settled scanTurns_past
  have idle : (scanTurnsRun.cfg scanTurnsRun.len).thread 1 = .idle (scanTurnsInfo scanTurnsRun.len) :=
    idle_of_resting (by decide +kernel)
  obtain ⟨R₁, R, until_, begun, one, same, continued, ends, last⟩ :=
    scanTurnsRun.called Act.reads .scan idle rfl ran (scan_reads byteShare .whole _)
  have extended : R.Extends scanTurnsRun := continued.extension.trans begun
  have kept : ∀ i, R₁.len ≤ i → i ≤ R.len → BothLive (R.st i) := by
    refine continued.kept (fun action s result s' reads ran live => ?_) ?_
    · cases action <;> cases reads <;> cases ran <;> exact live
    · rw [same]
      exact bothLive _ (Nat.le_refl 157) (by omega)
  have starts : R.StartsIn byteStart openedInfo := extended.startsIn rfl
  have live : ∀ m, 52 ≤ m → m < until_ + 1 → BothLive (R.st m) := by
    intro m lower upper
    by_cases early : m ≤ scanTurnsRun.len
    · rw [extended.st early]
      exact bothLive m early lower
    · exact kept m (by omega) (by omega)
  have scan : InfoScan R 1 (fmScanInit openedInfo) 53
      [(some 0, fun _ => 10), (some 1, fun _ => 8), (some 2, fun _ => 9)] until_ := by
    have ended := InfoScan.last (show 134 ≤ scanTurnsRun.len by omega) last
    have third := InfoScan.row (show 114 ≤ 125 by decide)
      (extended.returned (Run.returned_of_returns returns.2.2.2)) ended
    have second := InfoScan.row (show 97 ≤ 105 by decide)
      (extended.returned (Run.returned_of_returns returns.2.2.1)) third
    have first := InfoScan.row (show 53 ≤ 54 by decide)
      (extended.returned (Run.returned_of_returns returns.2.1)) second
    rw [slots.1, slots.2.1, slots.2.2] at first
    exact first
  refine ⟨R, until_, starts, extended.returned (Run.returned_of_returns updated),
    extended.returned (Run.returned_of_returns inserted), scan,
    fun m lower upper => (live m lower upper).1, fun m lower upper => (live m lower upper).2, ?_⟩
  exact (looseScan_complete byteShare .whole R _ _ openedInfo starts 1).2 _ _ _ _ _ _
    (extended.returned (Run.returned_of_returns returns.1)) scan

end Fastmem
