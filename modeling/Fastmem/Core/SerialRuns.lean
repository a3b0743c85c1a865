/-
Whole serial runs: any finite sequence of calls on a fresh share, one after
another.

The caller of a `_locked` function takes the slot lock around it. An update of a
live row passes the current image as the old record; slot numbers are those of
allocated slots. Every call of such a run returns, and the representation
invariant holds after each.
-/

import Fastmem.Core.SerialUpdate
import Mathlib.Data.Fintype.Pi

set_option autoImplicit false

namespace Fastmem

open Prog (perform iterate forEach foldEach)
open Machine

variable {n : Nat}

inductive SerialCall (n : Nat)
  | insertRow (rec : Rec n)
  | updateRow (idx : Nat) (g : UInt32) (old new : Rec n)
  | updateRowLocked (idx : Nat) (g : UInt32) (old new : Rec n)
  | deleteRow (idx : Nat) (g : UInt32)
  | deleteRowLocked (idx : Nat) (g : UInt32)
  | clear
  | readRow (idx : Nat) (g : UInt32)
  | find (key : Nat) (packed : PackedKey)
  | scan

def SerialCall.Res : SerialCall n → Type
  | .insertRow _ => Except Err Nat
  | .updateRow .. | .updateRowLocked .. | .deleteRow .. | .deleteRowLocked .. => Except Err Unit
  | .clear => Unit
  | .readRow .. => Except Err (Rec n)
  | .find .. => Except Err (Nat × Rec n)
  | .scan => List (Nat × Rec n)

/-- A full pass of fm_core_scan_next: the rows with their slots, until FM_ERR_EOF. -/
def scanPass (gran : Gran) : CoreProg n (List (Nat × Rec n)) :=
  iterate (0, []) fun (pos, found) => do
    let (pos', row) ← fmCoreScanNext gran pos
    match row with
    | .ok buf => return .inl (pos', found ++ [(pos' - 1, buf)])
    | .error _ => return .inr found

/-- The caller's slot lock around a `_locked` call. -/
def withRowLock {α : Type} (idx : Nat) (call : CoreProg n α) : CoreProg n α := do
  perform (.lock (.wlock idx))
  let result ← call
  perform (.unlock (.wlock idx))
  return result

def SerialCall.program (D : ShareDef n) (gran : Gran) : (call : SerialCall n) →
    CoreProg n call.Res
  | .insertRow rec => fmCoreInsertRow D gran rec
  | .updateRow idx g old new => fmCoreUpdateRow D gran idx g old new
  | .updateRowLocked idx g old new => withRowLock idx (fmCoreUpdateRowLocked D gran idx g old new)
  | .deleteRow idx g => fmCoreDeleteRow D gran idx g
  | .deleteRowLocked idx g => withRowLock idx (fmCoreDeleteRowLocked D gran idx g)
  | .clear => fmCoreClear D
  | .readRow idx g => fmCoreReadRow gran idx true g
  | .find key packed => fmCoreFind D gran key packed
  | .scan => scanPass gran

def SerialCall.Allowed (D : ShareDef n) (s : Core n) : SerialCall n → Prop
  | .updateRow idx g old _ | .updateRowLocked idx g old _ =>
      idx < s.slotCount ∧ ((s.slot idx).state = .active → (s.slot idx).gen = g →
        (s.slot idx).data = old)
  | .deleteRow idx _ | .deleteRowLocked idx _ | .readRow idx _ => idx < s.slotCount
  | .find key _ => key < D.keys
  | .insertRow _ | .clear | .scan => True

/-- A call that was served, and whether a slot could be allocated when it began. -/
structure Served (n : Nat) where
  call : SerialCall n
  result : call.Res
  room : Prop

inductive SerialRun (D : ShareDef n) (gran : Gran) (start : Core n) :
    List (Served n) → Core n → Prop
  | nil : SerialRun D gran start [] start
  | snoc {served : List (Served n)} {s s' : Core n} {t : Nat} {call : SerialCall n}
      {result : call.Res} (before : SerialRun D gran start served s)
      (allowed : call.Allowed D s) (ran : Runs t (call.program D gran) s result s') :
      SerialRun D gran start (served ++ [⟨call, result, canAlloc D s⟩]) s'

variable {t : Nat} {s : Core n} {D : ShareDef n} {gran : Gran}

/-! ### Serving a list of calls -/

instance SerialCall.decidableAllowed : (call : SerialCall n) → Decidable (call.Allowed D s)
  | .updateRow idx g old _ | .updateRowLocked idx g old _ =>
      inferInstanceAs (Decidable (idx < s.slotCount ∧ ((s.slot idx).state = .active →
        (s.slot idx).gen = g → (s.slot idx).data = old)))
  | .deleteRow idx _ | .deleteRowLocked idx _ | .readRow idx _ =>
      inferInstanceAs (Decidable (idx < s.slotCount))
  | .find key _ => inferInstanceAs (Decidable (key < D.keys))
  | .insertRow _ | .clear | .scan => inferInstanceAs (Decidable True)

/-- Thread 0 makes the calls one after the other, up to one that it may not make or that takes
more than so many steps. -/
def serve (D : ShareDef n) (gran : Gran) (fuel : Nat) :
    List (SerialCall n) → List (Served n) × Core n → List (Served n) × Core n
  | [], done => done
  | call :: rest, (served, s) =>
      if call.Allowed D s then
        match (coreMachine n).evaluate 0 fuel (call.program D gran) s with
        | none => (served, s)
        | some (result, s') => serve D gran fuel rest (served ++ [⟨call, result, canAlloc D s⟩], s')
      else (served, s)

theorem SerialRun.serve {start : Core n} {done : List (Served n) × Core n}
    (run : SerialRun D gran start done.1 done.2) (fuel : Nat) (calls : List (SerialCall n)) :
    SerialRun D gran start (serve D gran fuel calls done).1 (serve D gran fuel calls done).2 := by
  induction calls generalizing done with
  | nil => exact run
  | cons call rest ih =>
      obtain ⟨served, s⟩ := done
      unfold Fastmem.serve
      split
      · rename_i allowed
        split
        · exact run
        · rename_i evaluated
          exact ih (run.snoc allowed (Machine.exec_of_evaluate evaluated))
      · exact run

/-! ### Scans -/

def liveFrom (s : Core n) (pos : Nat) : List Nat :=
  (List.range' pos (s.slotCount - pos)).filter fun i => (s.slot i).state = .active

theorem liveFrom_end {pos : Nat} (past : s.slotCount ≤ pos) : liveFrom s pos = [] := by
  unfold liveFrom
  rw [Nat.sub_eq_zero_of_le past]
  rfl

theorem liveFrom_step {pos : Nat} (below : pos < s.slotCount) :
    liveFrom s pos = if (s.slot pos).state = .active then pos :: liveFrom s (pos + 1)
      else liveFrom s (pos + 1) := by
  unfold liveFrom
  have left : s.slotCount - pos = (s.slotCount - (pos + 1)) + 1 := by omega
  rw [left, List.range'_succ, List.filter_cons]
  simp only [decide_eq_true_eq]

theorem mem_liveFrom {pos i : Nat} :
    i ∈ liveFrom s pos ↔ pos ≤ i ∧ i < s.slotCount ∧ (s.slot i).state = .active := by
  unfold liveFrom
  rw [List.mem_filter, List.mem_range'_1, decide_eq_true_eq]
  constructor
  · rintro ⟨⟨above, below⟩, active⟩
    exact ⟨above, by omega, active⟩
  · rintro ⟨above, below, active⟩
    exact ⟨⟨above, by omega⟩, active⟩

theorem scanWalk_runs (gran : Gran) (settled : ∀ i, (s.slot i).seq % 2 = 0) (left pos : Nat)
    (distance : left = s.slotCount - pos) :
    match liveFrom s pos with
    | [] => ∃ pos', Runs t (iterate pos (scanRound gran s.slotCount)) s (pos', .error .eof) s
    | i :: rest => rest = liveFrom s (i + 1) ∧ i < s.slotCount ∧ pos ≤ i ∧
        Runs t (iterate pos (scanRound gran s.slotCount)) s (i + 1, .ok (s.slot i).data) s := by
  induction left generalizing pos with
  | zero =>
      have past : s.slotCount ≤ pos := by omega
      rw [liveFrom_end past]
      refine ⟨pos, Exec.iterate_leave ?_⟩
      unfold scanRound
      rw [if_neg (Nat.not_lt.mpr past)]
      exact runs_pure _ s
  | succ left ih =>
      have below : pos < s.slotCount := by omega
      have read : Runs t (fmCoreReadRow gran pos false 0) s (readOutcome s pos false 0) s :=
        readRow_runs (settled pos) false 0
      rw [liveFrom_step below]
      by_cases active : (s.slot pos).state = .active
      · have outcome : readOutcome s pos false 0 = .ok (s.slot pos).data :=
          if_pos ⟨active, fun impossible => by cases impossible⟩
        rw [outcome] at read
        rw [if_pos active]
        refine ⟨rfl, below, Nat.le_refl pos, Exec.iterate_leave ?_⟩
        unfold scanRound
        rw [if_pos below]
        exact runs_bind read (runs_pure _ s)
      · have outcome : readOutcome s pos false 0 = .error .deleted :=
          if_neg fun both => active both.1
        rw [outcome] at read
        rw [if_neg active]
        have round : Runs t (scanRound gran s.slotCount pos) s (.inl (pos + 1)) s := by
          unfold scanRound
          rw [if_pos below]
          exact runs_bind read (runs_pure _ s)
        have later := ih (pos + 1) (by omega)
        cases rest : liveFrom s (pos + 1) with
        | nil =>
            rw [rest] at later
            obtain ⟨pos', ran⟩ := later
            exact ⟨pos', Exec.iterate_again round ran⟩
        | cons i others =>
            rw [rest] at later
            obtain ⟨same, inside, after, ran⟩ := later
            exact ⟨same, inside, by omega, Exec.iterate_again round ran⟩

theorem scanPass_runs (settled : ∀ i, (s.slot i).seq % 2 = 0) :
    Runs t (scanPass gran) s ((liveFrom s 0).map fun i => (i, (s.slot i).data)) s := by
  suffices general : ∀ (items : List Nat) (pos : Nat) (found : List (Nat × Rec n)),
      liveFrom s pos = items →
      Runs t (iterate (pos, found) fun (pos, found) => do
        let (pos', row) ← fmCoreScanNext gran pos
        match row with
        | .ok buf => return .inl (pos', found ++ [(pos' - 1, buf)])
        | .error _ => return .inr found) s
        (found ++ items.map fun i => (i, (s.slot i).data)) s from
    general (liveFrom s 0) 0 [] rfl
  intro items
  induction items with
  | nil =>
      intro pos found live
      have walked := scanWalk_runs (t := t) gran settled (s.slotCount - pos) pos rfl
      rw [live] at walked
      obtain ⟨pos', ran⟩ := walked
      rw [List.map_nil, List.append_nil]
      exact Exec.iterate_leave (runs_bind (runs_perform_bind rfl ran) (runs_pure _ s))
  | cons i rest ih =>
      intro pos found live
      have walked := scanWalk_runs (t := t) gran settled (s.slotCount - pos) pos rfl
      rw [live] at walked
      obtain ⟨same, _, _, ran⟩ := walked
      have later := ih (i + 1) (found ++ [(i, (s.slot i).data)]) same.symm
      rw [List.append_assoc, List.singleton_append] at later
      rw [List.map_cons]
      exact Exec.iterate_again (runs_bind (runs_perform_bind rfl ran) (runs_pure _ s)) later

/-! ### One call -/

theorem withRowLock_runs {α : Type} {call : CoreProg n α} {idx : Nat} {result : α}
    {s' : Core n} (quiet : Quiet s)
    (ran : Runs t call (s.setOwner (.wlock idx) (some t)) result s')
    (kept : s'.owner = (s.setOwner (.wlock idx) (some t)).owner) :
    Runs t (withRowLock idx call) s result { s' with owner := s.owner } := by
  refine runs_perform_bind (exec_lock (quiet _)) (runs_bind ran (runs_perform_bind rfl ?_))
  rw [release_kept (quiet _) kept]
  exact runs_pure result _

def callSpec (D : ShareDef n) (s : Core n) : (call : SerialCall n) → call.Res → Core n → Prop
  | .insertRow rec, result, s' => insertSpec D s rec result s'
  | .updateRow idx g old new, .ok _, s' => updateSpec D s idx g old new (.ok ()) s'
  | .updateRow .., .error _, s' => rows s' = rows s
  | .updateRowLocked idx g old new, result, s' => updateSpec D s idx g old new result s'
  | .deleteRow idx g, result, s' => deleteSpec s idx g result s'
  | .deleteRowLocked idx g, result, s' => deleteSpec s idx g result s'
  | .clear, _, s' => rows s' = fun _ => none
  | .readRow idx g, result, s' => result = readOutcome s idx true g ∧ s' = s
  | .find key packed, result, s' =>
      (∃ chain, Chains s.cell chain ∧
        (∀ k b i, i ∈ chain k b ↔ homes D s k i = some b) ∧
        result = match (chain key (fmBucket (D.keydef key)
            ((D.keydef key).ops.hashKey packed))).find?
            (passes s fun buf => (D.keydef key).ops.cmpRecKey buf packed = 0) with
          | some i => .ok (i, (s.slot i).data)
          | none => .error .notFound) ∧ s' = s
  | .scan, result, s' => result = (liveFrom s 0).map (fun i => (i, (s.slot i).data)) ∧ s' = s

/-- Every allowed call returns, keeps the representation and leaves all locks free. -/
theorem call_runs (gran : Gran) (hashes : HashesAgree D) (rep : Rep D s none) (quiet : Quiet s)
    (call : SerialCall n) (allowed : call.Allowed D s) :
    ∃ result s', Runs t (call.program D gran) s result s' ∧ Rep D s' none ∧ Quiet s' ∧
      callSpec D s call result s' := by
  have bucketsFree : ∀ idx k b,
      (s.setOwner (.wlock idx) (some t)).owner (.bucket k b) = none := fun idx k b =>
    (owner_setOwner_of_ne (by simp)).trans (quiet _)
  cases call with
  | insertRow rec => exact insertRow_runs hashes rep quiet rec
  | updateRow idx g old new =>
      obtain ⟨result, s', ran, rep', quiet', specified⟩ :=
        updateRow_runs (t := t) gran new hashes rep quiet allowed.2
      refine ⟨result, s', ran, rep', quiet', ?_⟩
      cases result with
      | ok _ => exact specified
      | error e => exact specified
  | updateRowLocked idx g old new =>
      obtain ⟨result, s', ran, rep', kept, specified⟩ := updateRowLocked_runs (t := t)
        gran new hashes (rep.withOwner _) (bucketsFree idx) allowed.2
      refine ⟨result, _, withRowLock_runs quiet ran kept, rep'.withOwner _, quiet, ?_⟩
      exact specified
  | deleteRow idx g => exact deleteRow_runs gran g rep quiet
  | deleteRowLocked idx g =>
      obtain ⟨result, s', ran, rep', kept, specified⟩ := deleteRowLocked_runs (t := t)
        gran g (rep.withOwner _) (bucketsFree idx)
        ((owner_setOwner_of_ne (by simp)).trans (quiet .structMutex))
      refine ⟨result, _, withRowLock_runs quiet ran kept, rep'.withOwner _, quiet, ?_⟩
      exact specified
  | clear =>
      obtain ⟨s', ran, rep', quiet', rowsAfter⟩ := clear_runs (t := t) rep quiet
      exact ⟨(), s', ran, rep', quiet', rowsAfter⟩
  | readRow idx g =>
      exact ⟨_, s, readRow_runs (rep.settled idx) true g, rep, quiet, rfl, rfl⟩
  | find key packed =>
      obtain ⟨chain, chains, members⟩ := rep.placed
      exact ⟨_, s, find_runs (chains.threaded _ _) (fun i _ => rep.settled i) (quiet _), rep, quiet,
        ⟨chain, chains, members, rfl⟩, rfl⟩
  | scan => exact ⟨_, s, scanPass_runs rep.settled, rep, quiet, rfl, rfl⟩

/-! ### Runs -/

theorem SerialRun.rep {garbage : Nat → Rec n} {heap : Heap} {served : List (Served n)}
    (hashes : HashesAgree D) (run : SerialRun D gran (Core.fresh garbage heap) served s) :
    Rep D s none ∧ Quiet s := by
  induction run with
  | nil => exact ⟨Rep.fresh D garbage heap, fun _ => rfl⟩
  | @snoc _ s s' t call _ _ allowed ran ih =>
      obtain ⟨result, final, ran', rep', quiet', _⟩ :=
        call_runs (t := t) gran hashes ih.1 ih.2 call allowed
      obtain ⟨_, rfl⟩ := ran.deterministic ran'
      exact ⟨rep', quiet'⟩

/-- The representation invariant in full: chains, freelist, row counter, locks. -/
structure WellFormed (D : ShareDef n) (s : Core n) : Prop where
  chained : ∃ chain : ChainLists,
    (∀ k b, Threaded s.cell (Cell.next k) (.head k b) (chain k b)) ∧
    (∀ k, k < D.keys → ∀ i, (s.slot i).state = .active → ∀ b, (chain k b).count i =
      if b = fmCoreKeyBucket (D.keydef k) (s.slot i).data then 1 else 0) ∧
    ∀ k b i, (s.slot i).state ≠ .active → i ∉ chain k b
  freed : ∃ free : List Nat, FreeList s.cell free ∧ free.Nodup ∧
    (∀ i ∈ free, (s.slot i).state ≠ .active ∧ i < s.chunkCnt * fmChunkSize) ∧
    ∀ i, i < s.chunkCnt * fmChunkSize → i < D.maxRecords → (s.slot i).state ≠ .active →
      i ∈ free
  allocated : ∀ i, (s.slot i).state = .active → i < s.chunkCnt * fmChunkSize
  counted : s.records = ((Finset.range (s.chunkCnt * fmChunkSize)).filter fun i =>
    (s.slot i).state = .active).card
  settled : ∀ i, (s.slot i).seq % 2 = 0
  unlocked : ∀ l, s.owner l = none
  capped : s.chunkCnt ≤ D.chunkCap

theorem Rep.wellFormed (rep : Rep D s none) (quiet : Quiet s) : WellFormed D s where
  chained := by
    obtain ⟨chain, chains, members⟩ := rep.placed
    refine ⟨chain, chains.threaded, ?_, ?_⟩
    · intro k valid i active b
      have home : homes D s k i = some (fmCoreKeyBucket (D.keydef k) (s.slot i).data) :=
        if_pos ⟨valid, active⟩
      by_cases here : b = fmCoreKeyBucket (D.keydef k) (s.slot i).data
      · rw [if_pos here]
        refine List.count_eq_one_of_mem (chains.nodup k b) ((members k b i).mpr ?_)
        rw [home, here]
      · rw [if_neg here]
        refine List.count_eq_zero.mpr fun member => here ?_
        rw [members, home] at member
        exact (Option.some.inj member).symm
    · intro k b i inactive member
      rw [members, homes_inactive inactive] at member
      cases member
  freed := by
    obtain ⟨free, freelist, inside, all⟩ := rep.freelist
    exact ⟨free, freelist, freelist.nodup, fun i member =>
      ⟨(inside i member).2.1, (inside i member).1⟩,
      fun i below limit inactive => all i below limit inactive (by simp)⟩
  allocated := rep.allocated
  counted := rep.counted
  settled := rep.settled
  unlocked := quiet
  capped := rep.capped

/-- Serial runs keep the representation, and in the state they end in every allowed call
returns. -/
theorem serialRun_wellFormed (D : ShareDef n) (gran : Gran) (hashes : HashesAgree D)
    (garbage : Nat → Rec n) (heap : Heap) (served : List (Served n)) (s : Core n)
    (run : SerialRun D gran (Core.fresh garbage heap) served s) :
    WellFormed D s ∧ ∀ (t : Nat) (call : SerialCall n), call.Allowed D s →
      ∃ result s', Runs t (call.program D gran) s result s' := by
  obtain ⟨rep, quiet⟩ := run.rep hashes
  refine ⟨rep.wellFormed quiet, ?_⟩
  intro t call allowed
  obtain ⟨result, s', ran, _⟩ := call_runs (t := t) gran hashes rep quiet call allowed
  exact ⟨result, s', ran⟩

theorem byteTable_cmp (k : Nat) (left right : Rec 1) :
    (byteTable.keydef k).ops.cmpRecRec left right = 0 ↔ left 0 = right 0 := by
  change (if left 0 = right 0 then (0 : Int) else 1) = 0 ↔ _
  simp

theorem byteTable_hashes : HashesAgree byteTable := by
  intro k valid left right equal
  rw [byteTable_cmp] at equal
  change (left 0).toUInt32 = (right 0).toUInt32
  rw [equal]

theorem byteTable_packed (value : UInt8) : PackedAgrees byteTable 0 [value] := by
  refine ⟨by decide, fun rec equal => ?_⟩
  change (if [value] = [rec 0] then (0 : Int) else 1) = 0 at equal
  split at equal
  · rename_i same
    cases same
    rfl
  · cases equal

def byteStart : Core 1 := Core.fresh (fun _ _ => 0) ⟨fun _ => true, 0, 0⟩

theorem byteTable_takesSeven {s : Core 1} (rep : Rep byteTable s none) (quiet : Quiet s)
    (empty : rows s = fun _ => none) (room : canAlloc byteTable s) :
    ∃ idx s' g, Runs 0 (fmCoreInsertRow byteTable .whole fun _ => 7) s (.ok idx) s' ∧
      Rep byteTable s' none ∧ Quiet s' ∧ rows s' idx = some (g, fun _ => 7) := by
  obtain ⟨result, s', ran, rep', quiet', spec⟩ :=
    call_runs (t := 0) .whole byteTable_hashes rep quiet (.insertRow fun _ => 7) trivial
  cases result with
  | ok idx =>
      obtain ⟨_, _, _, g, rowsAfter⟩ := spec
      exact ⟨idx, s', g, ran, rep', quiet', by rw [rowsAfter, Function.update_self]⟩
  | error e =>
      cases e with
      | dupKey errkey =>
          obtain ⟨_, ⟨k, _, _, i, g, r, row, _⟩, _⟩ := spec
          rw [empty] at row
          cases row
      | notFound | eof | deleted | full | nomem => exact absurd room spec.2.1

def evenRows : Core 1 where
  chunkCnt := 1
  records := 2
  slot i := ⟨if i < 2 then .active else .free, 0, 0, fun _ => if i = 1 then 2 else 0⟩
  cell
    | .head 0 0 => some 0
    | .next 0 0 => some 1
    | .freeHead => some 2
    | .freeNext 2 => some 3
    | _ => none
  owner _ := none
  chunk _ := ⟨true, true, fun _ => true⟩
  heap := ⟨fun _ => true, 3, 3⟩

theorem evenRows_active {i : Nat} : (evenRows.slot i).state = .active ↔ i < 2 := by
  simp [evenRows]

theorem evenRows_rep : Rep byteTable evenRows none where
  placed := by
    refine ⟨fun k b => if k = 0 ∧ b = 0 then [0, 1] else [], ⟨fun k b => ?_, ?_⟩, ?_⟩
    · by_cases first : k = 0 ∧ b = 0
      · obtain ⟨rfl, rfl⟩ := first
        exact ⟨rfl, rfl, rfl⟩
      · simp only [if_neg first]
        change evenRows.cell (.head k b) = none
        simp only [evenRows]
        split
        all_goals first | rfl | simp_all
    · intro k b b' i
      by_cases first : k = 0 ∧ b = 0 <;> by_cases second : k = 0 ∧ b' = 0 <;> simp_all
    · intro k b i
      by_cases valid : k < byteTable.keys ∧ (evenRows.slot i).state = .active
      · obtain rfl : k = 0 := Nat.lt_one_iff.mp valid.1
        have small := evenRows_active.mp valid.2
        have home : homes byteTable evenRows 0 i = some 0 := by
          rcases (by omega : i = 0 ∨ i = 1) with rfl | rfl <;> rfl
        rw [home]
        rcases (by omega : i = 0 ∨ i = 1) with rfl | rfl <;> by_cases zero : b = 0 <;>
          simp [zero, eq_comm]
      · rw [homes, if_neg valid]
        dsimp only
        by_cases first : k = 0 ∧ b = 0
        · rw [if_pos first]
          have large : ¬ i < 2 := fun small =>
            valid ⟨first.1 ▸ Nat.one_pos, evenRows_active.mpr small⟩
          simp only [List.mem_cons, List.not_mem_nil, or_false, reduceCtorEq, iff_false]
          omega
        · rw [if_neg first]
          simp
  freelist := by
    refine ⟨[2, 3], ⟨rfl, rfl, rfl⟩, ?_, ?_⟩
    · intro i member
      rcases List.mem_pair.mp member with rfl | rfl
      · exact ⟨by decide, by decide, by simp⟩
      · exact ⟨by decide, by decide, by simp⟩
    · intro i _ limit inactive _
      have low : ¬ i < 2 := fun small => inactive (evenRows_active.mpr small)
      have high : i < 4 := limit
      have : i = 2 ∨ i = 3 := by omega
      simpa using this
  allocated i active := by
    have small := evenRows_active.mp active
    change i < 1 * 4096
    omega
  spareSlot i impossible := by cases impossible
  counted := by
    have two : activeSlots evenRows = {0, 1} := by
      ext i
      simp only [activeSlots, Finset.mem_filter, Finset.mem_range, evenRows_active, Finset.mem_insert,
        Finset.mem_singleton]
      change i < 1 * 4096 ∧ i < 2 ↔ _
      omega
    rw [two]
    rfl
  settled i := rfl
  capped := by decide

theorem evenRows_refuses : ∃ errkey s',
    Runs 0 (fmCoreInsertRow byteTable .whole fun _ => 2) evenRows (.error (.dupKey errkey)) s' := by
  obtain ⟨result, s', ran, _, _, spec⟩ : ∃ result s',
      Runs 0 (fmCoreInsertRow byteTable .whole fun _ => 2) evenRows result s' ∧
        Rep byteTable s' none ∧ Quiet s' ∧ insertSpec byteTable evenRows (fun _ => 2) result s' :=
    insertRow_runs byteTable_hashes evenRows_rep (fun _ => rfl) fun _ => 2
  have room : canAlloc byteTable evenRows := Or.inl (by decide)
  cases result with
  | ok i =>
      refine absurd ?_ (spec.2.1 0 (by decide))
      exact ⟨rfl, 1, 0, fun _ => 2, rfl, rfl⟩
  | error e =>
      cases e with
      | dupKey errkey => exact ⟨errkey, s', ran⟩
      | notFound | eof | deleted | full | nomem => exact absurd room spec.2.1

theorem byteStart_room : canAlloc byteTable byteStart := Or.inr ⟨by decide, rfl⟩

def byteCalls : List (SerialCall 1) :=
  [.insertRow fun _ => 7, .insertRow fun _ => 8, .insertRow fun _ => 7, .deleteRow 0 0,
    .insertRow fun _ => 9, .updateRow 1 0 (fun _ => 8) fun _ => 9,
    .updateRowLocked 1 0 (fun _ => 8) fun _ => 6, .find 0 [9]]

def byteServed : List (Served 1) × Core 1 := serve byteTable .whole 100 byteCalls ([], byteStart)

theorem byteServed_run : SerialRun byteTable .whole byteStart byteServed.1 byteServed.2 :=
  SerialRun.nil.serve 100 byteCalls

theorem byteServed_length : byteServed.1.length = 8 := by decide +kernel

theorem byteServed_second : (SerialCall.deleteRow 1 0).Allowed byteTable byteServed.2 := by
  decide +kernel

theorem serialRun_wellFormed_byteTable :
    byteServed.1.length = 8 ∧ WellFormed byteTable byteServed.2 ∧
      ∃ result s', Runs 1 (fmCoreDeleteRow byteTable .whole 1 0) byteServed.2 result s' := by
  obtain ⟨wellFormed, returns⟩ :=
    serialRun_wellFormed byteTable .whole byteTable_hashes _ _ _ _ byteServed_run
  exact ⟨byteServed_length, wellFormed, returns 1 (.deleteRow 1 0) byteServed_second⟩

end Fastmem
