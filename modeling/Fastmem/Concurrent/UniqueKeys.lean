/-
Unique keys under concurrent calls (fm_core.h).

An insert links its row under the lock of the bucket and makes it ACTIVE only
later, and a duplicate check passes over rows that are not ACTIVE. Two inserts
exclude each other by the struct mutex. An update does not take it, so its check
can pass over a row that an insert is about to publish. Where that does not
happen, no two rows ever have one value of a unique key.
-/

import Fastmem.Concurrent.Integrity
import Fastmem.Core.TableRefinement

set_option autoImplicit false

namespace Fastmem

open ThreadSystem

variable {n : Nat} {D : ShareDef n}

/-- No two ACTIVE rows have one value of a unique key without a NULL in it. -/
def DistinctRows (D : ShareDef n) (s : Core n) : Prop :=
  ∀ k, k < D.keys → ∀ i j, i ≠ j → (s.slot i).state = .active → (s.slot j).state = .active →
    dupChecked (D.keydef k) (s.slot i).data = true →
    (D.keydef k).ops.cmpRecRec (s.slot i).data (s.slot j).data ≠ 0

theorem CoreInv.distinctRows {S : Setting n} {s : Core n} {g : Nat → Ghost n} (inv : CoreInv S s g)
    (distinct : S.distinct) : DistinctRows S.D s := by
  intro k valid i j different active active' checked
  exact (inv.unique distinct).1.unique k valid i j _ _ different (Or.inl ⟨active, rfl⟩)
    (Or.inl ⟨active', rfl⟩) checked

def distinctSetting (D : ShareDef n) (keys : KeysEquivalent D) : Setting n where
  D := D
  gran := .whole
  linked := True
  distinct := True
  whole _ := rfl
  hashes _ := keys.hashes
  distinct_linked _ := trivial
  equivalent _ := keys

/-! ### Runs in which no update moves a row to another value -/

def CoreCall.KeepsKeys (D : ShareDef n) (call : CoreCall n) : Prop :=
  ∀ idx g old new, call.updates = some (idx, g, old, new) → ∀ k ∈ changedKeys D old new,
    dupChecked (D.keydef k) new = false

theorem readsPublished_of_keepsKeys {gran : Gran} {R : (coreClients D gran).Run} {s : Core n}
    (starts : R.StartsIn s ())
    (keeps : ∀ i, i < R.len → ∀ call, R.ev i = .start call → CoreCall.KeepsKeys D call) :
    R.Meets ReadsPublished := by
  intro i bound
  generalize R.ev i = event
  unfold ReadsPublished
  split
  · intro idx g old new updates _ _ k changed checked
    obtain ⟨call, program, busy, isUpdate⟩ := updates
    have kept := R.calls_meet starts keeps i (Nat.le_of_lt bound) _ call program busy
    rw [kept idx g old new isUpdate k changed] at checked
    cases checked
  · trivial

theorem distinctRows_run (keys : KeysEquivalent D) {R : (coreClients D .whole).Run}
    {garbage : Nat → Rec n} {heap : Heap} (starts : R.StartsIn (Core.fresh garbage heap) ())
    (current : R.Meets PassesCurrent) (noClear : R.Meets StartsNoClear)
    (published : R.Meets ReadsPublished) : ∀ i, i ≤ R.len → DistinctRows D (R.st i) := by
  intro i bound
  have unclear := noClear_run starts noClear
  have behaves : R.Meets (Behaves (distinctSetting D keys) True fun _ _ _ => True) :=
    fun i bound => ⟨fun _ => current i bound, fun no => absurd trivial no,
      fun _ => published i bound,
      fun _ => ⟨noClear i bound, unclear i (Nat.le_of_lt bound)⟩, fun _ _ _ => trivial⟩
  obtain ⟨ghosts, covers⟩ := coreRun_covered (S := distinctSetting D keys) (fun _ => trivial)
    starts behaves i bound 0
  exact covers.inv.1.distinctRows trivial

/-- Rows stay unique in every run in which no update checks a row that is linked and not yet
published; where updates keep the unique keys of their rows none does. -/
theorem uniqueKeys_hold (D : ShareDef n) (keys : KeysEquivalent D) (R : (coreClients D .whole).Run)
    (garbage : Nat → Rec n) (heap : Heap) (starts : R.StartsIn (Core.fresh garbage heap) ())
    (current : R.Meets PassesCurrent) (noClear : R.Meets StartsNoClear) :
    (R.Meets ReadsPublished → ∀ i, i ≤ R.len → DistinctRows D (R.st i)) ∧
    ((∀ i, i < R.len → ∀ call, R.ev i = .start call → CoreCall.KeepsKeys D call) →
      R.Meets ReadsPublished) :=
  ⟨distinctRows_run keys starts current noClear, readsPublished_of_keepsKeys starts⟩

def racingInserts : List (Nat × Option (CoreCall 1)) :=
  (0, some (.insertRow fun _ => 7)) :: (1, some (.insertRow fun _ => 7)) ::
    List.replicate 34 (0, none) ++ List.replicate 19 (1, none)

theorem racingInserts_played : (play (S := coreClients byteTable .whole)
    ⟨byteStart, fun _ => .idle ()⟩ racingInserts).isSome = true := by
  decide +kernel

def racingInsertsRun : (coreClients byteTable .whole).Run :=
  Run.ofSchedule ⟨byteStart, fun _ => .idle ()⟩ racingInserts racingInserts_played

theorem racingInserts_passes :
    carefulTurns (⟨byteStart, fun _ => .idle ()⟩ : (coreClients byteTable .whole).Config)
      racingInserts = true ∧
    racingInsertsRun.returns 1 (.insertRow fun _ => 7) () 1 54 (.inserted (.error (.dupKey 0))) () =
      true ∧
    ∀ i, i < 55 → ((racingInsertsRun.ev i).starting.all fun call => call.updates.isNone) = true := by
  decide +kernel

def checksLive (D : ShareDef n) (slot : Slot n) (old new : Rec n) : Bool :=
  decide (slot.state = .active) ||
    (changedKeys D old new).all fun k => decide ((D.keydef k).ops.cmpRecRec slot.data new ≠ 0)

theorem differs_of_checksLive {slot : Slot n} {old new : Rec n}
    (live : checksLive D slot old new = true) (unused : slot.state.unused) {k : Nat}
    (changed : k ∈ changedKeys D old new) : (D.keydef k).ops.cmpRecRec slot.data new ≠ 0 := by
  rcases Bool.or_eq_true_iff.mp live with active | differs
  · exact absurd (of_decide_eq_true active) unused.not_active
  · exact of_decide_eq_true (List.all_eq_true.mp differs k changed)

def publishedStep {gran : Gran} (c : (coreClients D gran).Config) (t : Nat)
    (event : (coreClients D gran).Event) : Bool :=
  match event with
  | .act (.loadState y) _ =>
      (c.thread t).calling.all fun call =>
        call.updates.all fun (_, _, old, new) => checksLive D (c.st.slot y) old new
  | _ => true

theorem readsPublished_of_steps {gran : Gran} {R : (coreClients D gran).Run}
    (steps : ∀ i, i < R.len → publishedStep (R.cfg i) (R.tid i) (R.ev i) = true) :
    R.Meets ReadsPublished := by
  intro i bound
  have passed := steps i bound
  unfold publishedStep at passed
  unfold ReadsPublished
  generalize R.ev i = event at passed
  split
  · rename_i y _
    rintro idx g old new ⟨call, program, busy, isUpdate⟩ _ unused k changed _
    rw [busy] at passed
    change (call.updates.all fun (_, _, old, new) => checksLive D ((R.st i).slot y) old new) = true
      at passed
    rw [isUpdate] at passed
    exact differs_of_checksLive passed unused changed
  · trivial

/-- Row 7 becomes 5 while thread 1 has linked the row 9 into the same bucket and not yet published
it; then row 8 is to become 9. -/
def racingUpdate : List (Nat × Option (CoreCall 1)) :=
  List.flatten [callSteps 0 (.insertRow fun _ => 7) 34, callSteps 0 (.insertRow fun _ => 8) 16,
    callSteps 1 (.insertRow fun _ => 9) 19, callSteps 0 (.updateRow 0 0 (fun _ => 7) fun _ => 5) 32,
    List.replicate 4 (1, none), callSteps 0 (.updateRow 1 0 (fun _ => 8) fun _ => 9) 19]

theorem racingUpdate_played : (play (S := coreClients byteTable .whole)
    ⟨byteStart, fun _ => .idle ()⟩ racingUpdate).isSome = true := by
  decide +kernel

def racingUpdateRun : (coreClients byteTable .whole).Run :=
  Run.ofSchedule ⟨byteStart, fun _ => .idle ()⟩ racingUpdate racingUpdate_played

theorem racingUpdate_passes :
    (carefulTurns (⟨byteStart, fun _ => .idle ()⟩ : (coreClients byteTable .whole).Config)
        racingUpdate = true ∧
      replays publishedStep
        (⟨byteStart, fun _ => .idle ()⟩ : (coreClients byteTable .whole).Config) racingUpdate =
        true) ∧
    racingUpdateRun.returns 1 (.insertRow fun _ => 9) () 52 108 (.inserted (.ok 2)) () = true ∧
    racingUpdateRun.returns 0 (.updateRow 0 0 (fun _ => 7) fun _ => 5) () 72 104
      (.changed (.ok ())) () = true ∧
    racingUpdateRun.returns 0 (.updateRow 1 0 (fun _ => 8) fun _ => 9) () 109 128
      (.changed (.error (.dupKey 1))) () = true := by
  decide +kernel

/-- Of two inserts of one row the second is refused, and so is the update of a row to another. -/
theorem uniqueKeys_hold_racingInserts :
    (∀ i, i ≤ racingInsertsRun.len → DistinctRows byteTable (racingInsertsRun.st i)) ∧
    racingInsertsRun.Returned 1 (.insertRow fun _ => 7) () 1 54
      (.inserted (.error (.dupKey 0))) () ∧
    (∀ i, i ≤ racingUpdateRun.len → DistinctRows byteTable (racingUpdateRun.st i)) ∧
    racingUpdateRun.Returned 0 (.updateRow 0 0 (fun _ => 7) fun _ => 5) () 72 104
      (.changed (.ok ())) () ∧
    racingUpdateRun.Returned 0 (.updateRow 1 0 (fun _ => 8) fun _ => 9) () 109 128
      (.changed (.error (.dupKey 1))) () := by
  have keys := byteTable_consistent.toKeysEquivalent
  obtain ⟨quiet, duplicate, noUpdate⟩ := racingInserts_passes
  obtain ⟨⟨quiet', live⟩, _, updated, refused⟩ := racingUpdate_passes
  obtain ⟨current, noClear⟩ := meets_of_carefulTurns quiet
  obtain ⟨unique, keeping⟩ := uniqueKeys_hold byteTable keys racingInsertsRun _ _ rfl current noClear
  obtain ⟨current', noClear'⟩ := meets_of_carefulTurns quiet'
  obtain ⟨unique', _⟩ := uniqueKeys_hold byteTable keys racingUpdateRun _ _ rfl current' noClear'
  refine ⟨unique (keeping ?_), Run.returned_of_returns duplicate,
    unique' (readsPublished_of_steps (Run.ofSchedule_passes publishedStep live)),
    Run.returned_of_returns updated, Run.returned_of_returns refused⟩
  intro i bound call starting idx g old new updates
  have none := noUpdate i bound
  rw [starting] at none
  change call.updates.isNone = true at none
  rw [updates] at none
  cases none

/-! ### An update beside an insert of the same row -/

/-- The slot and the record of a call that has stored a row. -/
def CoreCall.stored : CoreCall n → CoreRes n → Option (Nat × Rec n)
  | .insertRow rec, .inserted (.ok idx) => some (idx, rec)
  | .updateRow idx _ _ new, .changed (.ok ()) => some (idx, new)
  | .updateRowLocked idx _ _ new, .changed (.ok ()) => some (idx, new)
  | _, _ => none

/-- Of two calls that store equal rows at most one succeeds, unless the row of the first is gone
or changed before the second stores its own. -/
def OneStores (R : (coreClients D .whole).Run) : Prop :=
  ∀ t call i j result t' call' i' j' result', R.Returned t call () i j result () →
    R.Returned t' call' () i' j' result' () → ∀ x rec y rec', call.stored result = some (x, rec) →
    call'.stored result' = some (y, rec') → x ≠ y → ∀ k, k < D.keys →
    dupChecked (D.keydef k) rec = true → (D.keydef k).ops.cmpRecRec rec rec' = 0 →
    ∀ m, m ≤ R.len → ((R.st m).slot x).state = .active → ((R.st m).slot x).data = rec →
      ((R.st m).slot y).state = .active → ((R.st m).slot y).data ≠ rec'

theorem stores_exclusive (D : ShareDef n) (keys : KeysEquivalent D)
    (R : (coreClients D .whole).Run) (garbage : Nat → Rec n) (heap : Heap)
    (starts : R.StartsIn (Core.fresh garbage heap) ()) (current : R.Meets PassesCurrent)
    (noClear : R.Meets StartsNoClear) (published : R.Meets ReadsPublished) :
    (∀ i, i ≤ R.len → DistinctRows D (R.st i)) ∧ OneStores R := by
  have distinct := distinctRows_run keys starts current noClear published
  refine ⟨distinct, ?_⟩
  rintro t call i j result t' call' i' j' result' _ _ x rec y rec' _ _ different k valid checked
    equal m bound active rfl active' rfl
  exact distinct m bound k valid x y different active active' checked equal

theorem stores_exclusive_racingUpdate :
    racingUpdateRun.Returned 1 (.insertRow fun _ => 9) () 52 108 (.inserted (.ok 2)) () ∧
    racingUpdateRun.Returned 0 (.updateRow 0 0 (fun _ => 7) fun _ => 5) () 72 104
      (.changed (.ok ())) () ∧
    (∀ i, i ≤ racingUpdateRun.len → DistinctRows byteTable (racingUpdateRun.st i)) ∧
    OneStores racingUpdateRun := by
  obtain ⟨⟨quiet, live⟩, inserted, updated, _⟩ := racingUpdate_passes
  obtain ⟨current, noClear⟩ := meets_of_carefulTurns quiet
  refine ⟨Run.returned_of_returns inserted, Run.returned_of_returns updated, ?_⟩
  exact stores_exclusive byteTable byteTable_consistent.toKeysEquivalent racingUpdateRun _ _ rfl
    current noClear (readsPublished_of_steps (Run.ofSchedule_passes publishedStep live))

/-- Thread 1 has linked the row 9 and not yet published it when thread 0 makes its row 8 a 9. -/
def lateInsert : List (Nat × Option (CoreCall 1)) :=
  List.flatten [callSteps 0 (.insertRow fun _ => 8) 34, callSteps 1 (.insertRow fun _ => 9) 12,
    callSteps 0 (.updateRow 0 0 (fun _ => 8) fun _ => 9) 25, List.replicate 4 (1, none)]

theorem lateInsert_played : (play (S := coreClients byteTable .whole)
    ⟨byteStart, fun _ => .idle ()⟩ lateInsert).isSome = true := by
  decide +kernel

def lateInsertRun : (coreClients byteTable .whole).Run :=
  Run.ofSchedule ⟨byteStart, fun _ => .idle ()⟩ lateInsert lateInsert_played

theorem lateInsert_passes :
    carefulTurns (⟨byteStart, fun _ => .idle ()⟩ : (coreClients byteTable .whole).Config)
      lateInsert = true ∧
    lateInsertRun.returns 1 (.insertRow fun _ => 9) () 35 77 (.inserted (.ok 1)) () = true ∧
    lateInsertRun.returns 0 (.updateRow 0 0 (fun _ => 8) fun _ => 9) () 48 73 (.changed (.ok ())) () =
      true ∧
    ((lateInsertRun.st 78).slot 0).state = .active ∧ ((lateInsertRun.st 78).slot 1).state = .active ∧
    ((lateInsertRun.st 78).slot 0).data = (fun _ => 9) ∧
    ((lateInsertRun.st 78).slot 1).data = fun _ => 9 := by
  decide +kernel

/-- Both calls return FM_ERR_OK, and the table has the row 9 twice. -/
theorem stores_exclusive_broken : lateInsertRun.StartsIn byteStart () ∧
    lateInsertRun.Meets PassesCurrent ∧ lateInsertRun.Meets StartsNoClear ∧
    lateInsertRun.Returned 1 (.insertRow fun _ => 9) () 35 77 (.inserted (.ok 1)) () ∧
    lateInsertRun.Returned 0 (.updateRow 0 0 (fun _ => 8) fun _ => 9) () 48 73
      (.changed (.ok ())) () ∧
    ¬ DistinctRows byteTable (lateInsertRun.st 78) := by
  obtain ⟨quiet, inserted, updated, first, second, data, data'⟩ := lateInsert_passes
  obtain ⟨current, noClear⟩ := meets_of_carefulTurns quiet
  refine ⟨rfl, current, noClear, Run.returned_of_returns inserted, Run.returned_of_returns updated,
    ?_⟩
  intro distinct
  have differ := distinct 0 Nat.one_pos 0 1 Nat.zero_ne_one first second rfl
  rw [data, data'] at differ
  exact differ rfl

end Fastmem
