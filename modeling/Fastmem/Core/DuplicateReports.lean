/-
The key an insert or an update reports as violated.

`*errkey` should be the number of the lowest of the checked keys on which another
live row equals the record. The rollback loop of an insert has run its counter
past zero when the number is computed from it, so an insert always reports key 0;
the updates report the number of the key plus one.
-/

import Fastmem.Core.LockedPaths

set_option autoImplicit false

namespace Fastmem

open Prog (perform iterate forEach foldEach)
open Machine

variable {n : Nat}

inductive StoreCall (n : Nat)
  | insertRow (rec : Rec n)
  | updateRow (idx : Nat) (g : UInt32) (old new : Rec n)
  | updateRowLocked (idx : Nat) (g : UInt32) (old new : Rec n)

namespace StoreCall

def program (D : ShareDef n) (gran : Gran) : StoreCall n → CoreProg n (Except Err Unit)
  | .insertRow rec => do
      let result ← fmCoreInsertRow D gran rec
      return result.map fun _ => ()
  | .updateRow idx g old new => fmCoreUpdateRow D gran idx g old new
  | .updateRowLocked idx g old new => fmCoreUpdateRowLocked D gran idx g old new

/-- No lock is taken but the slot lock the caller of a `_locked` function holds, and an update
of a live row is given its image. -/
def Allowed (t : Nat) (s : Core n) : StoreCall n → Prop
  | .insertRow _ => Quiet s
  | .updateRow idx g old _ => Quiet s ∧ (liveAt s idx g → (s.slot idx).data = old)
  | .updateRowLocked idx g old _ =>
      (∀ l, s.owner l = if l = .wlock idx then some t else none) ∧
        (liveAt s idx g → (s.slot idx).data = old)

def record : StoreCall n → Rec n
  | .insertRow rec => rec
  | .updateRow _ _ _ new | .updateRowLocked _ _ _ new => new

def replaced : StoreCall n → Option (Nat × UInt32)
  | .insertRow _ => none
  | .updateRow idx g _ _ | .updateRowLocked idx g _ _ => some (idx, g)

def checked (D : ShareDef n) : StoreCall n → List Nat
  | .insertRow _ => List.range D.keys
  | .updateRow _ _ old new | .updateRowLocked _ _ old new => changedKeys D old new

end StoreCall

/-- A live row other than the replaced one equals the record on this unique key. -/
def Conflicts (D : ShareDef n) (s : Core n) (call : StoreCall n) (k : Nat) : Prop :=
  dupChecked (D.keydef k) call.record = true ∧ ∃ i g r, rows s i = some (g, r) ∧
    call.replaced ≠ some (i, g) ∧ (D.keydef k).ops.cmpRecRec r call.record = 0

def NamesLowest (D : ShareDef n) (s : Core n) (call : StoreCall n) (errkey : Int) : Prop :=
  ∃ k : Nat, errkey = k ∧ k ∈ call.checked D ∧ Conflicts D s call k ∧
    ∀ k' ∈ call.checked D, k' < k → ¬ Conflicts D s call k'

section Reports

variable {D : ShareDef n} {gran : Gran} {t idx k : Nat} {g : UInt32} {s s' : Core n}
  {old new : Rec n} {errkey : Int}

theorem insertRollback_left {rec : Rec n} {left : UInt32}
    (ran : Runs t (insertRollback D rec idx k) s left s') : left = 0 - 1 := by
  induction k generalizing s with
  | zero => exact (runs_pure_inv ran).1
  | succ k ih =>
      obtain ⟨_, _, _, ran⟩ := runs_perform_inv ran
      obtain ⟨_, _, _, ran⟩ := runs_bind_inv ran
      obtain ⟨_, _, _, ran⟩ := runs_perform_inv ran
      exact ih ran

theorem insertRow_reports {rec : Rec n}
    (ran : Runs t (fmCoreInsertRow D gran rec) s (.error (.dupKey errkey)) s') : errkey = 0 := by
  obtain ⟨_, _, _, ran⟩ := runs_perform_inv ran
  obtain ⟨slot, _, _, ran⟩ := runs_bind_inv ran
  cases slot with
  | none =>
      obtain ⟨_, _, _, ran⟩ := runs_perform_inv ran
      obtain ⟨cnt, _, _, ran⟩ := runs_perform_inv ran
      have refused := (runs_pure_inv ran).1
      split at refused <;> cases refused
  | some idx =>
      obtain ⟨_, _, _, ran⟩ := runs_bind_inv ran
      obtain ⟨dup, _, _, ran⟩ := runs_bind_inv ran
      cases dup with
      | some k =>
          obtain ⟨left, _, undone, ran⟩ := runs_bind_inv ran
          obtain ⟨_, _, _, ran⟩ := runs_bind_inv ran
          obtain ⟨_, _, _, ran⟩ := runs_perform_inv ran
          have reported := (runs_pure_inv ran).1
          rw [insertRollback_left undone] at reported
          cases reported
          rfl
      | none =>
          obtain ⟨_, _, _, ran⟩ := runs_perform_inv ran
          obtain ⟨_, _, _, ran⟩ := runs_perform_inv ran
          obtain ⟨_, _, _, ran⟩ := runs_perform_inv ran
          cases (runs_pure_inv ran).1

/-- The walk of a changed key meets the replaced row only where it has its old image. -/
theorem conflicts_of_duplicates {call : StoreCall n} (isNew : call.record = new)
    (replaces : call.replaced = some (idx, g))
    (current : liveAt s idx g → (s.slot idx).data = old) (changed : k ∈ changedKeys D old new)
    (duplicate : duplicates D s new k) : Conflicts D s call k := by
  obtain ⟨checks, i, g', r, row, equal⟩ := duplicate
  unfold Conflicts
  rw [isNew]
  refine ⟨checks, i, g', r, row, ?_, equal⟩
  rw [replaces]
  intro same
  cases same
  obtain ⟨active, gen, rfl⟩ := rows_eq_some.mp row
  rw [current ⟨active, gen⟩] at equal
  exact (mem_changedKeys.mp changed).2 equal

theorem updateRow_reports (hashes : HashesAgree D) (rep : Rep D s none) (quiet : Quiet s)
    (ran : Runs t (fmCoreUpdateRow D gran idx g old new) s (.error (.dupKey errkey)) s') :
    ∃ k ∈ changedKeys D old new, duplicates D s new k ∧ errkey = k + 1 := by
  by_cases unchanged : changedKeys D old new = []
  · unfold fmCoreUpdateRow at ran
    rw [if_pos unchanged] at ran
    rcases guardedCommit_inv (D := D) old [] ran with ⟨_, ran⟩ | ⟨_, _, _, ran⟩
    · cases (runs_pure_inv ran).1
    · cases (runs_pure_inv ran).1
  · obtain ⟨dup, checked, found⟩ := dupCheckChanged_runs (t := t) gran new hashes rep
      (changedKeys D old new) fun k member => (mem_changedKeys.mp member).1
    cases dup with
    | some k =>
        obtain ⟨same, _⟩ := ran.deterministic
          (updateRow_checks quiet unchanged checked ⟨rfl, rfl⟩)
        cases same
        exact ⟨k, found.1, found.2, rfl⟩
    | none =>
        exfalso
        by_cases live : liveAt s idx g
        · obtain ⟨chain, chains, _⟩ := rep.placed
          obtain ⟨final, relinked⟩ := relinkChanged_returns (t := t) (D := D) old new idx
            (changedKeys D old new) (s.setSlot idx ((s.slot idx).rewritten new))
            (changedKeys_nodup D old new) fun k _ b => ⟨_, chains.threaded k b⟩
          obtain ⟨same, _⟩ := ran.deterministic
            (updateRow_checks quiet unchanged checked (Or.inr ⟨live, rfl, relinked⟩))
          cases same
        · obtain ⟨same, _⟩ := ran.deterministic
            (updateRow_checks quiet unchanged checked (Or.inl ⟨live, rfl, rfl⟩))
          cases same

theorem updateRowLocked_reports (hashes : HashesAgree D) (rep : Rep D s none)
    (free : ∀ k b, s.owner (.bucket k b) = none)
    (ran : Runs t (fmCoreUpdateRowLocked D gran idx g old new) s (.error (.dupKey errkey)) s') :
    ∃ k ∈ changedKeys D old new, duplicates D s new k ∧ errkey = k + 1 := by
  by_cases live : liveAt s idx g
  swap
  · obtain ⟨same, _⟩ := ran.deterministic (updateRowLocked_refuses live)
    cases same
  by_cases unchanged : changedKeys D old new = []
  · obtain ⟨_, _, _, ran⟩ := runs_bind_inv ran
    exfalso
    split at ran
    · cases (runs_pure_inv ran).1
    · rw [if_pos unchanged] at ran
      obtain ⟨_, _, _, ran⟩ := runs_bind_inv ran
      cases (runs_pure_inv ran).1
  · obtain ⟨dup, checked, found⟩ := dupCheckChanged_runs (t := t) gran new hashes rep
      (changedKeys D old new) fun k member => (mem_changedKeys.mp member).1
    cases dup with
    | some k =>
        obtain ⟨same, _⟩ := ran.deterministic
          (updateRowLocked_checks free unchanged live checked ⟨rfl, rfl⟩)
        cases same
        exact ⟨k, found.1, found.2, rfl⟩
    | none =>
        obtain ⟨chain, chains, _⟩ := rep.placed
        obtain ⟨final, relinked⟩ := relinkChanged_returns (t := t) (D := D) old new idx
          (changedKeys D old new) (s.setSlot idx ((s.slot idx).rewritten new))
          (changedKeys_nodup D old new) fun k _ b => ⟨_, chains.threaded k b⟩
        obtain ⟨same, _⟩ := ran.deterministic
          (updateRowLocked_checks free unchanged live checked ⟨rfl, relinked⟩)
        cases same

theorem not_namesLowest {call : StoreCall n} (checked : k ∈ call.checked D)
    (conflict : Conflicts D s call k) : ¬ NamesLowest D s call (k + 1) := by
  rintro ⟨k', same, _, _, lowest⟩
  exact lowest k checked (by omega) conflict

end Reports

/-- A call that reports a duplicate names the violated key if and only if it is an insert that
conflicts on key 0. -/
theorem errkey_iff (D : ShareDef n) (gran : Gran) (hashes : HashesAgree D) (s : Core n)
    (rep : Rep D s none) (t : Nat) (call : StoreCall n) (allowed : call.Allowed t s)
    (errkey : Int) (s' : Core n)
    (ran : Runs t (call.program D gran) s (.error (.dupKey errkey)) s') :
    NamesLowest D s call errkey ↔
      (∃ rec, call = .insertRow rec) ∧ 0 < D.keys ∧ Conflicts D s call 0 := by
  cases call with
  | insertRow rec =>
      obtain ⟨result, _, inserted, ran⟩ := runs_bind_inv ran
      have refused : result = .error (.dupKey errkey) := by
        have same := (runs_pure_inv ran).1
        cases result with
        | ok idx => cases same
        | error e =>
            cases same
            rfl
      rw [refused] at inserted
      obtain rfl := insertRow_reports inserted
      constructor
      · rintro ⟨k, same, checked, conflict, _⟩
        obtain rfl : k = 0 := by omega
        exact ⟨⟨rec, rfl⟩, List.mem_range.mp checked, conflict⟩
      · rintro ⟨_, valid, conflict⟩
        exact ⟨0, rfl, List.mem_range.mpr valid, conflict, fun _ _ below => by omega⟩
  | updateRow idx g old new =>
      obtain ⟨k, changed, duplicate, rfl⟩ := updateRow_reports hashes rep allowed.1 ran
      have conflict : Conflicts D s (.updateRow idx g old new) k :=
        conflicts_of_duplicates rfl rfl allowed.2 changed duplicate
      refine iff_of_false (not_namesLowest changed conflict) ?_
      rintro ⟨⟨_, clash⟩, _⟩
      cases clash
  | updateRowLocked idx g old new =>
      have free : ∀ k b, s.owner (.bucket k b) = none := fun k b =>
        (allowed.1 _).trans (if_neg (by simp))
      obtain ⟨k, changed, duplicate, rfl⟩ := updateRowLocked_reports hashes rep free ran
      have conflict : Conflicts D s (.updateRowLocked idx g old new) k :=
        conflicts_of_duplicates rfl rfl allowed.2 changed duplicate
      refine iff_of_false (not_namesLowest changed conflict) ?_
      rintro ⟨⟨_, clash⟩, _⟩
      cases clash

/-- Of the rows 0 and 2 the first is to become 2: the only key is key 0, key 1 is reported. -/
theorem errkey_broken : ¬ ∀ (s : Core 1), Rep byteTable s none → ∀ (t : Nat) (call : StoreCall 1),
    call.Allowed t s → ∀ (errkey : Int) (s' : Core 1),
      Runs t (call.program byteTable .whole) s (.error (.dupKey errkey)) s' →
        NamesLowest byteTable s call errkey := by
  intro claim
  have changed : changedKeys byteTable (fun _ => 0) (fun _ => 2) = [0] := by decide
  obtain ⟨dup, checked, found⟩ := dupCheckChanged_runs (t := 0) .whole (fun _ => 2)
    byteTable_hashes evenRows_rep (changedKeys byteTable (fun _ => 0) fun _ => 2)
    (by rw [changed]; decide)
  cases dup with
  | none =>
      apply found 0 (by rw [changed]; decide)
      exact ⟨rfl, 1, 0, fun _ => 2, rfl, rfl⟩
  | some k =>
      have reported : Runs 0 ((StoreCall.updateRow 0 0 (fun _ => 0) fun _ => 2).program byteTable
          .whole) evenRows (.error (.dupKey (k + 1))) evenRows :=
        updateRow_checks (fun _ => rfl) (by rw [changed]; decide) checked ⟨rfl, rfl⟩
      obtain ⟨k', same, member, _⟩ := claim evenRows evenRows_rep 0
        (.updateRow 0 0 (fun _ => 0) fun _ => 2) ⟨fun _ => rfl, fun _ => rfl⟩ _ _ reported
      change k' ∈ changedKeys byteTable (fun _ => 0) (fun _ => 2) at member
      rw [changed, List.mem_singleton] at member
      omega

/-- A second row 2 is refused, and the report is right. -/
theorem errkey_iff_evenRows : ∃ s', Runs 0 ((StoreCall.insertRow fun _ => 2).program byteTable
      .whole) evenRows (.error (.dupKey 0)) s' ∧
    NamesLowest byteTable evenRows (.insertRow fun _ => 2) 0 := by
  obtain ⟨errkey, s', ran⟩ := evenRows_refuses
  obtain rfl := insertRow_reports ran
  have refused : Runs 0 ((StoreCall.insertRow fun _ => 2).program byteTable .whole)
      evenRows (.error (.dupKey 0)) s' := runs_bind ran (runs_pure _ _)
  refine ⟨s', refused, (errkey_iff byteTable .whole byteTable_hashes evenRows evenRows_rep 0
    (.insertRow fun _ => 2) (fun _ => rfl) 0 s' refused).mpr ⟨⟨_, rfl⟩, by decide, ?_⟩⟩
  exact ⟨rfl, 1, 0, fun _ => 2, rfl, nofun, rfl⟩

end Fastmem
