/-
Serial behaviour of update, delete and clear.

Each theorem says that the call returns, that it keeps the representation
invariant and the lock owners, and what it does to the live rows. An update of a
live row is given its current image as the old record.
-/

import Fastmem.Core.LockOrder
import Fastmem.Core.SerialInsert

set_option autoImplicit false

namespace Fastmem

open Prog (perform iterate forEach foldEach)
open Machine

variable {n : Nat} {t : Nat} {D : ShareDef n} {s : Core n} {gran : Gran} {idx : Nat}
  {place : Places}

theorem Core.withOwner_self {owner : Lock → Option Nat} (same : s.owner = owner) :
    { s with owner := owner } = s := by
  rw [← same]

/-! ### Lock sets -/

/-- The locks after thread `t` took these bucket locks. -/
def holdBuckets (t : Nat) (pairs : List (Nat × Nat)) (owner : Lock → Option Nat) :
    Lock → Option Nat
  | .bucket k b => if pairs.contains (k, b) then some t else owner (.bucket k b)
  | l => owner l

theorem lockBuckets_runs (pairs : List (Nat × Nat)) (s : Core n) (distinct : pairs.Nodup)
    (free : ∀ k b, s.owner (.bucket k b) = none) :
    Runs t (lockBuckets pairs) s () { s with owner := holdBuckets t pairs s.owner } := by
  suffices general : ∀ (items : List (Nat × Nat)) (s : Core n), items.Nodup →
      (∀ pair ∈ items, s.owner (.bucket pair.1 pair.2) = none) →
      Runs t (lockBuckets items) s () { s with owner := holdBuckets t items s.owner } from
    general pairs s distinct fun pair _ => free pair.1 pair.2
  intro items
  induction items with
  | nil =>
      intro s _ _
      have same : holdBuckets t [] s.owner = s.owner := by
        funext l
        cases l <;> simp [holdBuckets]
      rw [same]
      exact runs_pure () s
  | cons first rest ih =>
      intro s distinct free
      obtain ⟨notRest, distinctRest⟩ := List.nodup_cons.mp distinct
      have ran := ih (s.setOwner (.bucket first.1 first.2) (some t)) distinctRest (by
        intro pair member
        have different : Lock.bucket pair.1 pair.2 ≠ .bucket first.1 first.2 := by
          intro clash
          injection clash with sameKey sameBucket
          exact notRest (Prod.ext sameKey sameBucket ▸ member)
        exact (Function.update_of_ne different ..).trans
          (free pair (List.mem_cons_of_mem first member)))
      refine runs_perform_bind (exec_lock (free first (List.mem_cons_self ..))) ?_
      have same : holdBuckets t rest (s.setOwner (.bucket first.1 first.2) (some t)).owner =
          holdBuckets t (first :: rest) s.owner := by
        funext l
        cases l with
        | wlock i => simp [holdBuckets, Core.setOwner]
        | structMutex => simp [holdBuckets, Core.setOwner]
        | bucket k b =>
            simp only [holdBuckets, Core.setOwner, Function.update_apply]
            grind
      rw [same] at ran
      exact ran

theorem unlockBuckets_runs (pairs : List (Nat × Nat)) (s : Core n)
    (free : ∀ k b, s.owner (.bucket k b) = none) :
    Runs t (unlockBuckets pairs) { s with owner := holdBuckets t pairs s.owner } () s := by
  suffices general : ∀ (items : List (Nat × Nat)) (owner : Lock → Option Nat),
      (∀ k b, (k, b) ∉ items → owner (.bucket k b) = none) →
      (∀ l, (∀ k b, l ≠ .bucket k b) → owner l = s.owner l) →
      Runs t (forEach items fun pair => perform (.unlock (.bucket pair.1 pair.2)))
        { s with owner := owner } () s by
    apply general
    · intro k b outside
      rw [List.mem_reverse] at outside
      simp [holdBuckets, outside, free k b]
    · intro l other
      cases l with
      | wlock i => rfl
      | structMutex => rfl
      | bucket k b => exact absurd rfl (other k b)
  intro items
  induction items with
  | nil =>
      intro owner released others
      have same : owner = s.owner := by
        funext l
        cases l with
        | wlock i => exact others _ fun _ _ clash => by cases clash
        | structMutex => exact others _ fun _ _ clash => by cases clash
        | bucket k b => rw [released k b (by simp), free k b]
      rw [same]
      exact runs_pure () s
  | cons first rest ih =>
      intro owner released others
      refine runs_perform_bind rfl (ih (Function.update owner (.bucket first.1 first.2) none)
        ?_ ?_)
      · intro k b outside
        by_cases same : (k, b) = first
        · rw [← same]
          simp
        · rw [Function.update_of_ne]
          · exact released k b (by simp [same, outside])
          · intro clash
            injection clash with sameKey sameBucket
            exact same (Prod.ext sameKey sameBucket)
      · intro l other
        rw [Function.update_of_ne (other _ _)]
        exact others l other

/-! ### Update -/

theorem even_add_two {seq : UInt32} (even : seq % 2 = 0) : (seq + 1 + 1) % 2 = 0 := by
  have nat := congrArg UInt32.toNat even
  apply UInt32.toNat_inj.mp
  simp only [UInt32.toNat_mod, UInt32.toNat_add, UInt32.reduceToNat] at nat ⊢
  omega

def Slot.rewritten (slot : Slot n) (rec : Rec n) : Slot n :=
  { slot with data := rec, seq := slot.seq + 1 + 1 }

theorem writeImage_runs (rec : Rec n) :
    Runs t (fmCoreWriteImage gran idx rec) s () (s.setSlot idx ((s.slot idx).rewritten rec)) := by
  refine runs_perform_bind rfl (runs_bind (memcpyIn_runs rec) ?_)
  apply Exec.perform
  simp only [Act.exec, Core.setSlot, Slot.withData, Slot.rewritten, Function.update_self,
    Function.update_idem]

theorem relinkChanged_runs (old new : Rec n) (changed : List Nat) (s : Core n)
    (place : Places) (placed : Placed s.cell place) (distinct : changed.Nodup)
    (linked : ∀ k ∈ changed, place k idx = some (fmCoreKeyBucket (D.keydef k) old)) :
    ∃ cell, Runs t (relinkChanged D old new idx changed) s () { s with cell := cell } ∧
      SameFree s.cell cell ∧ Placed cell (placeKeys D place idx new changed) := by
  induction changed generalizing s place with
  | nil =>
      refine ⟨s.cell, runs_pure () s, SameFree.refl _, ?_⟩
      rw [placeKeys_nil]
      exact placed
  | cons k rest ih =>
      obtain ⟨notRest, distinctRest⟩ := List.nodup_cons.mp distinct
      obtain ⟨cell, unlinked, placedOut, sameOut⟩ :=
        chainUnlink_placed (t := t) placed (linked k (List.mem_cons_self ..))
      have loose : setPlace place k idx none k idx = none := by simp [setPlace]
      obtain ⟨cell', relinked, placedIn, sameIn⟩ := chainLink_placed (t := t)
        (s := { s with cell := cell }) (b := fmCoreKeyBucket (D.keydef k) new) placedOut loose
      have moved : setPlace (setPlace place k idx none) k idx
          (some (fmCoreKeyBucket (D.keydef k) new)) =
          setPlace place k idx (some (fmCoreKeyBucket (D.keydef k) new)) := by
        funext k' i
        unfold setPlace
        grind
      rw [moved] at placedIn
      obtain ⟨cell'', ran, sameRest, placedRest⟩ := ih { s with cell := cell' } _ placedIn
        distinctRest (by
          intro k' member
          have different : ¬ (k' = k ∧ idx = idx) := by
            rintro ⟨rfl, _⟩
            exact notRest member
          unfold setPlace
          rw [if_neg different]
          exact linked k' (List.mem_cons_of_mem k member))
      rw [placeKeys_cons] at placedRest
      exact ⟨cell'', runs_bind (runs_bind unlinked relinked) ran,
        (sameOut.trans sameIn).trans sameRest, placedRest⟩

theorem dupCheckChanged_runs (gran : Gran) (new : Rec n) (hashes : HashesAgree D)
    (rep : Rep D s none) (changed : List Nat) (valid : ∀ k ∈ changed, k < D.keys) :
    ∃ dup, Runs t (dupCheckChanged D gran new changed) s dup s ∧
      match dup with
      | none => ∀ k ∈ changed, ¬ duplicates D s new k
      | some k => k ∈ changed ∧ duplicates D s new k := by
  induction changed with
  | nil => exact ⟨none, runs_pure none s, by simp⟩
  | cons k rest ih =>
      obtain ⟨dup, checked, found⟩ := dupCheck_finds (t := t) gran new hashes
        (valid k (List.mem_cons_self ..)) rep.settled rep.placed fun _ _ => rfl
      by_cases again : dup = true
      · refine ⟨some k, runs_bind checked ?_, List.mem_cons_self .., found.mp again⟩
        rw [if_pos again]
        exact runs_pure (some k) s
      · obtain ⟨later, ran, specified⟩ :=
          ih fun k' member => valid k' (List.mem_cons_of_mem k member)
        refine ⟨later, runs_bind checked ?_, ?_⟩
        · rw [if_neg again]
          exact ran
        · cases later with
          | none =>
              intro k' member
              rcases List.mem_cons.mp member with rfl | member
              · exact fun duplicate => again (found.mpr duplicate)
              · exact specified k' member
          | some k' => exact ⟨List.mem_cons_of_mem k specified.1, specified.2⟩

theorem Rep.rewrite {cell : Cell → Option Nat} {old new : Rec n} (hashes : HashesAgree D)
    (rep : Rep D s none) (active : (s.slot idx).state = .active)
    (current : (s.slot idx).data = old) (sameFree : SameFree s.cell cell)
    (placed : Placed cell (placeKeys D (homes D s) idx new (changedKeys D old new))) :
    Rep D { s.setSlot idx ((s.slot idx).rewritten new) with cell := cell } none ∧
      rows { s.setSlot idx ((s.slot idx).rewritten new) with cell := cell } =
        Function.update (rows s) idx (some ((s.slot idx).gen, new)) := by
  let s' : Core n := { s.setSlot idx ((s.slot idx).rewritten new) with cell := cell }
  have here : s'.slot idx = (s.slot idx).rewritten new := Function.update_self ..
  have others : ∀ i, i ≠ idx → s'.slot i = s.slot i := fun i different =>
    Function.update_of_ne different ..
  have states : ∀ i, (s'.slot i).state = (s.slot i).state := by
    intro i
    by_cases same : i = idx
    · subst same
      rw [here]
      rfl
    · rw [others i same]
  change Rep D s' none ∧ rows s' = _
  have sameHomes : homes D s' = placeKeys D (homes D s) idx new (changedKeys D old new) := by
    funext k i
    unfold placeKeys homes
    rw [states]
    by_cases same : i = idx
    · subst same
      rw [here]
      simp only [true_and, active, and_true, mem_changedKeys, Slot.rewritten]
      by_cases valid : k < D.keys
      · by_cases equal : (D.keydef k).ops.cmpRecRec old new = 0
        · simp only [valid, if_true, equal, ne_eq, not_true_eq_false, and_false, if_false]
          unfold fmCoreKeyBucket
          rw [current, hashes k valid old new equal]
        · simp [valid, equal]
      · simp [valid]
    · rw [others i same]
      simp [same]
  constructor
  · refine ⟨?_, ?_, ?_, ?_, ?_, ?_, rep.capped⟩
    · rw [sameHomes]
      exact placed
    · obtain ⟨free, freelist, inside, all⟩ := rep.freelist
      refine ⟨free, freelist.same sameFree, ?_, ?_⟩
      · simp only [states]
        exact inside
      · simp only [states]
        exact all
    · simp only [states]
      exact rep.allocated
    · simp only [states]
      exact rep.spareSlot
    · simp only [activeSlots, states]
      exact rep.counted
    · intro i
      by_cases same : i = idx
      · subst same
        rw [here]
        exact even_add_two (rep.settled i)
      · rw [others i same]
        exact rep.settled i
  · funext i
    unfold rows
    by_cases same : i = idx
    · subst same
      rw [here]
      simp [active, Slot.rewritten]
    · rw [others i same]
      simp [same]

theorem commit_runs {old : Rec n} (new : Rec n) (gran : Gran) (hashes : HashesAgree D)
    (rep : Rep D s none) (active : (s.slot idx).state = .active)
    (current : (s.slot idx).data = old) :
    ∃ mid s', Runs t (fmCoreWriteImage gran idx new) s () mid ∧
      Runs t (relinkChanged D old new idx (changedKeys D old new)) mid () s' ∧ Rep D s' none ∧
      s'.owner = s.owner ∧
      rows s' = Function.update (rows s) idx (some ((s.slot idx).gen, new)) := by
  have linked : ∀ k ∈ changedKeys D old new,
      homes D s k idx = some (fmCoreKeyBucket (D.keydef k) old) := by
    intro k member
    unfold homes
    rw [if_pos ⟨(mem_changedKeys.mp member).1, active⟩, current]
  obtain ⟨cell, relinked, sameFree, placed⟩ := relinkChanged_runs (t := t) (D := D) old new _
    (s.setSlot idx ((s.slot idx).rewritten new)) (homes D s) rep.placed
    (changedKeys_nodup D old new) linked
  obtain ⟨rep', rowsAfter⟩ := rep.rewrite hashes active current sameFree placed
  exact ⟨_, _, writeImage_runs new, relinked, rep', rfl, rowsAfter⟩

theorem plainCommit_runs {old new : Rec n} (gran : Gran) (hashes : HashesAgree D)
    (rep : Rep D s none) (active : (s.slot idx).state = .active)
    (current : (s.slot idx).data = old) (unchanged : changedKeys D old new = []) :
    ∃ s', Runs t (fmCoreWriteImage gran idx new) s () s' ∧ Rep D s' none ∧
      s'.owner = s.owner ∧
      rows s' = Function.update (rows s) idx (some ((s.slot idx).gen, new)) := by
  have placed : Placed s.cell (placeKeys D (homes D s) idx new (changedKeys D old new)) := by
    rw [unchanged, placeKeys_nil]
    exact rep.placed
  obtain ⟨rep', rowsAfter⟩ := rep.rewrite hashes active current (SameFree.refl _) placed
  exact ⟨_, writeImage_runs new, rep', rfl, rowsAfter⟩

def updateSpec (D : ShareDef n) (s : Core n) (idx : Nat) (g : UInt32) (old new : Rec n)
    (result : Except Err Unit) (s' : Core n) : Prop :=
  match result with
  | .ok _ => rows s idx = some (g, old) ∧
      (∀ k ∈ changedKeys D old new, ¬ duplicates D s new k) ∧
      rows s' = Function.update (rows s) idx (some (g, new))
  | .error (.dupKey _) => rows s idx = some (g, old) ∧
      (∃ k ∈ changedKeys D old new, duplicates D s new k) ∧ rows s' = rows s
  | .error e => e = .deleted ∧ (∀ r, rows s idx ≠ some (g, r)) ∧ rows s' = rows s

theorem live_iff {g : UInt32} :
    (!decide ((s.slot idx).state = .active ∧ (s.slot idx).gen = g)) = true ↔
      ∀ r, rows s idx ≠ some (g, r) := by
  rw [Bool.not_eq_true', decide_eq_false_iff_not]
  constructor
  · rintro dead r row
    obtain ⟨active, same, _⟩ := rows_eq_some.mp row
    exact dead ⟨active, same⟩
  · rintro absent ⟨active, same⟩
    exact absent _ (rows_eq_some.mpr ⟨active, same, rfl⟩)

theorem updateRowLocked_runs {g : UInt32} {old : Rec n} (gran : Gran) (new : Rec n)
    (hashes : HashesAgree D) (rep : Rep D s none) (unlocked : ∀ k b, s.owner (.bucket k b) = none)
    (current : (s.slot idx).state = .active → (s.slot idx).gen = g →
      (s.slot idx).data = old) :
    ∃ result s', Runs t (fmCoreUpdateRowLocked D gran idx g old new) s result s' ∧
      Rep D s' none ∧ s'.owner = s.owner ∧ updateSpec D s idx g old new result s' := by
  have tested := slotStale_runs (t := t) s idx g
  by_cases stale : (!decide ((s.slot idx).state = .active ∧ (s.slot idx).gen = g)) = true
  · refine ⟨.error .deleted, s, runs_bind tested ?_, rep, rfl, rfl, live_iff.mp stale, rfl⟩
    rw [if_pos stale]
    exact runs_pure _ s
  · have live : (s.slot idx).state = .active ∧ (s.slot idx).gen = g := by simpa using stale
    have row : rows s idx = some (g, old) :=
      rows_eq_some.mpr ⟨live.1, live.2, current live.1 live.2⟩
    by_cases unchanged : changedKeys D old new = []
    · obtain ⟨s', ran, rep', sameOwner, rowsAfter⟩ := plainCommit_runs (t := t) gran hashes rep
        live.1 (current live.1 live.2) unchanged
      refine ⟨.ok (), s', runs_bind tested ?_, rep', sameOwner, row, ?_, ?_⟩
      · simp only [if_neg stale, if_pos unchanged]
        exact runs_bind ran (runs_pure _ s')
      · rw [unchanged]
        simp
      · rw [rowsAfter, live.2]
    · let pairs := lockset D old new (changedKeys D old new)
      have locked := lockBuckets_runs (t := t) pairs s (lockset_nodup ..) unlocked
      have held := rep.withOwner (holdBuckets t pairs s.owner)
      obtain ⟨dup, checked, specified⟩ := dupCheckChanged_runs (t := t) gran new hashes held
        (changedKeys D old new) fun k member => (mem_changedKeys.mp member).1
      cases dup with
      | some k =>
          refine ⟨.error (.dupKey (k + 1)), s, runs_bind tested ?_, rep, rfl, row,
            ⟨k, specified.1, specified.2⟩, rfl⟩
          simp only [if_neg stale, if_neg unchanged]
          exact runs_bind locked (runs_bind checked (runs_bind
            (unlockBuckets_runs pairs s unlocked) (runs_pure _ s)))
      | none =>
          obtain ⟨mid, s', wrote, relinked, rep', sameOwner, rowsAfter⟩ :=
            commit_runs (t := t) new gran hashes held live.1 (current live.1 live.2)
          have unlocks := unlockBuckets_runs (t := t) pairs { s' with owner := s.owner } unlocked
          rw [Core.withOwner_self sameOwner] at unlocks
          refine ⟨.ok (), { s' with owner := s.owner }, runs_bind tested ?_,
            rep'.withOwner _, rfl, row, specified, ?_⟩
          · simp only [if_neg stale, if_neg unchanged]
            exact runs_bind locked (runs_bind checked (runs_bind wrote (runs_bind relinked
              (runs_bind unlocks (runs_pure _ _)))))
          · rw [← live.2]
            exact rowsAfter

theorem release_kept {l : Lock} {s' : Core n} (free : s.owner l = none)
    (kept : s'.owner = (s.setOwner l (some t)).owner) :
    s'.setOwner l none = { s' with owner := s.owner } := by
  have back : Function.update (s.setOwner l (some t)).owner l none = s.owner :=
    congrArg Core.owner (setOwner_release free)
  unfold Core.setOwner at *
  rw [kept, back]

theorem updateRow_runs {g : UInt32} {old : Rec n} (gran : Gran) (new : Rec n)
    (hashes : HashesAgree D) (rep : Rep D s none) (quiet : Quiet s)
    (current : (s.slot idx).state = .active → (s.slot idx).gen = g →
      (s.slot idx).data = old) :
    ∃ result s', Runs t (fmCoreUpdateRow D gran idx g old new) s result s' ∧
      Rep D s' none ∧ Quiet s' ∧ match result with
        | .ok _ => updateSpec D s idx g old new (.ok ()) s'
        | .error _ => rows s' = rows s := by
  have free : s.owner (.wlock idx) = none := quiet _
  unfold fmCoreUpdateRow
  by_cases unchanged : changedKeys D old new = []
  · simp only [if_pos unchanged]
    have tested := slotStale_runs (t := t) (s.setOwner (.wlock idx) (some t)) idx g
    have held := rep.withOwner (Function.update s.owner (.wlock idx) (some t))
    by_cases stale : (!decide ((s.slot idx).state = .active ∧ (s.slot idx).gen = g)) = true
    · refine ⟨.error .deleted, s, runs_perform_bind (exec_lock free) (runs_bind tested ?_),
        rep, quiet, rfl⟩
      change Runs t (if (!decide ((s.slot idx).state = .active ∧ (s.slot idx).gen = g)) = true
        then _ else _) _ _ _
      rw [if_pos stale]
      refine runs_perform_bind rfl ?_
      rw [setOwner_release free]
      exact runs_pure _ s
    · have live : (s.slot idx).state = .active ∧ (s.slot idx).gen = g := by simpa using stale
      obtain ⟨s', wrote, rep', kept, rowsAfter⟩ := plainCommit_runs (t := t) gran hashes held
        live.1 (current live.1 live.2) unchanged
      refine ⟨.ok (), { s' with owner := s.owner }, runs_perform_bind (exec_lock free)
        (runs_bind tested ?_), rep'.withOwner _, quiet, rows_eq_some.mpr
        ⟨live.1, live.2, current live.1 live.2⟩, by simp [unchanged], live.2 ▸ rowsAfter⟩
      change Runs t (if (!decide ((s.slot idx).state = .active ∧ (s.slot idx).gen = g)) = true
        then _ else _) _ _ _
      rw [if_neg stale]
      refine runs_bind wrote (runs_perform_bind rfl ?_)
      rw [release_kept free kept]
      exact runs_pure _ _
  · simp only [if_neg unchanged]
    let pairs := lockset D old new (changedKeys D old new)
    have unlocked : ∀ k b, s.owner (.bucket k b) = none := fun _ _ => quiet _
    have locked := lockBuckets_runs (t := t) pairs s (lockset_nodup ..) unlocked
    have heldBuckets := rep.withOwner (holdBuckets t pairs s.owner)
    obtain ⟨dup, checked, specified⟩ := dupCheckChanged_runs (t := t) gran new hashes heldBuckets
      (changedKeys D old new) fun k member => (mem_changedKeys.mp member).1
    cases dup with
    | some k =>
        exact ⟨.error (.dupKey (k + 1)), s, runs_bind locked (runs_bind checked (runs_bind
          (unlockBuckets_runs pairs s unlocked) (runs_pure _ s))), rep, quiet, rfl⟩
    | none =>
        let s₁ : Core n := { s with owner := holdBuckets t pairs s.owner }
        have free₁ : s₁.owner (.wlock idx) = none := quiet _
        have tested := slotStale_runs (t := t) (s₁.setOwner (.wlock idx) (some t))
          idx g
        have held := heldBuckets.withOwner (Function.update s₁.owner (.wlock idx) (some t))
        by_cases stale : (!decide ((s.slot idx).state = .active ∧ (s.slot idx).gen = g)) = true
        · refine ⟨.error .deleted, s, runs_bind locked (runs_bind checked (runs_perform_bind
            (exec_lock free₁) (runs_bind tested ?_))), rep, quiet, rfl⟩
          change Runs t (if (!decide ((s.slot idx).state = .active ∧ (s.slot idx).gen = g)) =
            true then _ else _) _ _ _
          rw [if_pos stale]
          refine runs_perform_bind rfl ?_
          rw [setOwner_release free₁]
          exact runs_bind (unlockBuckets_runs pairs s unlocked) (runs_pure _ s)
        · have live : (s.slot idx).state = .active ∧ (s.slot idx).gen = g := by
            simpa using stale
          obtain ⟨mid, s', wrote, relinked, rep', kept, rowsAfter⟩ := commit_runs (t := t) new
            gran hashes held live.1 (current live.1 live.2)
          refine ⟨.ok (), { s' with owner := s.owner }, runs_bind locked (runs_bind checked
            (runs_perform_bind (exec_lock free₁) (runs_bind tested ?_))), rep'.withOwner _,
            quiet, rows_eq_some.mpr ⟨live.1, live.2, current live.1 live.2⟩, specified,
            live.2 ▸ rowsAfter⟩
          change Runs t (if (!decide ((s.slot idx).state = .active ∧ (s.slot idx).gen = g)) =
            true then _ else _) _ _ _
          rw [if_neg stale]
          refine runs_bind wrote (runs_bind relinked (runs_perform_bind rfl ?_))
          rw [release_kept free₁ kept]
          exact runs_bind (unlockBuckets_runs pairs { s' with owner := s.owner } unlocked)
            (runs_pure _ _)

/-! ### Delete -/

theorem unlinkKeys_runs (img : Rec n) (keys : List Nat) (s : Core n)
    (unlocked : ∀ k b, s.owner (.bucket k b) = none) (place : Places)
    (placed : Placed s.cell place) (distinct : keys.Nodup)
    (linked : ∀ k ∈ keys, place k idx = some (fmCoreKeyBucket (D.keydef k) img)) :
    ∃ cell, Runs t (forEach keys fun k => do
        let b := fmCoreKeyBucket (D.keydef k) img
        perform (.lock (.bucket k b))
        let _ ← fmCoreChainUnlink k b idx
        perform (.unlock (.bucket k b))) s () { s with cell := cell } ∧
      SameFree s.cell cell ∧
      Placed cell (fun k i => if i = idx ∧ k ∈ keys then none else place k i) := by
  induction keys generalizing s place with
  | nil =>
      refine ⟨s.cell, runs_pure () s, SameFree.refl _, ?_⟩
      simpa using placed
  | cons k rest ih =>
      obtain ⟨notRest, distinctRest⟩ := List.nodup_cons.mp distinct
      let b := fmCoreKeyBucket (D.keydef k) img
      obtain ⟨cell, unlinked, placedHere, sameFree⟩ := chainUnlink_placed (t := t)
        (s := s.setOwner (.bucket k b) (some t)) placed (linked k (List.mem_cons_self ..))
      obtain ⟨cell', ran, sameRest, placedRest⟩ := ih { s with cell := cell } unlocked
        (setPlace place k idx none) placedHere distinctRest (by
          intro k' member
          have different : ¬ (k' = k ∧ idx = idx) := by
            rintro ⟨rfl, _⟩
            exact notRest member
          unfold setPlace
          rw [if_neg different]
          exact linked k' (List.mem_cons_of_mem k member))
      refine ⟨cell', runs_bind (runs_locked (unlocked k b) unlinked (runs_pure () _)) ran,
        sameFree.trans sameRest, ?_⟩
      have same : (fun k' i => if i = idx ∧ k' ∈ k :: rest then none else place k' i) =
          fun k' i => if i = idx ∧ k' ∈ rest then none
            else setPlace place k idx none k' i := by
        funext k' i
        unfold setPlace
        grind
      rw [same]
      exact placedRest

def Slot.retired (slot : Slot n) : Slot n :=
  { slot with state := .deleted, gen := slot.gen + 1 }

theorem Rep.retire {cell : Cell → Option Nat} (rep : Rep D s none)
    (active : (s.slot idx).state = .active) (sameFree : SameFree s.cell cell)
    (placed : Placed cell (fun k i => if i = idx ∧ k ∈ List.range D.keys then none
      else homes D s k i)) :
    Rep D { s.setSlot idx (s.slot idx).retired with
        cell := cell, records := s.records + -1 } (some idx) ∧
      rows { s.setSlot idx (s.slot idx).retired with
        cell := cell, records := s.records + -1 } = Function.update (rows s) idx none := by
  let s' : Core n := { s.setSlot idx (s.slot idx).retired with
    cell := cell, records := s.records + -1 }
  have here : s'.slot idx = (s.slot idx).retired := Function.update_self ..
  have others : ∀ i, i ≠ idx → s'.slot i = s.slot i := fun i different =>
    Function.update_of_ne different ..
  have inactive : (s'.slot idx).state ≠ .active := by
    rw [here]
    simp [Slot.retired]
  change Rep D s' (some idx) ∧ rows s' = _
  refine ⟨⟨?_, ?_, ?_, ?_, ?_, ?_, rep.capped⟩, ?_⟩
  · have sameHomes : homes D s' =
        fun k i => if i = idx ∧ k ∈ List.range D.keys then none else homes D s k i := by
      funext k i
      by_cases same : i = idx
      · subst same
        rw [homes_inactive inactive]
        simp [homes, active]
      · unfold homes
        rw [others i same]
        simp [same]
    rw [sameHomes]
    exact placed
  · obtain ⟨free, freelist, inside, all⟩ := rep.freelist
    refine ⟨free, freelist.same sameFree, ?_, ?_⟩
    · intro i member
      obtain ⟨below, inactive', _⟩ := inside i member
      have different : i ≠ idx := by
        rintro rfl
        exact inactive' active
      rw [others i different]
      exact ⟨below, inactive', fun clash => different (Option.some.inj clash).symm⟩
    · intro i below limit inactive' other
      have different : i ≠ idx := fun same => other (congrArg some same.symm)
      rw [others i different] at inactive'
      exact all i below limit inactive' (by simp)
  · intro i active'
    have different : i ≠ idx := by
      rintro rfl
      exact inactive active'
    rw [others i different] at active'
    exact rep.allocated i active'
  · intro i same
    cases same
    exact ⟨rep.allocated idx active, inactive⟩
  · have shrunk : activeSlots s' = (activeSlots s).erase idx := by
      ext i
      unfold activeSlots
      simp only [Finset.mem_filter, Finset.mem_range, Finset.mem_erase]
      by_cases same : i = idx
      · subst same
        simp [inactive]
      · rw [others i same]
        simp only [ne_eq, same, not_false_eq_true, true_and]
        exact Iff.rfl
    have member : idx ∈ activeSlots s := by
      simp [activeSlots, active, rep.allocated idx active]
    change s.records + -1 = _
    rw [shrunk, Finset.card_erase_of_mem member, rep.counted]
    have positive : 0 < (activeSlots s).card := Finset.card_pos.mpr ⟨idx, member⟩
    omega
  · intro i
    by_cases same : i = idx
    · subst same
      rw [here]
      exact rep.settled i
    · rw [others i same]
      exact rep.settled i
  · funext i
    by_cases same : i = idx
    · subst same
      rw [Function.update_self]
      exact if_neg inactive
    · unfold rows
      rw [others i same, Function.update_of_ne same]

theorem deleteTail_runs (gran : Gran) (rep : Rep D s none)
    (active : (s.slot idx).state = .active) (unlocked : ∀ k b, s.owner (.bucket k b) = none)
    (mutex : s.owner .structMutex = none) :
    ∃ s', Runs t (deleteTail D gran idx) (s.setSlot idx { s.slot idx with state := .deleting })
        (.ok ()) s' ∧ Rep D s' none ∧ s'.owner = s.owner ∧
      rows s' = Function.update (rows s) idx none := by
  have image : ((s.setSlot idx { s.slot idx with state := .deleting }).slot idx).data =
      (s.slot idx).data := by
    simp [Core.setSlot]
  have linked : ∀ k ∈ List.range D.keys,
      homes D s k idx = some (fmCoreKeyBucket (D.keydef k) (s.slot idx).data) := by
    intro k member
    exact if_pos ⟨List.mem_range.mp member, active⟩
  obtain ⟨cell, unlinked, sameFree, placed⟩ := unlinkKeys_runs (t := t) (D := D)
    (s.slot idx).data (List.range D.keys)
    (s.setSlot idx { s.slot idx with state := .deleting }) unlocked (homes D s) rep.placed
    List.nodup_range linked
  obtain ⟨retired, rowsAfter⟩ := rep.retire active sameFree placed
  obtain ⟨cell', freed, rep'⟩ := (retired.withOwner
    (Function.update s.owner .structMutex (some t))).giveBack (t := t)
  refine ⟨_, ?_, rep'.withOwner s.owner, rfl, rowsAfter⟩
  refine runs_bind memcpyOut_runs ?_
  rw [image]
  have stored : ∀ {α : Type} {rest : CoreProg n α} {value : α} {final : Core n},
      Runs t rest { s.setSlot idx (s.slot idx).retired with
        cell := cell, records := s.records + -1 } value final →
      Runs t (do
        perform (.storeState idx .deleted)
        perform (.bumpGen idx)
        perform (.addRecords (-1))
        rest) { s.setSlot idx { s.slot idx with state := .deleting } with cell := cell }
        value final := by
    intro α rest value final ran
    refine runs_perform_bind rfl (runs_perform_bind rfl (runs_perform_bind rfl ?_))
    simpa only [Core.setSlot, Slot.retired, Function.update_self, Function.update_idem] using ran
  refine runs_bind unlinked (stored (runs_perform_bind (exec_lock mutex) (runs_bind freed
    (runs_perform_bind rfl ?_))))
  have back : Function.update (Function.update s.owner .structMutex (some t)) .structMutex none =
      s.owner := congrArg Core.owner (setOwner_release mutex)
  simp only [Core.setOwner, back]
  exact runs_pure _ _

def deleteSpec (s : Core n) (idx : Nat) (g : UInt32) (result : Except Err Unit)
    (s' : Core n) : Prop :=
  match result with
  | .ok _ => (∃ r, rows s idx = some (g, r)) ∧ rows s' = Function.update (rows s) idx none
  | .error e => e = .deleted ∧ (∀ r, rows s idx ≠ some (g, r)) ∧ rows s' = rows s

theorem deleteRowLocked_runs (gran : Gran) (g : UInt32) (rep : Rep D s none)
    (unlocked : ∀ k b, s.owner (.bucket k b) = none) (mutex : s.owner .structMutex = none) :
    ∃ result s', Runs t (fmCoreDeleteRowLocked D gran idx g) s result s' ∧
      Rep D s' none ∧ s'.owner = s.owner ∧ deleteSpec s idx g result s' := by
  have tested := slotStale_runs (t := t) s idx g
  by_cases stale : (!decide ((s.slot idx).state = .active ∧ (s.slot idx).gen = g)) = true
  · refine ⟨.error .deleted, s, runs_bind tested ?_, rep, rfl, rfl, live_iff.mp stale, rfl⟩
    rw [if_pos stale]
    exact runs_pure _ s
  · have live : (s.slot idx).state = .active ∧ (s.slot idx).gen = g := by simpa using stale
    obtain ⟨s', ran, rep', sameOwner, rowsAfter⟩ :=
      deleteTail_runs (t := t) gran rep live.1 unlocked mutex
    refine ⟨.ok (), s', runs_bind tested ?_, rep', sameOwner,
      ⟨_, rows_eq_some.mpr ⟨live.1, live.2, rfl⟩⟩, rowsAfter⟩
    rw [if_neg stale]
    exact runs_perform_bind rfl ran

theorem deleteRow_runs (gran : Gran) (g : UInt32) (rep : Rep D s none) (quiet : Quiet s) :
    ∃ result s', Runs t (fmCoreDeleteRow D gran idx g) s result s' ∧
      Rep D s' none ∧ Quiet s' ∧ deleteSpec s idx g result s' := by
  have free : s.owner (.wlock idx) = none := quiet _
  have tested := slotStale_runs (t := t) (s.setOwner (.wlock idx) (some t)) idx g
  by_cases stale : (!decide ((s.slot idx).state = .active ∧ (s.slot idx).gen = g)) = true
  · refine ⟨.error .deleted, s, runs_perform_bind (exec_lock free) (runs_bind tested ?_),
      rep, quiet, rfl, live_iff.mp stale, rfl⟩
    change Runs t (if (!decide ((s.slot idx).state = .active ∧ (s.slot idx).gen = g)) = true
      then _ else _) _ _ _
    rw [if_pos stale]
    refine runs_perform_bind rfl ?_
    rw [setOwner_release free]
    exact runs_pure _ s
  · have live : (s.slot idx).state = .active ∧ (s.slot idx).gen = g := by simpa using stale
    obtain ⟨s', ran, rep', sameOwner, rowsAfter⟩ :=
      deleteTail_runs (t := t) gran rep live.1 (fun _ _ => quiet _) (quiet _)
    refine ⟨.ok (), s', runs_perform_bind (exec_lock free) (runs_bind tested ?_), rep',
      fun l => sameOwner ▸ quiet l, ⟨_, rows_eq_some.mpr ⟨live.1, live.2, rfl⟩⟩, rowsAfter⟩
    change Runs t (if (!decide ((s.slot idx).state = .active ∧ (s.slot idx).gen = g)) = true
      then _ else _) _ _ _
    rw [if_neg stale]
    refine runs_perform_bind rfl (runs_perform_bind rfl ?_)
    have back : Function.update (Function.update s.owner (.wlock idx) (some t)) (.wlock idx)
        none = s.owner := congrArg Core.owner (setOwner_release free)
    simp only [Core.setOwner, Core.setSlot, back]
    exact ran

/-! ### Clear -/

def Thinned (place place' : Places) : Prop :=
  ∀ k i, place' k i = none ∨ place' k i = place k i

theorem Thinned.trans {first second third : Places} (left : Thinned first second)
    (right : Thinned second third) : Thinned first third := by
  intro k i
  rcases right k i with gone | kept
  · exact Or.inl gone
  · rw [kept]
    exact left k i

theorem Thinned.stays_empty {place' : Places} (thinned : Thinned place place') {k b i : Nat}
    (empty : place k i ≠ some b) : place' k i ≠ some b := by
  rcases thinned k i with gone | kept
  · rw [gone]
    simp
  · rw [kept]
    exact empty

private theorem emptyBucket {cell : Cell → Option Nat} (placed : Placed cell place) (k b : Nat) :
    ∃ place', Placed (Function.update cell (.head k b) none) place' ∧ Thinned place place' ∧
      ∀ i, place' k i ≠ some b := by
  obtain ⟨chain, chains, members⟩ := placed
  refine ⟨fun k' i => if k' = k ∧ place k' i = some b then none else place k' i,
    ⟨_, chains.storeEmpty k b, ?_⟩, ?_, ?_⟩
  · intro k' b' i
    rw [mem_setChain, members]
    simp only [List.not_mem_nil, and_false, false_or]
    by_cases here : k' = k ∧ place k' i = some b
    · rw [if_pos here, here.2]
      simp [here.1, eq_comm]
    · rw [if_neg here]
      grind
  · intro k' i
    by_cases here : k' = k ∧ place k' i = some b
    · exact Or.inl (if_pos here)
    · exact Or.inr (if_neg here)
  · intro i
    simp only [true_and]
    split
    · simp
    · assumption

theorem clearKey_runs (k : Nat) (buckets : List Nat) (s : Core n)
    (unlocked : ∀ b, s.owner (.bucket k b) = none) (place : Places)
    (placed : Placed s.cell place) :
    ∃ cell place', Runs t (forEach buckets fun b => do
        perform (.lock (.bucket k b))
        perform (.storeCell (.head k b) none)
        perform (.unlock (.bucket k b))) s () { s with cell := cell } ∧
      Placed cell place' ∧ Thinned place place' ∧ ∀ b ∈ buckets, ∀ i, place' k i ≠ some b := by
  induction buckets generalizing s place with
  | nil => exact ⟨s.cell, place, runs_pure () s, placed, fun _ _ => Or.inr rfl, by simp⟩
  | cons b rest ih =>
      obtain ⟨place₁, placed₁, thinned₁, empty₁⟩ := emptyBucket placed k b
      obtain ⟨cell, place', ran, placed', thinned', empty'⟩ :=
        ih { s with cell := Function.update s.cell (.head k b) none } unlocked place₁ placed₁
      refine ⟨cell, place', runs_bind (runs_locked (unlocked b) (Exec.perform rfl)
        (runs_pure () _)) ran, placed', thinned₁.trans thinned', ?_⟩
      intro b' member i
      rcases List.mem_cons.mp member with rfl | member
      · exact thinned'.stays_empty (empty₁ i)
      · exact empty' b' member i

theorem clearBuckets_runs (s : Core n) (unlocked : ∀ k b, s.owner (.bucket k b) = none)
    (place : Places) (placed : Placed s.cell place) :
    ∃ cell place', Runs t (clearBuckets D) s () { s with cell := cell } ∧
      Placed cell place' ∧ Thinned place place' ∧
      ∀ k, k < D.keys → ∀ b, b < (D.keydef k).nbuckets → ∀ i, place' k i ≠ some b := by
  suffices general : ∀ (keys : List Nat) (s : Core n) (place : Places),
      (∀ k b, s.owner (.bucket k b) = none) → Placed s.cell place →
      ∃ cell place', Runs t (forEach keys fun k =>
          forEach (List.range (D.keydef k).nbuckets) fun b => do
            perform (.lock (.bucket k b))
            perform (.storeCell (.head k b) none)
            perform (.unlock (.bucket k b))) s () { s with cell := cell } ∧
        Placed cell place' ∧ Thinned place place' ∧
        ∀ k ∈ keys, ∀ b, b < (D.keydef k).nbuckets → ∀ i, place' k i ≠ some b by
    obtain ⟨cell, place', ran, placed', thinned, empty⟩ :=
      general (List.range D.keys) s place unlocked placed
    exact ⟨cell, place', ran, placed', thinned, fun k valid =>
      empty k (List.mem_range.mpr valid)⟩
  intro keys
  induction keys with
  | nil =>
      intro s place unlocked placed
      exact ⟨s.cell, place, runs_pure () s, placed, fun _ _ => Or.inr rfl, by simp⟩
  | cons k rest ih =>
      intro s place unlocked placed
      obtain ⟨cell₁, place₁, ran₁, placed₁, thinned₁, empty₁⟩ := clearKey_runs (t := t) k
        (List.range (D.keydef k).nbuckets) s (unlocked k) place placed
      obtain ⟨cell, place', ran, placed', thinned', empty'⟩ :=
        ih { s with cell := cell₁ } place₁ unlocked placed₁
      refine ⟨cell, place', runs_bind ran₁ ran, placed', thinned₁.trans thinned', ?_⟩
      intro k' member b below i
      rcases List.mem_cons.mp member with rfl | member
      · exact thinned'.stays_empty (empty₁ b (List.mem_range.mpr below) i)
      · exact empty' k' member b below i

def Slot.cleared (slot : Slot n) : Slot n :=
  { slot with state := .free, gen := slot.gen + 1 }

theorem clearSlots_runs (total : Nat) (s : Core n)
    (unlocked : ∀ i, s.owner (.wlock i) = none) :
    Runs t (clearSlots total) s ()
      { s with slot := fun i => if i < total then (s.slot i).cleared else s.slot i } := by
  suffices general : ∀ (items : List Nat) (s : Core n), items.Nodup →
      (∀ i, s.owner (.wlock i) = none) →
      Runs t (forEach items fun i => do
        perform (.lock (.wlock i))
        perform (.storeState i .free)
        perform (.bumpGen i)
        perform (.unlock (.wlock i))) s ()
        { s with slot := fun i => if i ∈ items then (s.slot i).cleared else s.slot i } by
    have ran := general (List.range total) s List.nodup_range unlocked
    simp only [List.mem_range] at ran
    exact ran
  intro items
  induction items with
  | nil =>
      intro s _ _
      simp only [List.not_mem_nil, if_false]
      exact runs_pure () s
  | cons first rest ih =>
      intro s distinct unlocked
      obtain ⟨notRest, distinctRest⟩ := List.nodup_cons.mp distinct
      have ran := ih (s.setSlot first (s.slot first).cleared) distinctRest unlocked
      have same : (fun i => if i ∈ rest then
          ((s.setSlot first (s.slot first).cleared).slot i).cleared
          else (s.setSlot first (s.slot first).cleared).slot i) =
          fun i => if i ∈ first :: rest then (s.slot i).cleared else s.slot i := by
        funext i
        by_cases here : i = first
        · subst here
          simp [notRest, Core.setSlot]
        · simp [here, Core.setSlot]
      rw [same] at ran
      have one : Runs t (do
          perform (.lock (.wlock first))
          perform (.storeState first .free)
          perform (.bumpGen first)
          perform (.unlock (.wlock first))) s () (s.setSlot first (s.slot first).cleared) := by
        refine runs_perform_bind (exec_lock (unlocked first)) (runs_perform_bind rfl
          (runs_perform_bind rfl (Exec.perform ?_)))
        have back : Function.update (Function.update s.owner (.wlock first) (some t))
            (.wlock first) none = s.owner :=
          congrArg Core.owner (setOwner_release (unlocked first))
        simp only [Act.exec, Core.setSlot, Core.setOwner, Slot.cleared, Function.update_self,
          Function.update_idem, back]
      exact runs_bind one ran

theorem Rep.emptied {cell : Cell → Option Nat} {s' : Core n} (rep : Rep D s none)
    (placed : Placed cell fun _ _ => none)
    (freelist : FreeList cell (List.range s.slotCount).reverse)
    (slots : ∀ i, s'.slot i = if i < s.slotCount then (s.slot i).cleared else s.slot i)
    (cells : s'.cell = cell) (count : s'.chunkCnt = s.chunkCnt) (records : s'.records = 0) :
    Rep D s' none ∧ rows s' = fun _ => none := by
  have counts : s'.slotCount = s.slotCount := by
    unfold Core.slotCount
    rw [count]
  have inactive : ∀ i, (s'.slot i).state ≠ .active := by
    intro i active
    rw [slots i] at active
    by_cases below : i < s.slotCount
    · rw [if_pos below] at active
      cases active
    · rw [if_neg below] at active
      exact below (rep.allocated i active)
  refine ⟨⟨?_, ⟨_, cells ▸ freelist, ?_, ?_⟩, ?_, ?_, ?_, ?_, ?_⟩, ?_⟩
  · have none_home : homes D s' = fun _ _ => none := by
      funext k i
      exact homes_inactive (inactive i) k
    rw [none_home, cells]
    exact placed
  · intro i member
    rw [counts]
    exact ⟨by simpa using member, inactive i, by simp⟩
  · intro i below _ _ _
    rw [counts] at below
    simpa using below
  · intro i active
    exact absurd active (inactive i)
  · intro i impossible
    cases impossible
  · have empty : activeSlots s' = ∅ := by
      unfold activeSlots
      rw [Finset.filter_eq_empty_iff]
      exact fun i _ => inactive i
    rw [records, empty]
    rfl
  · intro i
    rw [slots i]
    split
    · exact rep.settled i
    · exact rep.settled i
  · rw [count]
    exact rep.capped
  · funext i
    exact if_neg (inactive i)

theorem clear_runs (rep : Rep D s none) (quiet : Quiet s) :
    ∃ s', Runs t (fmCoreClear D) s () s' ∧ Rep D s' none ∧ Quiet s' ∧
      rows s' = fun _ => none := by
  let s₁ := s.setOwner .structMutex (some t)
  have unlocked : ∀ k b, s₁.owner (.bucket k b) = none := fun k b =>
    (owner_setOwner_of_ne (by simp)).trans (quiet _)
  have unlockedSlots : ∀ i, s₁.owner (.wlock i) = none := fun i =>
    (owner_setOwner_of_ne (by simp)).trans (quiet _)
  obtain ⟨cell, place, cleared, placed, thinned, empty⟩ :=
    clearBuckets_runs (t := t) (D := D) s₁ unlocked (homes D s) rep.placed
  have nowhere : place = fun _ _ => none := by
    funext k i
    rcases thinned k i with gone | kept
    · exact gone
    · by_cases home : k < D.keys ∧ (s.slot i).state = .active
      · have chained : place k i =
            some (fmCoreKeyBucket (D.keydef k) (s.slot i).data) := kept.trans (if_pos home)
        exact absurd chained (empty k home.1 _ (fmBucket_lt_nbuckets D k _) i)
      · exact kept.trans (if_neg home)
  rw [nowhere] at placed
  have reset := clearSlots_runs (t := t) s.slotCount { s₁ with cell := cell } unlockedSlots
  let s₂ : Core n := { s₁ with
    slot := fun i => if i < s.slotCount then (s.slot i).cleared else s.slot i
    cell := Function.update cell .freeHead none }
  have noneFree : FreeList s₂.cell [] := by
    simp [FreeList, Threaded, s₂]
  have kept : SameChains cell s₂.cell := by
    constructor <;> intros <;> simp [s₂]
  obtain ⟨cell', freed, freelist, sameChains⟩ := freeSlots_freed (t := t)
    (List.range s.slotCount) s₂ noneFree List.nodup_range (by simp)
  rw [List.append_nil] at freelist
  have emptied : Placed cell' fun _ _ => none := (placed.same kept).same sameChains
  let s₃ : Core n := { s₂ with cell := cell', records := 0, owner := s.owner }
  obtain ⟨rep', rowsAfter⟩ : Rep D s₃ none ∧ rows s₃ = fun _ => none :=
    rep.emptied emptied freelist (fun _ => rfl) rfl rfl rfl
  refine ⟨s₃, ?_, rep', quiet, rowsAfter⟩
  refine runs_perform_bind (exec_lock (quiet _)) (runs_bind cleared (runs_perform_bind rfl
    (runs_bind reset (runs_perform_bind rfl (runs_bind freed (runs_perform_bind rfl ?_))))))
  apply Exec.perform
  have back : Function.update (Function.update s.owner .structMutex (some t)) .structMutex none =
      s.owner := congrArg Core.owner (setOwner_release (quiet _))
  simp only [Act.exec, Core.setOwner, s₃, s₂, s₁, back]

end Fastmem
