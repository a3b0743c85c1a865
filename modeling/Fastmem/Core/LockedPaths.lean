/-
The two write paths of the core compared: `fm_core_update_row` and
`fm_core_delete_row`, which take the slot lock themselves, and their `_locked`
twins, whose caller holds it.

The code between the locks does not look at lock owners, so it runs the same
way whoever holds the slot lock. The deletes agree always. The plain update
checks for duplicates before it looks whether its row is still there, its twin
the other way round: they part exactly on a stale row whose new image is a
duplicate.
-/

import Fastmem.Core.CallFrames
import Fastmem.Core.SerialRuns

set_option autoImplicit false

namespace Fastmem

open Prog (perform iterate forEach foldEach Performs)
open Machine

variable {n : Nat} {α : Type} {t : Nat} {s s' : Core n} {D : ShareDef n} {gran : Gran}

/-! ### Work that does not look at lock owners -/

def Act.lockfree (ρ : Type) : Act n ρ → Prop
  | .lock _ | .unlock _ | .initSlots _ => False
  | _ => True

theorem lockfree_exec {ρ : Type} {action : Act n ρ} (kind : Act.lockfree ρ action) (t : Nat)
    (s : Core n) (owner : Lock → Option Nat) :
    Act.exec t action { s with owner := owner } =
      (Act.exec t action s).map (Prod.map id fun s => { s with owner := owner }) := by
  cases action <;> first | rfl | cases kind

theorem lockfree_owner {ρ : Type} {action : Act n ρ} {result : ρ} (kind : Act.lockfree ρ action)
    (ran : Act.exec t action s = some (result, s')) : s'.owner = s.owner := by
  cases action <;> first | cases kind; done | (cases ran; rfl)

theorem lockfree_mapped {program : CoreProg n α} {result : α}
    (work : program.Performs Act.lockfree) (owner : Lock → Option Nat)
    (ran : Runs t program s result s') :
    Runs t program { s with owner := owner } result { s' with owner := owner } :=
  Exec.mapped (M := coreMachine n) (f := fun s => { s with owner := owner })
    (fun _ s kind => lockfree_exec kind t s owner) work ran

def Act.avoids (l : Lock) (ρ : Type) : Act n ρ → Prop
  | .lock l' | .unlock l' => l' ≠ l
  | .initSlots _ => False
  | _ => True

theorem avoids_mapped {program : CoreProg n α} {result : α} {l : Lock} {owner : Option Nat}
    (work : program.Performs (Act.avoids l)) (ran : Runs t program s result s') :
    Runs t program (s.setOwner l owner) result (s'.setOwner l owner) := by
  refine Exec.mapped (M := coreMachine n) (f := fun s => s.setOwner l owner) ?_ work ran
  intro ρ action s kind
  cases action <;> first | cases kind | skip
  case lock l' =>
    have different : l' ≠ l := kind
    have same : (s.setOwner l owner).owner l' = s.owner l' := owner_setOwner_of_ne different
    cases taken : s.owner l' with
    | none =>
        simp only [Act.exec, same, taken, Option.map_some, Prod.map_apply, id]
        simp only [Core.setOwner, Function.update_comm different]
    | some u => simp only [Act.exec, same, taken, Option.map_none]
  case unlock l' =>
    have different : l' ≠ l := kind
    simp only [Act.exec, Option.map_some, Prod.map_apply, id]
    simp only [Core.setOwner, Function.update_comm different]
  all_goals rfl

theorem lockfree_of_reads {program : CoreProg n α} (work : program.Performs Act.reads) :
    program.Performs Act.lockfree := by
  refine work.mono ?_
  intro ρ action kind
  cases action <;> cases kind <;> trivial

theorem avoids_of_lockfree {program : CoreProg n α} (l : Lock)
    (work : program.Performs Act.lockfree) : program.Performs (Act.avoids l) := by
  refine work.mono ?_
  intro ρ action kind
  cases action <;> cases kind <;> trivial

theorem memcpyIn_lockfree (idx : Nat) (rec : Rec n) :
    (memcpyIn gran idx rec).Performs Act.lockfree := by
  cases gran with
  | whole => exact .perform trivial
  | bytewise => exact .forEach fun _ _ => .perform trivial

theorem writeImage_lockfree (idx : Nat) (rec : Rec n) :
    (fmCoreWriteImage gran idx rec).Performs Act.lockfree :=
  .step trivial fun _ => (memcpyIn_lockfree idx rec).bind fun _ => .perform trivial

theorem chainUnlink_lockfree (k b idx : Nat) :
    (fmCoreChainUnlink (n := n) k b idx).Performs Act.lockfree := by
  refine .iterate fun link => .step trivial fun pointed => ?_
  cases pointed with
  | none => exact .ret _
  | some h =>
      dsimp only
      split
      · exact .step trivial fun _ => .step trivial fun _ => .ret _
      · exact .ret _

theorem chainLink_lockfree (k b idx : Nat) :
    (fmCoreChainLink (n := n) k b idx).Performs Act.lockfree :=
  .step trivial fun _ => .step trivial fun _ => .perform trivial

theorem relinkChanged_lockfree (old new : Rec n) (idx : Nat) (changed : List Nat) :
    (relinkChanged D old new idx changed).Performs Act.lockfree :=
  .forEach fun k _ => (chainUnlink_lockfree k _ idx).bind fun _ => chainLink_lockfree k _ idx

theorem freeSlot_lockfree (idx : Nat) : (fmCoreFreeSlot (n := n) idx).Performs Act.lockfree :=
  .step trivial fun _ => .step trivial fun _ => .perform trivial

theorem deleteTail_avoids (idx i : Nat) :
    (deleteTail D gran idx).Performs (Act.avoids (.wlock i)) := by
  refine Performs.bind (avoids_of_lockfree _ (lockfree_of_reads (memcpyOut_reads idx)))
    fun scratch => ?_
  refine Performs.bind (.forEach fun k _ => ?_) fun _ => ?_
  · refine .step (by simp [Act.avoids]) fun _ => ?_
    refine Performs.bind (avoids_of_lockfree _ (chainUnlink_lockfree k _ idx)) fun _ => ?_
    exact .perform (by simp [Act.avoids])
  · refine .step trivial fun _ => .step trivial fun _ => .step trivial fun _ => ?_
    refine .step (by simp [Act.avoids]) fun _ => ?_
    refine Performs.bind (avoids_of_lockfree _ (freeSlot_lockfree idx)) fun _ => ?_
    exact .step (by simp [Act.avoids]) fun _ => .ret _

/-! ### Relinking with any old record -/

theorem unlinkWalk_misses {k idx : Nat} {items : List Nat} {link : Cell}
    (threaded : Threaded s.cell (Cell.next k) link items) (outside : idx ∉ items) :
    Runs t (iterate link (unlinkRound k idx)) s (.error .notFound) s := by
  induction items generalizing link with
  | nil =>
      apply Exec.iterate_leave
      refine runs_perform_bind rfl ?_
      rw [show s.cell link = none from threaded]
      exact runs_pure _ s
  | cons first rest ih =>
      have different : first ≠ idx := fun same => outside (same ▸ List.mem_cons_self ..)
      refine Exec.iterate_again ?_
        (ih threaded.2 fun inRest => outside (List.mem_cons_of_mem first inRest))
      refine runs_perform_bind rfl ?_
      rw [threaded.1]
      simp only [if_neg different]
      exact runs_pure _ s

def KeyThreaded (cell : Cell → Option Nat) (k : Nat) : Prop :=
  ∀ b, ∃ items, Threaded cell (Cell.next k) (.head k b) items

theorem KeyThreaded.setCell {k : Nat} {cell : Cell} {value : Option Nat}
    (threaded : KeyThreaded s.cell k) (notHead : ∀ b, cell ≠ .head k b)
    (notNext : ∀ i, cell ≠ .next k i) : KeyThreaded (s.setCell cell value).cell k := by
  intro b
  obtain ⟨items, chain⟩ := threaded b
  exact ⟨items, chain.store (notHead b) fun i _ => notNext i⟩

/-- Unlinking returns, whether or not the slot is in the chain it is looked for in, and leaves
the chains of other keys alone. -/
theorem chainUnlink_returns {k : Nat} (b idx : Nat) (threaded : KeyThreaded s.cell k) :
    ∃ result s', Runs t (fmCoreChainUnlink k b idx) s result s' ∧
      ∀ k', k' ≠ k → KeyThreaded s.cell k' → KeyThreaded s'.cell k' := by
  obtain ⟨items, chain⟩ := threaded b
  by_cases member : idx ∈ items
  · obtain ⟨before, after, split⟩ := List.append_of_mem member
    have distinct := Threaded.nodup chain
    rw [split] at distinct chain
    have notBefore : idx ∉ before := fun inBefore =>
      (List.nodup_append.mp distinct).2.2 idx inBefore idx (List.mem_cons_self ..) rfl
    refine ⟨_, _, unlinkWalk_finds chain notBefore, fun k' different kept => ?_⟩
    cases before with
    | nil => exact kept.setCell (by simp [cellAfter, different.symm]) (by simp [cellAfter])
    | cons first rest =>
        obtain ⟨last, _, atLast⟩ := cellAfter_mem (Cell.next k) first rest
        have stored : cellAfter (Cell.next k) (.head k b) (first :: rest) = .next k last := atLast
        rw [stored]
        exact kept.setCell (by simp) (by simp [different.symm])
  · exact ⟨_, s, unlinkWalk_misses chain member, fun _ _ kept => kept⟩

theorem relinkChanged_returns (old new : Rec n) (idx : Nat) (changed : List Nat) (s : Core n)
    (distinct : changed.Nodup) (threaded : ∀ k ∈ changed, KeyThreaded s.cell k) :
    ∃ s', Runs t (relinkChanged D old new idx changed) s () s' := by
  induction changed generalizing s with
  | nil => exact ⟨s, runs_pure () s⟩
  | cons k rest ih =>
      obtain ⟨notLater, distinctRest⟩ := List.nodup_cons.mp distinct
      obtain ⟨_, mid, unlinked, others⟩ := chainUnlink_returns (t := t)
        (fmCoreKeyBucket (D.keydef k) old) idx (threaded k (List.mem_cons_self ..))
      obtain ⟨s', ran⟩ := ih
        ((mid.setCell (.next k idx) (mid.cell (.head k (fmCoreKeyBucket (D.keydef k) new)))).setCell
          (.head k (fmCoreKeyBucket (D.keydef k) new)) (some idx)) distinctRest (by
        intro k' member
        have different : k' ≠ k := fun same => notLater (same ▸ member)
        have kept := others k' different (threaded k' (List.mem_cons_of_mem k member))
        exact (kept.setCell (by simp) (by simp [different.symm])).setCell
          (by simp [different.symm]) (by simp))
      exact ⟨s', Exec.bind (runs_bind unlinked chainLink_runs) ran⟩

/-! ### The updates -/

section Paths

variable {idx : Nat} {g : UInt32} {old new : Rec n}

def dupOn (D : ShareDef n) (s : Core n) (new : Rec n) (k : Nat) : Prop :=
  dupChecked (D.keydef k) new = true ∧ ∃ i, (s.slot i).state = .active ∧
    fmCoreKeyBucket (D.keydef k) (s.slot i).data = fmCoreKeyBucket (D.keydef k) new ∧
    (D.keydef k).ops.cmpRecRec (s.slot i).data new = 0

theorem dupCheckChanged_decides (gran : Gran) (new : Rec n) (rep : Rep D s none)
    (changed : List Nat) (valid : ∀ k ∈ changed, k < D.keys) :
    ∃ dup, Runs t (dupCheckChanged D gran new changed) s dup s ∧
      (dup = none ↔ ∀ k ∈ changed, ¬ dupOn D s new k) := by
  induction changed with
  | nil => exact ⟨none, runs_pure none s, by simp⟩
  | cons k rest ih =>
      obtain ⟨chain, chains, members⟩ := rep.placed
      let b := fmCoreKeyBucket (D.keydef k) new
      have checked : Runs t (fmCoreDupCheck D gran k b new) s _ s :=
        dupCheck_runs chains rep.settled
      have found : (dupChecked (D.keydef k) new && (chain k b).any (passes s fun scratch =>
          (D.keydef k).ops.cmpRecRec scratch new = 0)) = true ↔ dupOn D s new k := by
        rw [Bool.and_eq_true, List.any_eq_true]
        apply and_congr Iff.rfl
        constructor
        · rintro ⟨i, member, passed⟩
          unfold passes at passed
          simp only [Bool.and_eq_true, decide_eq_true_eq] at passed
          rw [members, homes, if_pos ⟨valid k (List.mem_cons_self ..), passed.1⟩] at member
          exact ⟨i, passed.1, Option.some.inj member, passed.2⟩
        · rintro ⟨i, active, sameBucket, equal⟩
          refine ⟨i, (members _ _ _).mpr ?_, by simp [passes, active, equal]⟩
          rw [homes, if_pos ⟨valid k (List.mem_cons_self ..), active⟩]
          exact congrArg some sameBucket
      obtain ⟨later, ran, none_iff⟩ :=
        ih fun k' member => valid k' (List.mem_cons_of_mem k member)
      by_cases dup : dupOn D s new k
      · refine ⟨some k, runs_bind checked ?_, iff_of_false (by simp) fun none =>
          none k (List.mem_cons_self ..) dup⟩
        rw [if_pos (found.mpr dup)]
        exact runs_pure (some k) s
      · refine ⟨later, runs_bind checked ?_, none_iff.trans ?_⟩
        · rw [if_neg fun again => dup (found.mp again)]
          exact ran
        · simp [dup]

/-- Both programs return the same result, and states that differ in the slot lock only: the
second runs with the lock held. -/
def Agree (t idx : Nat) (plain locked : CoreProg n α) (s : Core n) : Prop :=
  ∃ result s', Runs t plain s result s' ∧
    Runs t locked (s.setOwner (.wlock idx) (some t)) result (s'.setOwner (.wlock idx) (some t))

theorem guardedCommit_runs {changed : List Nat} {refuse accept : CoreProg n α} {answer : α}
    {mid : Core n} (free : s.owner (.wlock idx) = none) (live : liveAt s idx g)
    (relinked : Runs t (relinkChanged D old new idx changed)
      (s.setSlot idx ((s.slot idx).rewritten new)) () mid)
    (accepted : Runs t accept mid answer s') :
    Runs t (do
      perform (.lock (.wlock idx))
      let stale ← slotStale idx g
      if stale then
        perform (.unlock (.wlock idx))
        refuse
      else
        fmCoreWriteImage gran idx new
        relinkChanged D old new idx changed
        perform (.unlock (.wlock idx))
        accept) s answer s' := by
  have liveStill : liveAt (s.setOwner (.wlock idx) (some t)) idx g := live
  have sameOwner : mid.owner = s.owner := by
    obtain ⟨cell, rfl, _⟩ := relinkChanged_relinks old new idx changed _ _ _ _ relinked
    rfl
  refine runs_perform_bind (exec_lock free) (runs_bind (slotStale_accepts liveStill) ?_)
  refine runs_bind (writeImage_runs new) (runs_bind (avoids_mapped (avoids_of_lockfree
    (.wlock idx) (relinkChanged_lockfree old new idx changed)) relinked)
    (runs_perform_bind rfl ?_))
  rw [setOwner_release (by rw [sameOwner]; exact free)]
  exact accepted

theorem guardedCommit_refuses {changed : List Nat} {refuse accept : CoreProg n α} {answer : α}
    (free : s.owner (.wlock idx) = none) (stale : ¬ liveAt s idx g)
    (refused : Runs t refuse s answer s') :
    Runs t (do
      perform (.lock (.wlock idx))
      let stale ← slotStale idx g
      if stale then
        perform (.unlock (.wlock idx))
        refuse
      else
        fmCoreWriteImage gran idx new
        relinkChanged D old new idx changed
        perform (.unlock (.wlock idx))
        accept) s answer s' := by
  have staleStill : ¬ liveAt (s.setOwner (.wlock idx) (some t)) idx g := stale
  refine runs_perform_bind (exec_lock free) (runs_bind (slotStale_refuses staleStill) ?_)
  refine runs_perform_bind rfl ?_
  rw [setOwner_release free]
  exact refused

theorem updateRowLocked_refuses (stale : ¬ liveAt s idx g) :
    Runs t (fmCoreUpdateRowLocked D gran idx g old new) s (.error .deleted) s :=
  runs_bind (slotStale_refuses stale) (runs_pure _ s)

theorem unchanged_agree (quiet : Quiet s) (unchanged : changedKeys D old new = []) :
    Agree t idx (fmCoreUpdateRow D gran idx g old new)
      (fmCoreUpdateRowLocked D gran idx g old new) s := by
  have plain : fmCoreUpdateRow D gran idx g old new = do
      perform (.lock (.wlock idx))
      let stale ← slotStale idx g
      if stale then
        perform (.unlock (.wlock idx))
        return .error .deleted
      else
        fmCoreWriteImage gran idx new
        relinkChanged D old new idx []
        perform (.unlock (.wlock idx))
        return .ok () := by
    unfold fmCoreUpdateRow
    rw [if_pos unchanged]
    rfl
  by_cases live : liveAt s idx g
  · refine ⟨.ok (), s.setSlot idx ((s.slot idx).rewritten new), ?_, ?_⟩
    · rw [plain]
      exact guardedCommit_runs (quiet _) live (runs_pure () _) (runs_pure _ _)
    · have liveStill : liveAt (s.setOwner (.wlock idx) (some t)) idx g := live
      refine runs_bind (slotStale_accepts liveStill) ?_
      simp only [Bool.false_eq_true, if_false]
      rw [if_pos unchanged]
      exact runs_bind (writeImage_runs new) (runs_pure _ _)
  · refine ⟨.error .deleted, s, ?_, updateRowLocked_refuses live⟩
    rw [plain]
    exact guardedCommit_refuses (quiet _) live (runs_pure _ _)

theorem updateRow_checks {dup : Option Nat} {answer : Except Err Unit} (quiet : Quiet s)
    (changes : changedKeys D old new ≠ [])
    (checked : Runs t (dupCheckChanged D gran new (changedKeys D old new)) s dup s)
    (rest : match dup with
      | some k => answer = .error (.dupKey (k + 1)) ∧ s' = s
      | none => ¬ liveAt s idx g ∧ answer = .error .deleted ∧ s' = s ∨
          liveAt s idx g ∧ answer = .ok () ∧
            Runs t (relinkChanged D old new idx (changedKeys D old new))
              (s.setSlot idx ((s.slot idx).rewritten new)) () s') :
    Runs t (fmCoreUpdateRow D gran idx g old new) s answer s' := by
  let pairs := lockset D old new (changedKeys D old new)
  let held : Core n := { s with owner := holdBuckets t pairs s.owner }
  have free : ∀ k b, s.owner (.bucket k b) = none := fun k b => quiet _
  unfold fmCoreUpdateRow
  rw [if_neg changes]
  refine runs_bind (lockBuckets_runs pairs s (lockset_nodup ..) free) ?_
  refine runs_bind (lockfree_mapped (lockfree_of_reads (dupCheckChanged_reads new _))
    (holdBuckets t pairs s.owner) checked) ?_
  cases dup with
  | some k =>
      obtain ⟨rfl, rfl⟩ := rest
      exact runs_bind (unlockBuckets_runs pairs s' free) (runs_pure _ s')
  | none =>
      have slotFree : held.owner (.wlock idx) = none := quiet (.wlock idx)
      rcases rest with ⟨stale, rfl, rfl⟩ | ⟨live, rfl, relinked⟩
      · refine guardedCommit_refuses (s := held) slotFree stale ?_
        exact runs_bind (unlockBuckets_runs pairs s' free) (runs_pure _ s')
      · obtain ⟨cell, rfl, same⟩ := relinkChanged_relinks old new idx _ _ _ _ _ relinked
        refine guardedCommit_runs (s := held) slotFree live (lockfree_mapped
          (relinkChanged_lockfree old new idx _) (holdBuckets t pairs s.owner) relinked) ?_
        exact runs_bind (unlockBuckets_runs pairs _ free) (runs_pure _ _)

theorem updateRowLocked_checks {dup : Option Nat} {answer : Except Err Unit}
    (free : ∀ k b, s.owner (.bucket k b) = none) (changes : changedKeys D old new ≠ [])
    (live : liveAt s idx g)
    (checked : Runs t (dupCheckChanged D gran new (changedKeys D old new)) s dup s)
    (rest : match dup with
      | some k => answer = .error (.dupKey (k + 1)) ∧ s' = s
      | none => answer = .ok () ∧
          Runs t (relinkChanged D old new idx (changedKeys D old new))
            (s.setSlot idx ((s.slot idx).rewritten new)) () s') :
    Runs t (fmCoreUpdateRowLocked D gran idx g old new) s answer s' := by
  let pairs := lockset D old new (changedKeys D old new)
  refine runs_bind (slotStale_accepts live) ?_
  simp only [Bool.false_eq_true, if_false]
  rw [if_neg changes]
  refine runs_bind (lockBuckets_runs pairs s (lockset_nodup ..) free) ?_
  refine runs_bind (lockfree_mapped (lockfree_of_reads (dupCheckChanged_reads new _))
    (holdBuckets t pairs s.owner) checked) ?_
  cases dup with
  | some k =>
      obtain ⟨rfl, rfl⟩ := rest
      exact runs_bind (unlockBuckets_runs pairs s' free) (runs_pure _ s')
  | none =>
      obtain ⟨rfl, relinked⟩ := rest
      obtain ⟨cell, rfl, same⟩ := relinkChanged_relinks old new idx _ _ _ _ _ relinked
      refine runs_bind (writeImage_runs new) (runs_bind (lockfree_mapped
        (relinkChanged_lockfree old new idx _) (holdBuckets t pairs s.owner) relinked) ?_)
      exact runs_bind (unlockBuckets_runs pairs _ free) (runs_pure _ _)

theorem deletes_agree (gran : Gran) (rep : Rep D s none) (quiet : Quiet s) :
    Agree t idx (fmCoreDeleteRow D gran idx g) (fmCoreDeleteRowLocked D gran idx g) s := by
  by_cases live : liveAt s idx g
  · have liveStill : liveAt (s.setOwner (.wlock idx) (some t)) idx g := live
    obtain ⟨s', ran, _⟩ := deleteTail_runs (t := t) gran rep live.1 (fun k b => quiet _) (quiet _)
    refine ⟨.ok (), s', ?_, ?_⟩
    · refine runs_perform_bind (exec_lock (quiet _)) (runs_bind (slotStale_accepts liveStill) ?_)
      refine runs_perform_bind rfl (runs_perform_bind rfl ?_)
      have back : ((s.setOwner (.wlock idx) (some t)).setSlot idx
          { s.slot idx with state := .deleting }).setOwner (.wlock idx) none =
          s.setSlot idx { s.slot idx with state := .deleting } :=
        setOwner_release (s := s.setSlot idx { s.slot idx with state := .deleting }) (quiet _)
      exact back ▸ ran
    · refine runs_bind (slotStale_accepts liveStill) (runs_perform_bind rfl ?_)
      exact avoids_mapped (deleteTail_avoids idx idx) ran
  · have staleStill : ¬ liveAt (s.setOwner (.wlock idx) (some t)) idx g := live
    refine ⟨.error .deleted, s, ?_, ?_⟩
    · refine runs_perform_bind (exec_lock (quiet _)) (runs_bind (slotStale_refuses staleStill) ?_)
      refine runs_perform_bind rfl ?_
      rw [setOwner_release (quiet _)]
      exact runs_pure _ s
    · exact runs_bind (slotStale_refuses staleStill) (runs_pure _ _)

end Paths

/-- In a state that satisfies the representation invariant the two write paths agree exactly
when the row is live or its new image is no duplicate on a changed key. -/
theorem writePaths_agree_iff (D : ShareDef n) (gran : Gran) (s : Core n) (rep : Rep D s none)
    (quiet : Quiet s) (t idx : Nat) (g : UInt32) (old new : Rec n) :
    (Agree t idx (fmCoreUpdateRow D gran idx g old new)
        (fmCoreUpdateRowLocked D gran idx g old new) s ∧
      Agree t idx (fmCoreDeleteRow D gran idx g) (fmCoreDeleteRowLocked D gran idx g) s) ↔
    (liveAt s idx g ∨ ∀ k ∈ changedKeys D old new, ¬ dupOn D s new k) := by
  have deletes : Agree t idx (fmCoreDeleteRow D gran idx g) (fmCoreDeleteRowLocked D gran idx g) s :=
    deletes_agree gran rep quiet
  refine (and_iff_left deletes).trans ?_
  by_cases unchanged : changedKeys D old new = []
  · refine iff_of_true (unchanged_agree quiet unchanged) (Or.inr ?_)
    simp [unchanged]
  · have valid : ∀ k ∈ changedKeys D old new, k < D.keys := fun k member =>
      (mem_changedKeys.mp member).1
    obtain ⟨dup, checked, none_iff⟩ := dupCheckChanged_decides (t := t) gran new rep
      (changedKeys D old new) valid
    have slotFree : ∀ k b, (s.setOwner (.wlock idx) (some t)).owner (.bucket k b) = none :=
      fun k b => (owner_setOwner_of_ne (by simp)).trans (quiet _)
    have checkedHeld : Runs t (dupCheckChanged D gran new (changedKeys D old new))
        (s.setOwner (.wlock idx) (some t)) dup (s.setOwner (.wlock idx) (some t)) :=
      lockfree_mapped (lockfree_of_reads (dupCheckChanged_reads new _)) _ checked
    rw [← none_iff]
    by_cases live : liveAt s idx g
    · refine iff_of_true ?_ (Or.inl live)
      have liveStill : liveAt (s.setOwner (.wlock idx) (some t)) idx g := live
      cases dup with
      | some k =>
          exact ⟨_, s, updateRow_checks quiet unchanged checked ⟨rfl, rfl⟩,
            updateRowLocked_checks slotFree unchanged liveStill checkedHeld ⟨rfl, rfl⟩⟩
      | none =>
          obtain ⟨chain, chains, _⟩ := rep.placed
          obtain ⟨s', relinked⟩ := relinkChanged_returns (t := t) (D := D) old new idx
            (changedKeys D old new) (s.setSlot idx ((s.slot idx).rewritten new))
            (changedKeys_nodup D old new) fun k _ b => ⟨_, chains.threaded k b⟩
          refine ⟨.ok (), s', updateRow_checks quiet unchanged checked
            (Or.inr ⟨live, rfl, relinked⟩),
            updateRowLocked_checks slotFree unchanged liveStill checkedHeld ⟨rfl, ?_⟩⟩
          exact avoids_mapped (avoids_of_lockfree _ (relinkChanged_lockfree old new idx _)) relinked
    · have staleStill : ¬ liveAt (s.setOwner (.wlock idx) (some t)) idx g := live
      have refuses : Runs t (fmCoreUpdateRowLocked D gran idx g old new)
          (s.setOwner (.wlock idx) (some t)) (.error .deleted)
          (s.setOwner (.wlock idx) (some t)) := updateRowLocked_refuses staleStill
      cases dup with
      | none =>
          refine iff_of_true ⟨.error .deleted, s, ?_, refuses⟩ (Or.inr rfl)
          exact updateRow_checks quiet unchanged checked (Or.inl ⟨live, rfl, rfl⟩)
      | some k =>
          have plain : Runs t (fmCoreUpdateRow D gran idx g old new) s
              (.error (.dupKey (k + 1))) s :=
            updateRow_checks quiet unchanged checked ⟨rfl, rfl⟩
          refine iff_of_false ?_ (by simp [live])
          rintro ⟨result, s', ranPlain, ranLocked⟩
          obtain ⟨rfl, _⟩ := ranPlain.deterministic plain
          obtain ⟨clash, _⟩ := ranLocked.deterministic refuses
          cases clash

/-- A table that holds the row 7: an update of a row that is gone there, to the row 7, is a
duplicate on one path and finds its row deleted on the other. -/
theorem writePaths_part : ¬ ∀ s : Core 1, Rep byteTable s none → Quiet s →
    ∀ (t idx : Nat) (g : UInt32) (old new : Rec 1),
      Agree t idx (fmCoreUpdateRow byteTable .whole idx g old new)
        (fmCoreUpdateRowLocked byteTable .whole idx g old new) s := by
  intro claim
  obtain ⟨idx, s, g, _, rep, quiet, row⟩ := byteTable_takesSeven
    (Rep.fresh byteTable _ _) (fun _ => rfl) rfl byteStart_room
  obtain ⟨active, rfl, image⟩ := rows_eq_some.mp row
  have stale : ¬ liveAt s idx ((s.slot idx).gen + 1) := by
    rintro ⟨_, same⟩
    have nat := congrArg UInt32.toNat same
    rw [UInt32.toNat_add] at nat
    have small := (s.slot idx).gen.toNat_lt
    simp only [UInt32.reduceToNat] at nat
    omega
  have changed : changedKeys byteTable (fun _ => 3) (fun _ => 7) = [0] := by decide
  obtain ⟨dup, checked, none_iff⟩ := dupCheckChanged_decides (t := 0) .whole (fun _ => 7) rep
    (changedKeys byteTable (fun _ => 3) fun _ => 7) (by rw [changed]; decide)
  have found : dupOn byteTable s (fun _ => 7) 0 := by
    refine ⟨rfl, idx, active, ?_, ?_⟩
    · rw [image]
    · rw [image]
      rfl
  cases dup with
  | none => exact none_iff.mp rfl 0 (by rw [changed]; decide) found
  | some k =>
      have plain : Runs 0 (fmCoreUpdateRow byteTable .whole idx ((s.slot idx).gen + 1)
          (fun _ => 3) fun _ => 7) s (.error (.dupKey (k + 1))) s :=
        updateRow_checks quiet (by rw [changed]; decide) checked ⟨rfl, rfl⟩
      obtain ⟨result, s', ranPlain, ranLocked⟩ := claim s rep quiet 0 idx
        ((s.slot idx).gen + 1) (fun _ => 3) fun _ => 7
      obtain ⟨rfl, _⟩ := ranPlain.deterministic plain
      obtain ⟨clash, _⟩ := ranLocked.deterministic (updateRowLocked_refuses stale)
      cases clash

theorem writePaths_agree_iff_byteTable : ∃ s idx g, Rep byteTable s none ∧ Quiet s ∧
    Agree 0 idx (fmCoreUpdateRow byteTable .whole idx g (fun _ => 7) fun _ => 9)
      (fmCoreUpdateRowLocked byteTable .whole idx g (fun _ => 7) fun _ => 9) s := by
  obtain ⟨idx, s, g, _, rep, quiet, row⟩ := byteTable_takesSeven
    (Rep.fresh byteTable _ _) (fun _ => rfl) rfl byteStart_room
  obtain ⟨active, gen, _⟩ := rows_eq_some.mp row
  exact ⟨s, idx, g, rep, quiet, ((writePaths_agree_iff byteTable .whole s rep quiet 0 idx g
    (fun _ => 7) fun _ => 9).mpr (Or.inl ⟨active, gen⟩)).1⟩

end Fastmem
