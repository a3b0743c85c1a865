/-
The order in which the functions of the core take their locks (fm_core.h).

Row locks come first, then the struct mutex, then the buckets by key and number.
A handler comes with the lock of at most one row. Insert takes the buckets one at
a time under the mutex, a delete the buckets and then the mutex one at a time, an
update all the buckets of the changed keys in increasing order.
-/

import Fastmem.Core.LockedPaths
import Fastmem.LockRanks

set_option autoImplicit false

namespace Fastmem

open Prog (perform iterate forEach Performs)

variable {n : Nat} {α : Type} {t : Nat} {D : ShareDef n} {gran : Gran}

def Lock.order : Lock → Nat
  | .wlock _ => 0
  | .structMutex => 1
  | .bucket k b => lockRank (k, b) + 2

def Act.takes {ρ : Type} : Act n ρ → Option Lock
  | .lock l => some l
  | _ => none

def Act.gives {ρ : Type} : Act n ρ → Option Lock
  | .unlock l => some l
  | _ => none

theorem exec_taken {ρ : Type} {action : Act n ρ} {s s' : Core n} {result : ρ}
    (ran : Act.exec t action s = some (result, s')) (l : Lock) (u : Nat)
    (owner : s'.owner l = some u) : s.owner l = some u ∨ (action.takes = some l ∧ u = t) := by
  cases action with
  | lock l' =>
      cases free : s.owner l' with
      | some _ =>
          rw [Act.exec, free] at ran
          cases ran
      | none =>
          rw [Act.exec, free] at ran
          cases ran
          by_cases same : l = l'
          · subst same
            have mine : (s.setOwner l (some t)).owner l = some t := Function.update_self ..
            rw [mine] at owner
            exact Or.inr ⟨rfl, (Option.some.inj owner).symm⟩
          · rw [owner_setOwner_of_ne same] at owner
            exact Or.inl owner
  | unlock l' =>
      cases ran
      by_cases same : l = l'
      · subst same
        have cleared : (s.setOwner l none).owner l = none := Function.update_self ..
        rw [cleared] at owner
        cases owner
      · rw [owner_setOwner_of_ne same] at owner
        exact Or.inl owner
  | initSlots c =>
      cases ran
      refine Or.inl ?_
      cases l with
      | wlock i =>
          change (if i / fmChunkSize = c then none else s.owner (.wlock i)) = some u at owner
          split at owner
          · cases owner
          · exact owner
      | bucket k b => exact owner
      | structMutex => exact owner
  | _ =>
      cases ran
      exact Or.inl owner

abbrev coreLocking (n : Nat) : Locking (coreMachine n) where
  Lock := Lock
  rank := Lock.order
  owner s l := s.owner l
  takes := Act.takes
  gives := Act.gives
  taken := exec_taken
  given {ρ action t s s' result} ran l gave := by
    cases action with
    | unlock l' =>
        cases gave
        cases ran
        exact Function.update_self ..
    | _ => cases gave
  blocked {ρ action t s} stuck := by
    cases action with
    | lock l =>
        cases free : s.owner l with
        | none =>
            change (Act.lock l).exec t s = none at stuck
            rw [Act.exec, free] at stuck
            cases stuck
        | some u => exact ⟨l, u, rfl, free⟩
    | _ => cases stuck

theorem takesNone_of_lockfree {program : CoreProg n α} (work : program.Performs Act.lockfree) :
    program.Performs fun _ action => action.takes = none := by
  refine work.mono ?_
  intro ρ action kind
  cases action <;> first | rfl | cases kind

/-- Started with some of these locks, the program takes its locks in order and ends with some of
those. -/
abbrev InOrder (t : Nat) (held : Set Lock) (program : CoreProg n α) (left : α → Set Lock) : Prop :=
  (coreLocking n).Orderly t held program left

namespace InOrder

variable {held : Set Lock} {l : Lock}

theorem lock (order : ∀ l' ∈ held, l'.order < l.order) :
    InOrder (n := n) t held (perform (.lock l)) fun _ => insert l held :=
  Locking.Orderly.take (L := coreLocking n) rfl order

theorem unlock : InOrder (n := n) t (insert l held) (perform (.unlock l)) fun _ => held :=
  Locking.Orderly.giveBack (L := coreLocking n) rfl rfl

theorem lockless {program : CoreProg n α} (work : program.Performs fun _ action => action.takes = none) :
    InOrder t held program fun _ => held :=
  Locking.Orderly.takesNone (L := coreLocking n) work

theorem lockfree {program : CoreProg n α} (work : program.Performs Act.lockfree) :
    InOrder t held program fun _ => held :=
  lockless (takesNone_of_lockfree work)

theorem reads {program : CoreProg n α} (work : program.Performs Act.reads) :
    InOrder t held program fun _ => held :=
  lockfree (lockfree_of_reads work)

end InOrder

/-! ### One bucket at a time -/

def NoBucket (held : Set Lock) : Prop := ∀ l ∈ held, l.order < 2

theorem NoBucket.below {held : Set Lock} (none : NoBucket held) (k b : Nat) :
    ∀ l ∈ held, l.order < (Lock.bucket k b).order :=
  fun l member => Nat.lt_of_lt_of_le (none l member) (Nat.le_add_left 2 _)

def RowsOnly (held : Set Lock) : Prop := ∀ l ∈ held, l.order = 0

theorem RowsOnly.noBucket {held : Set Lock} (rows : RowsOnly held) : NoBucket held := by
  intro l member
  rw [rows l member]
  exact Nat.two_pos

theorem RowsOnly.withMutex {held : Set Lock} (rows : RowsOnly held) :
    NoBucket (insert .structMutex held) := by
  intro l member
  cases member with
  | inl same =>
      rw [same]
      exact Nat.one_lt_two
  | inr inHeld => exact rows.noBucket l inHeld

theorem RowsOnly.belowMutex {held : Set Lock} (rows : RowsOnly held) :
    ∀ l ∈ held, l.order < Lock.structMutex.order := by
  intro l member
  rw [rows l member]
  exact Nat.one_pos

open Locking.Orderly (bind ret)

variable {held : Set Lock}

theorem find_inOrder (none : NoBucket held) (key : Nat) (packed : PackedKey) :
    InOrder t held (fmCoreFind D gran key packed) fun _ => held := by
  refine bind (InOrder.lock (none.below key _)) fun _ => ?_
  refine bind (InOrder.reads (.perform trivial)) fun head => ?_
  refine bind (InOrder.reads (.iterate fun h => ?_)) fun found => ?_
  · unfold findRound
    split
    · exact .ret _
    · refine (readPassing_reads _ _).bind fun row => ?_
      cases row with
      | some buf => exact .ret _
      | none => exact .step trivial fun _ => .ret _
  · exact bind InOrder.unlock fun _ => ret subset_rfl

theorem findNext_inOrder (none : NoBucket held) (key : Nat) (packed : PackedKey)
    (cur : Option Nat) : InOrder t held (fmCoreFindNext D gran key packed cur) fun _ => held := by
  refine bind (InOrder.lock (none.below key _)) fun _ => ?_
  refine bind (InOrder.reads (.perform trivial)) fun head => ?_
  refine bind (InOrder.reads (.iterate fun state => ?_)) fun found => ?_
  · unfold findNextRound
    split
    · exact .ret _
    · split
      · exact .step trivial fun _ => .ret _
      · refine Performs.bind ?_ fun row => ?_
        · split
          · exact readPassing_reads _ _
          · exact .ret _
        · cases row with
          | some buf => exact .ret _
          | none => exact .step trivial fun _ => .ret _
  · exact bind InOrder.unlock fun _ => ret subset_rfl

theorem unlinkBucket_inOrder (none : NoBucket held) (k b idx : Nat) {rest : CoreProg n α}
    {left : α → Set Lock} (after : InOrder t held rest left) :
    InOrder t held (do
      perform (.lock (.bucket k b))
      let _ ← fmCoreChainUnlink k b idx
      perform (.unlock (.bucket k b))
      rest) left := by
  refine bind (InOrder.lock (none.below k b)) fun _ => ?_
  refine bind (InOrder.lockfree (chainUnlink_lockfree k b idx)) fun _ => ?_
  exact bind InOrder.unlock fun _ => after

/-! ### Insert -/

theorem growKeyNext_lockless (c keys left : Nat) :
    (growKeyNext (n := n) c keys left).Performs fun _ action => action.takes = none := by
  induction left with
  | zero => exact .ret _
  | succ left ih =>
      refine .step rfl fun granted => .step rfl fun _ => ?_
      split
      · exact .step rfl fun _ => ih
      · refine Performs.bind (.forEach fun _ _ => .perform rfl) fun _ => ?_
        exact .step rfl fun _ => .step rfl fun _ => .step rfl fun _ => .step rfl fun _ => .ret _

theorem growChunk_lockless :
    (fmCoreGrowChunk D).Performs fun _ action => action.takes = none := by
  have keys : ∀ c, (growChunkKeys D c).Performs fun _ action => action.takes = none := by
    intro c
    unfold growChunkKeys
    split
    · exact .ret _
    · refine .step rfl fun granted => .step rfl fun _ => ?_
      split
      · exact growKeyNext_lockless c D.keys D.keys
      · exact .step rfl fun _ => .step rfl fun _ => .ret _
  refine .step rfl fun c => ?_
  split
  · exact .ret _
  · refine .step rfl fun granted => .step rfl fun _ => ?_
    split
    · exact .ret _
    · refine .step rfl fun _ => (keys c).bind fun complete => ?_
      split
      · exact .step rfl fun _ => .ret _
      · exact .ret _

theorem allocSlot_lockless : (fmCoreAllocSlot D).Performs fun _ action => action.takes = none := by
  refine .step rfl fun head => ?_
  cases head with
  | some idx => exact .step rfl fun _ => .step rfl fun _ => .ret _
  | none =>
      refine .step rfl fun cnt => ?_
      dsimp only
      split
      · exact .ret _
      · refine growChunk_lockless.bind fun failed => ?_
        split
        · exact .ret _
        · refine Performs.bind (.forEach fun i _ => ?_) fun _ => .ret _
          exact .step rfl fun _ => .step rfl fun _ => .perform rfl

theorem insertLinkKeys_inOrder (none : NoBucket held) (rec : Rec n) (idx : Nat) (keys : List Nat) :
    InOrder t held (insertLinkKeys D gran rec idx keys) fun _ => held := by
  induction keys with
  | nil => exact ret subset_rfl
  | cons k rest ih =>
      refine bind (InOrder.lock (none.below k _)) fun _ => ?_
      refine bind (InOrder.reads (dupCheck_reads k _ rec)) fun dup => ?_
      split
      · exact bind InOrder.unlock fun _ => ret subset_rfl
      · refine bind (InOrder.lockfree (chainLink_lockfree k _ idx)) fun _ => ?_
        exact bind InOrder.unlock fun _ => ih

theorem insertRollback_inOrder (none : NoBucket held) (rec : Rec n) (idx k : Nat) :
    InOrder t held (insertRollback D rec idx k) fun _ => held := by
  induction k with
  | zero => exact ret subset_rfl
  | succ k ih => exact unlinkBucket_inOrder none k _ idx ih

theorem insertRow_inOrder (rows : RowsOnly held) (rec : Rec n) :
    InOrder t held (fmCoreInsertRow D gran rec) fun _ => held := by
  refine bind (InOrder.lock rows.belowMutex) fun _ => ?_
  refine bind (InOrder.lockless allocSlot_lockless) fun slot => ?_
  cases slot with
  | none =>
      refine bind InOrder.unlock fun _ => ?_
      exact bind (InOrder.reads (.perform trivial)) fun _ => ret subset_rfl
  | some idx =>
      refine bind (InOrder.lockfree (memcpyIn_lockfree idx rec)) fun _ => ?_
      refine bind (insertLinkKeys_inOrder rows.withMutex rec idx _) fun dup => ?_
      cases dup with
      | some k =>
          refine bind (insertRollback_inOrder rows.withMutex rec idx k) fun _ => ?_
          refine bind (InOrder.lockfree (freeSlot_lockfree idx)) fun _ => ?_
          exact bind InOrder.unlock fun _ => ret subset_rfl
      | none =>
          refine bind (InOrder.lockfree (.perform trivial)) fun _ => ?_
          refine bind (InOrder.lockfree (.perform trivial)) fun _ => ?_
          exact bind InOrder.unlock fun _ => ret subset_rfl

/-! ### Update and delete of a locked row -/

def bucketLocks (pairs : List (Nat × Nat)) : Set Lock :=
  { l | ∃ pair ∈ pairs, l = .bucket pair.1 pair.2 }

theorem lockBuckets_inOrder {pairs : List (Nat × Nat)}
    (increasing : pairs.Pairwise fun p q => lockRank p < lockRank q) {held : Set Lock}
    (below : ∀ pair ∈ pairs, ∀ l ∈ held, l.order < (Lock.bucket pair.1 pair.2).order) :
    InOrder (n := n) t held (lockBuckets pairs) fun _ => held ∪ bucketLocks pairs := by
  induction pairs generalizing held with
  | nil => exact ret fun l member => Or.inl member
  | cons first rest ih =>
      obtain ⟨least, increasingRest⟩ := List.pairwise_cons.mp increasing
      refine bind (InOrder.lock (below first (List.mem_cons_self ..))) fun _ => ?_
      refine Locking.Orderly.mono (ih increasingRest fun pair later l member => ?_) fun _ l member => ?_
      · cases member with
        | inl same =>
            rw [same]
            exact Nat.add_lt_add_right (least pair later) 2
        | inr inHeld => exact below pair (List.mem_cons_of_mem first later) l inHeld
      · cases member with
        | inl before =>
            cases before with
            | inl same => exact Or.inr ⟨first, List.mem_cons_self .., same⟩
            | inr inHeld => exact Or.inl inHeld
        | inr inRest =>
            obtain ⟨pair, later, same⟩ := inRest
            exact Or.inr ⟨pair, List.mem_cons_of_mem first later, same⟩

theorem unlockBuckets_inOrder (pairs : List (Nat × Nat)) :
    InOrder (n := n) t (held ∪ bucketLocks pairs) (unlockBuckets pairs) fun _ => held := by
  have each : ∀ items : List (Nat × Nat), InOrder (n := n) t (held ∪ bucketLocks items)
      (forEach items fun pair => perform (.unlock (.bucket pair.1 pair.2))) fun _ => held := by
    intro items
    induction items with
    | nil =>
        refine ret fun l member => ?_
        cases member with
        | inl inHeld => exact inHeld
        | inr inNone =>
            obtain ⟨pair, member, _⟩ := inNone
            cases member
    | cons first rest ih =>
        refine bind (Locking.Orderly.give (L := coreLocking n) rfl rfl) fun _ => ?_
        refine Locking.Orderly.fewer ih fun l member => ?_
        obtain ⟨inHeld | ⟨pair, inItems, same⟩, other⟩ := member
        · exact Or.inl inHeld
        · cases List.mem_cons.mp inItems with
          | inl isFirst =>
              rw [isFirst] at same
              exact absurd same other
          | inr later => exact Or.inr ⟨pair, later, same⟩
  refine Locking.Orderly.fewer (each pairs.reverse) fun l member => ?_
  cases member with
  | inl inHeld => exact Or.inl inHeld
  | inr inPairs =>
      obtain ⟨pair, member, same⟩ := inPairs
      exact Or.inr ⟨pair, List.mem_reverse.mpr member, same⟩

theorem updateRowLocked_inOrder (none : NoBucket held) (idx : Nat) (g : UInt32)
    (old new : Rec n) : InOrder t held (fmCoreUpdateRowLocked D gran idx g old new)
      fun _ => held := by
  refine bind (InOrder.reads ((slotStale_readsSlot idx g).mono Act.readsSlot.reads)) fun stale => ?_
  split
  · exact ret subset_rfl
  · dsimp only
    split
    · refine bind (InOrder.lockfree (writeImage_lockfree idx new)) fun _ => ?_
      exact ret subset_rfl
    · refine bind (lockBuckets_inOrder (lockset_strict ..) fun pair _ => none.below _ _) fun _ => ?_
      refine bind (InOrder.reads (dupCheckChanged_reads new _)) fun dup => ?_
      cases dup with
      | some k => exact bind (unlockBuckets_inOrder _) fun _ => ret subset_rfl
      | none =>
          refine bind (InOrder.lockfree (writeImage_lockfree idx new)) fun _ => ?_
          refine bind (InOrder.lockfree (relinkChanged_lockfree old new idx _)) fun _ => ?_
          exact bind (unlockBuckets_inOrder _) fun _ => ret subset_rfl

theorem deleteRowLocked_inOrder (rows : RowsOnly held) (idx : Nat) (g : UInt32) :
    InOrder t held (fmCoreDeleteRowLocked D gran idx g) fun _ => held := by
  refine bind (InOrder.reads ((slotStale_readsSlot idx g).mono Act.readsSlot.reads)) fun stale => ?_
  split
  · exact ret subset_rfl
  · refine bind (InOrder.lockfree (.perform trivial)) fun _ => ?_
    refine bind (InOrder.reads (memcpyOut_reads idx)) fun scratch => ?_
    refine bind (Locking.Orderly.forEach fun k _ => ?_) fun _ => ?_
    · refine bind (InOrder.lock (rows.noBucket.below k _)) fun _ => ?_
      exact bind (InOrder.lockfree (chainUnlink_lockfree k _ idx)) fun _ => InOrder.unlock
    · refine bind (InOrder.lockfree (.perform trivial)) fun _ => ?_
      refine bind (InOrder.lockfree (.perform trivial)) fun _ => ?_
      refine bind (InOrder.lockfree (.perform trivial)) fun _ => ?_
      refine bind (InOrder.lock rows.belowMutex) fun _ => ?_
      refine bind (InOrder.lockfree (freeSlot_lockfree idx)) fun _ => ?_
      exact bind InOrder.unlock fun _ => ret subset_rfl

end Fastmem
