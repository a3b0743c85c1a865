/-
The bucket locks an update takes: which pairs they are, and that they come in
strictly increasing order, each once.
-/

import Fastmem.Core.Operations

set_option autoImplicit false

namespace Fastmem

variable {n : Nat}

theorem fmBucket_lt (kc : KeyCore n) (hash : UInt32) : fmBucket kc hash < 2 ^ 32 :=
  Nat.lt_of_le_of_lt Nat.and_le_left hash.toNat_lt

theorem fmBucket_lt_nbuckets (D : ShareDef n) (k : Nat) (hash : UInt32) :
    fmBucket (D.keydef k) hash < (D.keydef k).nbuckets := by
  obtain ⟨e, pow⟩ := D.nbuckets_pow k
  have positive : 0 < (D.keydef k).nbuckets := by
    rw [pow]
    exact Nat.two_pow_pos e
  have below : fmBucket (D.keydef k) hash ≤ (D.keydef k).nbuckets - 1 := Nat.and_le_right
  omega

theorem lockRank_eq {pair : Nat × Nat} (small : pair.2 < 2 ^ 32) :
    lockRank pair = pair.1 * 2 ^ 32 + pair.2 := by
  unfold lockRank
  rw [← Nat.shiftLeft_add_eq_or_of_lt small, Nat.shiftLeft_eq]

theorem lockRank_lt {left right : Nat × Nat} (leftSmall : left.2 < 2 ^ 32)
    (rightSmall : right.2 < 2 ^ 32) :
    lockRank left < lockRank right ↔
      left.1 < right.1 ∨ (left.1 = right.1 ∧ left.2 < right.2) := by
  rw [lockRank_eq leftSmall, lockRank_eq rightSmall]
  omega

theorem lockRank_inj {left right : Nat × Nat} (leftSmall : left.2 < 2 ^ 32)
    (rightSmall : right.2 < 2 ^ 32) (same : lockRank left = lockRank right) :
    left = right := by
  rw [lockRank_eq leftSmall, lockRank_eq rightSmall] at same
  apply Prod.ext
  · omega
  · omega

/-! ### Collection -/

variable {D : ShareDef n} {old new : Rec n}

theorem mem_collectLockset {changed : List Nat} {pair : Nat × Nat} :
    pair ∈ collectLockset D old new changed ↔
      ∃ k ∈ changed, pair = (k, fmCoreKeyBucket (D.keydef k) new) ∨
        pair = (k, fmCoreKeyBucket (D.keydef k) old) := by
  unfold collectLockset
  suffices general : ∀ collected : List (Nat × Nat),
      pair ∈ changed.foldl (fun lockset k =>
        lockset ++ (if (k, fmCoreKeyBucket (D.keydef k) new) ∈ lockset then []
          else [(k, fmCoreKeyBucket (D.keydef k) new)]) ++
          (if (k, fmCoreKeyBucket (D.keydef k) old) ∈ lockset then []
            else [(k, fmCoreKeyBucket (D.keydef k) old)])) collected ↔
      pair ∈ collected ∨ ∃ k ∈ changed, pair = (k, fmCoreKeyBucket (D.keydef k) new) ∨
        pair = (k, fmCoreKeyBucket (D.keydef k) old) by
    have all := general []
    simpa using all
  induction changed with
  | nil =>
      intro collected
      simp
  | cons first rest ih =>
      intro collected
      rw [List.foldl_cons, ih, List.exists_mem_cons_iff, ← or_assoc]
      apply or_congr _ Iff.rfl
      rw [List.mem_append, List.mem_append]
      grind

theorem mem_firstEntries {pairs : List (Nat × Nat)} {pair : Nat × Nat} :
    pair ∈ firstEntries pairs ↔ pair ∈ pairs := by
  induction pairs using firstEntries.induct with
  | case1 => rfl
  | case2 single => rfl
  | case3 again rest ih =>
      rw [firstEntries, if_pos rfl, ih]
      simp
  | case4 first again rest different ih =>
      rw [firstEntries, if_neg different, List.mem_cons, ih, ← List.mem_cons]

theorem mem_lockset {changed : List Nat} {pair : Nat × Nat} :
    pair ∈ lockset D old new changed ↔
      ∃ k ∈ changed, pair = (k, fmCoreKeyBucket (D.keydef k) new) ∨
        pair = (k, fmCoreKeyBucket (D.keydef k) old) := by
  unfold lockset sortLockset
  rw [mem_firstEntries, List.mem_insertionSort, mem_collectLockset]

theorem lockset_small {changed : List Nat} {pair : Nat × Nat}
    (member : pair ∈ lockset D old new changed) : pair.2 < 2 ^ 32 := by
  obtain ⟨k, _, rfl | rfl⟩ := mem_lockset.mp member <;> exact fmBucket_lt ..

/-! ### Order -/

private theorem firstEntries_strict {pairs : List (Nat × Nat)}
    (sorted : pairs.Pairwise fun p q => lockRank p ≤ lockRank q)
    (small : ∀ pair ∈ pairs, pair.2 < 2 ^ 32) :
    (firstEntries pairs).Pairwise fun p q => lockRank p < lockRank q := by
  induction pairs using firstEntries.induct with
  | case1 => exact List.Pairwise.nil
  | case2 single => exact List.pairwise_singleton ..
  | case3 again rest ih =>
      rw [firstEntries, if_pos rfl]
      exact ih (List.pairwise_cons.mp sorted).2 fun pair member =>
        small pair (List.mem_cons_of_mem _ member)
  | case4 first again rest different ih =>
      rw [firstEntries, if_neg different]
      obtain ⟨least, sortedRest⟩ := List.pairwise_cons.mp sorted
      have smallRest : ∀ pair ∈ again :: rest, pair.2 < 2 ^ 32 := fun pair member =>
        small pair (List.mem_cons_of_mem _ member)
      refine List.pairwise_cons.mpr ⟨?_, ih sortedRest smallRest⟩
      intro pair member
      rw [mem_firstEntries] at member
      have below : lockRank first < lockRank again := by
        refine Nat.lt_of_le_of_ne (least again (List.mem_cons_self ..)) fun same => ?_
        exact different (lockRank_inj (small first (List.mem_cons_self ..))
          (smallRest again (List.mem_cons_self ..)) same)
      rcases List.mem_cons.mp member with rfl | later
      · exact below
      · exact Nat.lt_of_lt_of_le below ((List.pairwise_cons.mp sortedRest).1 pair later)

theorem lockset_strict (D : ShareDef n) (old new : Rec n) (changed : List Nat) :
    (lockset D old new changed).Pairwise fun p q => lockRank p < lockRank q := by
  unfold lockset sortLockset
  have : Std.Total (fun p q : Nat × Nat => lockRank p ≤ lockRank q) :=
    ⟨fun p q => Nat.le_total (lockRank p) (lockRank q)⟩
  have : IsTrans (Nat × Nat) (fun p q => lockRank p ≤ lockRank q) :=
    ⟨fun _ _ _ first second => Nat.le_trans first second⟩
  apply firstEntries_strict
  · exact List.pairwise_insertionSort _ _
  · intro pair member
    rw [List.mem_insertionSort, mem_collectLockset] at member
    obtain ⟨k, _, rfl | rfl⟩ := member <;> exact fmBucket_lt ..

theorem lockset_nodup (D : ShareDef n) (old new : Rec n) (changed : List Nat) :
    (lockset D old new changed).Nodup := by
  refine (lockset_strict D old new changed).imp ?_
  intro p q below same
  rw [same] at below
  exact Nat.lt_irrefl _ below

/-! ### The changed keys -/

/-- The array of changed keys is as long as the most keys a table may have, so it drops
none. -/
theorem mem_changedKeys {k : Nat} :
    k ∈ changedKeys D old new ↔
      k < D.keys ∧ (D.keydef k).ops.cmpRecRec old new ≠ 0 := by
  unfold changedKeys
  rw [List.take_of_length_le]
  · simp
  · calc
      _ ≤ (List.range D.keys).length := List.length_filter_le ..
      _ = D.keys := List.length_range
      _ ≤ fmMaxChangedKeys := D.keys_le

theorem changedKeys_nodup (D : ShareDef n) (old new : Rec n) :
    (changedKeys D old new).Nodup :=
  ((List.nodup_range).filter _).sublist (List.take_sublist ..)

end Fastmem
