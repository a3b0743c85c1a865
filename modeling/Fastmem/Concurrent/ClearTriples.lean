/-
A truncation under interference.

It holds the struct mutex throughout, so no insert runs. It empties the buckets
one by one, then takes every slot away from whoever still has a row there. The
result rests on no delete being under way and on nobody linking a row into a
bucket that has been emptied.
-/

import Fastmem.Concurrent.DeleteTriples

set_option autoImplicit false

namespace Fastmem

open Prog (perform iterate forEach foldEach)

variable {n : Nat}

namespace CoreTriple

variable {S : Setting n} {t : Nat} {promise : (coreProtocol S).Promise} {slots : Nat → Bool}
  {seen : Nat} {v : MutexView} {cleared : Nat} {emptied : Nat → Nat → Bool}

def ClearOpen (S : Setting n) (promise : (coreProtocol S).Promise) : Prop :=
  ∀ (s : Core n) (kinds : Nat → Bool) (g : Nat → Ghost n),
    promise (.lock .structMutex) s (fun u => (kinds u, g u)) → NoDeleteUnderWay s

def clearGhost (slots : Nat → Bool) (seen : Nat) (v : MutexView) (cleared : Nat)
    (emptied : Nat → Nat → Bool) : Ghost n :=
  (Ghost.rest slots seen).viewing (.clearer cleared emptied) v

theorem lockClear (opens : ClearOpen S promise) (indistinct : ¬ S.distinct) :
    CoreTriple S t true promise (Ghost.rest slots seen) (perform (.lock .structMutex))
      fun _ ghost' => ∃ free count,
        ghost' = clearGhost slots seen (MutexView.start free count) 0 fun _ _ => false := by
  refine act trivial fun s kinds g result s' inv truncates mine kindIs promised ran => ?_
  have quiet := opens s kinds g promised
  cases owner : s.owner .structMutex with
  | some u =>
      simp only [Act.exec, owner] at ran
      cases ran
  | none =>
      simp only [Act.exec, owner] at ran
      cases ran
      obtain ⟨free, locked⟩ := inv.lockMutex (t := t) owner
      have now : Function.update g t ((g t).takeMutex (MutexView.start free s.chunkCnt)) t =
          (Ghost.rest slots seen).takeMutex (MutexView.start free s.chunkCnt) := by
        rw [Function.update_self, mine]
      have begun := locked.beginClear (t := t) (by rw [now]; rfl) (by rw [now]; rfl)
        (by rw [now]; rfl) indistinct quiet
      rw [now, Function.update_idem] at begun
      exact ⟨_, begun, fun _ => rfl, free, s.chunkCnt, rfl⟩

/-! ### Emptying the buckets -/

/-- The buckets before `(k, b)` are emptied, and no other. -/
def EmptiedTo (D : ShareDef n) (emptied : Nat → Nat → Bool) (k b : Nat) : Prop :=
  (∀ k' b', emptied k' b' = true → bucketBefore k' b' k b) ∧
    (∀ k' b', k' < k → b' < (D.keydef k').nbuckets → emptied k' b' = true) ∧
    ∀ b', b' < b → emptied k b' = true

theorem clearBucket_triple {k b : Nat} (indistinct : ¬ S.distinct)
    (upTo : EmptiedTo S.D emptied k b) :
    CoreTriple S t true promise (clearGhost slots seen v 0 emptied)
      (do perform (.lock (.bucket k b)); perform (.storeCell (.head k b) none)
          perform (.unlock (.bucket k b))) fun _ ghost' => ∃ emptied',
        EmptiedTo S.D emptied' k (b + 1) ∧ ghost' = clearGhost slots seen v 0 emptied' := by
  have before : (Role.clearer (n := n) 0 emptied).emptiedBefore k b := by
    intro c e same
    cases same
    exact upTo.1
  refine Protocol.Triple.bind (lockBucket before) ?_
  rintro _ _ ⟨items, rfl⟩
  have held : ((clearGhost slots seen v 0 emptied : Ghost n).takeBucket k b items).holds
      (.bucket k b) := by
    simp [Ghost.takeBucket, Ghost.holds]
  have stored : CoreTriple S t true promise
      ((clearGhost slots seen v 0 emptied : Ghost n).takeBucket k b items)
      (perform (.storeCell (.head k b) none)) fun _ ghost' =>
        ghost' = ((clearGhost slots seen v 0 emptied : Ghost n).takeBucket k b items).rechained
          (.clearer 0 (CoreInv.emptyBucket emptied k b)) k b [] := by
    refine act before fun s kinds g result s' inv truncates mine kindIs promised ran => ?_
    cases ran
    have role : (g t).role = .clearer 0 emptied := by
      rw [mine]
      rfl
    refine ⟨_, inv.storeEmpty role indistinct (by rw [mine]; exact held), fun _ => rfl, ?_⟩
    rw [mine]
  refine Protocol.Triple.bind stored ?_
  rintro _ _ rfl
  have upToNow : (Role.clearer (n := n) 0 (CoreInv.emptyBucket emptied k b)).emptiedUpTo k b := by
    intro c e same k' b' isEmptied after
    cases same
    unfold CoreInv.emptyBucket at isEmptied
    split at isEmptied
    · rename_i now
      rw [now.1, now.2] at after
      rcases after with less | ⟨_, less⟩ <;> exact Nat.lt_irrefl _ less
    · have earlier := upTo.1 k' b' isEmptied
      unfold bucketBefore at earlier after
      omega
  refine (unlockBucket ((Ghost.rechained_holds _ _ held _).mpr held) upToNow
    (fun _ => trivial) rfl).mono ?_
  rintro _ _ rfl
  refine ⟨CoreInv.emptyBucket emptied k b, ⟨?_, ?_, ?_⟩, ?_⟩
  · intro k' b' isEmptied
    unfold CoreInv.emptyBucket at isEmptied
    split at isEmptied
    · rename_i now
      exact Or.inr ⟨now.1, by omega⟩
    · have earlier := upTo.1 k' b' isEmptied
      unfold bucketBefore at earlier ⊢
      omega
  · intro k' b' less valid
    unfold CoreInv.emptyBucket
    split
    · rfl
    · exact upTo.2.1 k' b' less valid
  · intro b' less
    unfold CoreInv.emptyBucket
    split
    · rfl
    · rename_i other
      exact upTo.2.2 b' (by omega)
  · refine dropBucket_eq ((Ghost.rest slots seen).takeMutex v) rfl (fun k' b' different => ?_) rfl
      rfl rfl (fun _ _ => rfl) rfl rfl rfl
    exact (if_neg different).trans (if_neg different)

theorem clearBuckets_triple (indistinct : ¬ S.distinct) :
    CoreTriple S t true promise (clearGhost slots seen v 0 fun _ _ => false) (clearBuckets S.D)
      fun _ ghost' => ∃ emptied, EmptiedTo S.D emptied S.D.keys 0 ∧
        ghost' = clearGhost slots seen v 0 emptied := by
  refine Protocol.Triple.forRange (P := coreProtocol S) (fun k (ghost' : Ghost n) => ∃ emptied,
    EmptiedTo S.D emptied k 0 ∧ ghost' = clearGhost slots seen v 0 emptied) ?_ ?_
  · rintro k _ _ ⟨emptied, upTo, rfl⟩
    refine (Protocol.Triple.forRange (P := coreProtocol S) (fun b (ghost' : Ghost n) => ∃ emptied,
      EmptiedTo S.D emptied k b ∧ ghost' = clearGhost slots seen v 0 emptied) ?_
      ⟨emptied, upTo, rfl⟩).mono ?_
    · rintro b _ _ ⟨emptied, upTo, rfl⟩
      exact clearBucket_triple indistinct upTo
    · rintro _ _ ⟨emptied, ⟨before, lower, row⟩, rfl⟩
      refine ⟨emptied, ⟨fun k' b' isEmptied => ?_, fun k' b' less valid => ?_,
        fun b' less => absurd less (Nat.not_lt_zero b')⟩, rfl⟩
      · have earlier := before k' b' isEmptied
        unfold bucketBefore at earlier ⊢
        omega
      · rcases Nat.lt_succ_iff_lt_or_eq.mp less with less | rfl
        · exact lower k' b' less valid
        · exact row b' valid
  · refine ⟨fun _ _ => false, ⟨fun _ _ clash => (by cases clash), ?_, ?_⟩, rfl⟩
    · exact fun _ _ less => absurd less (Nat.not_lt_zero _)
    · exact fun _ less => absurd less (Nat.not_lt_zero _)

/-! ### Taking the slots -/

theorem clearSlot_triple {i : Nat} (indistinct : ¬ S.distinct) (below : i < v.count * fmChunkSize)
    (all : EmptiedTo S.D emptied S.D.keys 0) :
    CoreTriple S t true promise (clearGhost slots seen v i emptied)
      (do perform (.lock (.wlock i)); perform (.storeState i .free); perform (.bumpGen i)
          perform (.unlock (.wlock i))) fun _ ghost' =>
        ghost' = clearGhost slots seen v (i + 1) emptied := by
  refine Protocol.Triple.bind (lockSlot (Or.inr ⟨v, rfl, below⟩)) ?_
  rintro _ _ ⟨free, rfl⟩
  have held : ((clearGhost slots seen v i emptied : Ghost n).takeSlot i).slots i = true :=
    Function.update_self ..
  have killed : CoreTriple S t true promise
      ((clearGhost slots seen v i emptied : Ghost n).takeSlot i)
      (perform (.storeState i .free)) fun _ ghost' =>
        ghost' = (clearGhost slots seen v (i + 1) emptied).takeSlot i := by
    refine act ⟨⟨emptied, rfl⟩, held⟩
      fun s kinds g result s' inv truncates mine kindIs promised ran => ?_
    cases ran
    have role : (g t).role = .clearer i emptied := by
      rw [mine]
      rfl
    refine ⟨_, inv.killSlot role (by rw [mine]; rfl) indistinct (by rw [mine]; exact held)
      (fun _ k valid b => all.2.1 k b valid), fun _ => rfl, ?_⟩
    rw [mine]
    rfl
  refine Protocol.Triple.bind killed ?_
  rintro _ _ rfl
  have bumped : CoreTriple S t true promise
      ((clearGhost slots seen v (i + 1) emptied : Ghost n).takeSlot i)
      (perform (.bumpGen i)) fun _ ghost' =>
        ghost' = (clearGhost slots seen v (i + 1) emptied).takeSlot i := by
    refine keep (Or.inr ⟨⟨i + 1, emptied, rfl⟩, held⟩)
      fun s kinds g result s' inv mine promised ran => ?_
    cases ran
    exact ⟨inv.bumpGen i, rfl⟩
  refine Protocol.Triple.bind bumped ?_
  rintro _ _ rfl
  have heldNow : ((clearGhost slots seen v (i + 1) emptied : Ghost n).takeSlot i).slots i = true :=
    held
  refine (unlockSlot heldNow fun clash => (by cases clash)).mono ?_
  rintro _ _ rfl
  have restored : Function.update (Function.update slots i true) i false = slots := by
    rw [Function.update_idem, ← show slots i = false from free, Function.update_eq_self]
  unfold Ghost.dropSlot Ghost.takeSlot clearGhost Ghost.viewing Ghost.rest
  congr 1

theorem clearSlots_triple (indistinct : ¬ S.distinct) (all : EmptiedTo S.D emptied S.D.keys 0) :
    CoreTriple S t true promise (clearGhost slots seen v 0 emptied)
      (clearSlots (v.count * fmChunkSize)) fun _ ghost' =>
        ghost' = clearGhost slots seen v (v.count * fmChunkSize) emptied := by
  refine Protocol.Triple.forRange (P := coreProtocol S)
    (fun i (ghost' : Ghost n) => ghost' = clearGhost slots seen v i emptied) ?_ rfl
  rintro i _ below rfl
  exact clearSlot_triple indistinct below all

theorem refill_triple {spare : Nat → Prop} {total : Nat}
    (all : ∀ i, i < total → spare i) :
    CoreTriple S t true promise
      (clearGhost slots seen ⟨[], v.count, spare, none⟩ cleared emptied)
      (forEach (List.range total) fmCoreFreeSlot) fun _ ghost' => ∃ w : MutexView,
        w.count = v.count ∧ ghost' = clearGhost slots seen w cleared emptied := by
  have pushing : CoreTriple S t true promise
      (clearGhost slots seen ⟨[], v.count, spare, none⟩ cleared emptied)
      (forEach (List.range total) fmCoreFreeSlot) fun _ ghost' => ∃ w : MutexView,
        w.count = v.count ∧ (∀ j, total ≤ j → j < total → w.spare j) ∧
        ghost' = clearGhost slots seen w cleared emptied := by
    refine Protocol.Triple.forRange (P := coreProtocol S) (fun i (ghost' : Ghost n) =>
      ∃ w : MutexView, w.count = v.count ∧ (∀ j, i ≤ j → j < total → w.spare j) ∧
      ghost' = clearGhost slots seen w cleared emptied) ?_
      ⟨⟨[], v.count, spare, none⟩, rfl, fun j _ below => all j below, rfl⟩
    rintro i _ below ⟨w, count, spare, rfl⟩
    have pushed : CoreTriple S t true promise (clearGhost slots seen w cleared emptied)
        (fmCoreFreeSlot i) _ := freeSpare rfl rfl (spare i (Nat.le_refl i) below)
    refine pushed.mono ?_
    rintro _ _ rfl
    refine ⟨{ w with free := i :: w.free, spare := fun j => w.spare j ∧ j ≠ i, ready := none },
      count, fun j later less => ?_, rfl⟩
    exact ⟨spare j (by omega) less, by omega⟩
  refine pushing.mono ?_
  rintro _ _ ⟨w, count, _, same⟩
  exact ⟨w, count, same⟩

theorem clear_triple (opens : ClearOpen S promise) (indistinct : ¬ S.distinct) :
    CoreTriple S t true promise (Ghost.rest slots seen) (fmCoreClear S.D) fun _ ghost' =>
      ghost' = Ghost.rest slots seen := by
  refine Protocol.Triple.bind (lockClear opens indistinct) ?_
  rintro _ _ ⟨free, count, rfl⟩
  refine Protocol.Triple.bind (clearBuckets_triple indistinct) ?_
  rintro _ _ ⟨emptied, all, rfl⟩
  refine Protocol.Triple.bind (loadCount rfl) ?_
  rintro count _ ⟨rfl, rfl⟩
  refine Protocol.Triple.bind (clearSlots_triple indistinct all) ?_
  rintro _ _ rfl
  have dropped : CoreTriple S t true promise (clearGhost slots seen (MutexView.start free count)
      (count * fmChunkSize) emptied) (perform (.storeCell .freeHead none)) fun _ ghost' =>
        ghost' = clearGhost slots seen ⟨[], count, fun i => i < count * fmChunkSize, none⟩
          (count * fmChunkSize) emptied := by
    refine act trivial fun s kinds g result s' inv truncates mine kindIs promised ran => ?_
    cases ran
    have role : (g t).role = .clearer (count * fmChunkSize) emptied := by
      rw [mine]
      rfl
    have held : (g t).mutex = some (MutexView.start free count) := by
      rw [mine]
      rfl
    refine ⟨_, inv.dropFree role held (by rw [mine]; rfl) (Nat.le_refl _), fun _ => rfl, ?_⟩
    rw [mine]
    rfl
  refine Protocol.Triple.bind dropped ?_
  rintro _ _ rfl
  have refilled : CoreTriple S t true promise (clearGhost slots seen
      ⟨[], (MutexView.start free count).count, fun i => i < count * fmChunkSize, none⟩
      (count * fmChunkSize) emptied)
      (forEach (List.range (count * fmChunkSize)) fmCoreFreeSlot) _ :=
    refill_triple fun _ below => below
  refine Protocol.Triple.bind refilled ?_
  rintro _ _ ⟨w, sameCount, rfl⟩
  have ended : CoreTriple S t true promise
      (clearGhost slots seen w (count * fmChunkSize) emptied) (perform (.storeRecords 0))
      fun _ ghost' => ghost' = (Ghost.rest slots seen).viewing .idle w := by
    refine act trivial fun s kinds g result s' inv truncates mine kindIs promised ran => ?_
    cases ran
    have role : (g t).role = .clearer (count * fmChunkSize) emptied := by
      rw [mine]
      rfl
    have held : (g t).mutex = some w := by
      rw [mine]
      rfl
    have total : s.slotCount ≤ count * fmChunkSize := by
      unfold Core.slotCount
      rw [inv.viewCount held, sameCount]
      exact Nat.le_refl _
    refine ⟨_, inv.endClear role (by rw [mine]; rfl) total, fun _ => rfl, ?_⟩
    rw [mine]
    rfl
  refine Protocol.Triple.bind ended ?_
  rintro _ _ rfl
  refine (unlockMutex rfl (Or.inl rfl)).mono ?_
  rintro _ _ rfl
  rfl

end CoreTriple

end Fastmem
