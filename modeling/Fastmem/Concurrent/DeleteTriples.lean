/-
Deletes under interference.

The flip to DELETING makes the row the deleter's own, whether it keeps the slot
lock or not; from then on nobody else writes the slot, and the image the deleter
copies is the one the row is chained by.
-/

import Fastmem.Concurrent.UpdateTriples

set_option autoImplicit false

namespace Fastmem

open Prog (perform iterate forEach foldEach)

variable {n : Nat}

namespace CoreTriple

variable {S : Setting n} {t : Nat} {kind : Bool} {promise : (coreProtocol S).Promise}
  {ghost : Ghost n} {idx : Nat} {expectGen : UInt32} {img : Rec n} {slots : Nat → Bool}
  {seen : Nat}

def FlipOpen (S : Setting n) (promise : (coreProtocol S).Promise) (idx : Nat) : Prop :=
  ∀ (s : Core n) (kinds : Nat → Bool) (g : Nat → Ghost n),
    promise (.storeState idx .deleting) s (fun u => (kinds u, g u)) →
    ∀ u cleared emptied, (g u).role ≠ .clearer cleared emptied

abbrev atRest (slots : Nat → Bool) (seen : Nat) (role : Role n) : Ghost n :=
  scope slots seen role (fun _ _ => none) (fun _ => none) none

theorem flip_triple (opens : FlipOpen S promise idx) :
    CoreTriple S t kind promise (atRest slots seen (.live idx))
      (perform (.storeState idx .deleting)) fun _ ghost' => ∃ img,
        ghost' = atRest slots seen (.deleter idx img (homeOf S.D img)) := by
  refine act rfl fun s kinds g result s' inv truncates mine kindIs promised ran => ?_
  cases ran
  refine ⟨_, inv.flip (t := t) (by rw [mine]; rfl) (by rw [mine]; rfl)
    (opens s kinds g promised), ?_, (s.slot idx).data, by rw [mine]; rfl⟩
  rintro ⟨c, e, clash⟩
  cases clash

theorem memcpyDeleting {p : Nat → Option Nat} (role : ghost.role = .deleter idx img p) :
    CoreTriple S t kind promise ghost (memcpyOut S.gran idx) fun scratch ghost' =>
      (S.linked → scratch = img) ∧ ghost' = ghost := by
  by_cases linked : S.linked
  · rw [S.whole linked]
    refine loadFact (n := n) (.loadData idx) trivial _ fun s kinds g result inv mine _ ran => ?_
    intro _
    cases ran
    subst mine
    exact (((inv.ok t).deleter role).2 linked).1
  · exact (memcpyOut_same S.gran).mono fun _ _ same => ⟨fun yes => absurd yes linked, same⟩

theorem deleter_ok {slot : Nat → Slot n} {p : Nat → Option Nat} {k : Nat}
    (role : ghost.role = .deleter idx img p) (ok : RoleOk S slot ghost) :
    RoleOk S slot (ghost.become (.deleter idx img (Function.update p k none))) := by
  obtain ⟨deleting, rest⟩ := ok.deleter role
  refine ⟨deleting, fun linked => ⟨(rest linked).1, fun k' b there => ?_⟩⟩
  by_cases same : k' = k
  · rw [same, Function.update_self] at there
    cases there
  · rw [Function.update_of_ne same] at there
    exact (rest linked).2 k' b there

theorem deleteKey_triple {p : Nat → Option Nat} {k b : Nat}
    (only : S.linked → p k = none ∨ p k = some b) :
    CoreTriple S t kind promise (atRest slots seen (.deleter idx img p))
      (do perform (.lock (.bucket k b)); let _ ← fmCoreChainUnlink k b idx
          perform (.unlock (.bucket k b))) fun _ ghost' =>
        ghost' = atRest slots seen (.deleter idx img (Function.update p k none)) := by
  refine Protocol.Triple.bind (lockBucket fun c e clash => (by cases clash)) ?_
  rintro _ _ ⟨items, rfl⟩
  refine Protocol.Triple.bind (unlink_triple (Role.movable_deleter S idx img) rfl
    (Ghost.takeBucket_known ..) only fun slot ok => deleter_ok rfl ok) ?_
  rintro _ _ ⟨items', rfl⟩
  refine (unlockBucket ?_ (fun c e clash => (by cases clash)) (fun _ => ?_) rfl).mono ?_
  · simp [Ghost.rechained, Ghost.takeBucket, Ghost.holds]
  · trivial
  rintro _ _ rfl
  refine dropBucket_eq (atRest slots seen .idle) rfl (fun k' b' different => ?_) rfl rfl rfl
    (fun _ _ => rfl) rfl rfl rfl
  exact (if_neg different).trans (if_neg different)

theorem unlinkKeys_triple (scratch : Rec n) (copied : S.linked → scratch = img) :
    CoreTriple S t kind promise (atRest slots seen (.deleter idx img (homeOf S.D img)))
      (forEach (List.range S.D.keys) fun k => do
        perform (.lock (.bucket k (fmCoreKeyBucket (S.D.keydef k) scratch)))
        let _ ← fmCoreChainUnlink k (fmCoreKeyBucket (S.D.keydef k) scratch) idx
        perform (.unlock (.bucket k (fmCoreKeyBucket (S.D.keydef k) scratch)))) fun _ ghost' =>
        ∃ p, (S.linked → ∀ k, p k = none) ∧ ghost' = atRest slots seen (.deleter idx img p) := by
  have unlinking : CoreTriple S t kind promise
      (atRest slots seen (.deleter idx img (homeOf S.D img)))
      (forEach (List.range S.D.keys) fun k => do
        perform (.lock (.bucket k (fmCoreKeyBucket (S.D.keydef k) scratch)))
        let _ ← fmCoreChainUnlink k (fmCoreKeyBucket (S.D.keydef k) scratch) idx
        perform (.unlock (.bucket k (fmCoreKeyBucket (S.D.keydef k) scratch)))) fun _ ghost' =>
        ([] : List Nat).Nodup ∧ (∀ k ∈ ([] : List Nat), k < S.D.keys) ∧ ∃ p,
          (S.linked → ∀ k, p k = if k ∈ ([] : List Nat) then homeOf S.D img k else none) ∧
          ghost' = atRest slots seen (.deleter idx img p) := by
    refine Protocol.Triple.forEach (P := coreProtocol S)
      (fun (left : List Nat) (ghost' : Ghost n) => left.Nodup ∧ (∀ k ∈ left, k < S.D.keys) ∧ ∃ p,
        (S.linked → ∀ k, p k = if k ∈ left then homeOf S.D img k else none) ∧
        ghost' = atRest slots seen (.deleter idx img p)) ?_ ?_
    · rintro k left _ ⟨distinct, valid, p, placed, rfl⟩
      refine (deleteKey_triple fun linked => ?_).mono ?_
      · right
        rw [placed linked k, if_pos (List.mem_cons_self ..), copied linked]
        exact if_pos (valid k (List.mem_cons_self ..))
      rintro _ _ rfl
      refine ⟨(List.nodup_cons.mp distinct).2,
        fun k' later => valid k' (List.mem_cons_of_mem k later), _, fun linked k' => ?_, rfl⟩
      by_cases same : k' = k
      · rw [same, Function.update_self, if_neg (List.nodup_cons.mp distinct).1]
      · rw [Function.update_of_ne same, placed linked k']
        simp only [List.mem_cons, same, false_or]
    · refine ⟨List.nodup_range, fun k member => List.mem_range.mp member, homeOf S.D img,
        fun _ k => ?_, rfl⟩
      unfold homeOf
      simp only [List.mem_range]
      split <;> rfl
  refine unlinking.mono ?_
  rintro _ _ ⟨_, _, p, placed, same⟩
  exact ⟨p, fun linked k => (placed linked k).trans (if_neg List.not_mem_nil), same⟩

theorem deleteTail_triple :
    CoreTriple S t kind promise (atRest slots seen (.deleter idx img (homeOf S.D img)))
      (deleteTail S.D S.gran idx) fun _ ghost' => ghost' = Ghost.rest slots seen := by
  refine Protocol.Triple.bind (memcpyDeleting rfl) ?_
  rintro scratch _ ⟨copied, rfl⟩
  refine Protocol.Triple.bind (unlinkKeys_triple scratch copied) ?_
  rintro _ _ ⟨p, unlinked, rfl⟩
  have retired : CoreTriple S t kind promise (atRest slots seen (.deleter idx img p))
      (perform (.storeState idx .deleted)) fun _ ghost' =>
        ghost' = atRest slots seen (.retired idx false) := by
    refine act ⟨img, p, rfl⟩ fun s kinds g result s' inv truncates mine kindIs promised ran => ?_
    cases ran
    have role : (g t).role = .deleter idx img p := by
      rw [mine]
      rfl
    refine ⟨_, inv.retire role (by rw [mine]; rfl) unlinked, ?_, by rw [mine]; rfl⟩
    rintro ⟨c, e, clash⟩
    cases clash
  refine Protocol.Triple.bind retired ?_
  rintro _ _ rfl
  have bumped : CoreTriple S t kind promise (atRest slots seen (.retired idx false))
      (perform (.bumpGen idx)) fun _ ghost' =>
        ghost' = atRest slots seen (.retired idx false) := by
    refine keep (Or.inl ⟨false, rfl⟩) fun s kinds g result s' inv mine promised ran => ?_
    cases ran
    exact ⟨inv.bumpGen idx, rfl⟩
  refine Protocol.Triple.bind bumped ?_
  rintro _ _ rfl
  have counted : CoreTriple S t kind promise (atRest slots seen (.retired idx false))
      (perform (.addRecords (-1))) fun _ ghost' =>
        ghost' = atRest slots seen (.retired idx true) := by
    refine act trivial fun s kinds g result s' inv truncates mine kindIs promised ran => ?_
    cases ran
    have role : (g t).role = .retired idx false := by
      rw [mine]
      rfl
    refine ⟨_, inv.countRetired role (by rw [mine]; rfl), ?_, by rw [mine]; rfl⟩
    rintro ⟨c, e, clash⟩
    cases clash
  refine Protocol.Triple.bind counted ?_
  rintro _ _ rfl
  refine Protocol.Triple.bind lockMutex ?_
  rintro _ _ ⟨free, count, rfl⟩
  refine Protocol.Triple.bind (freeOwn rfl rfl (Or.inr (Or.inl rfl))) ?_
  rintro _ _ rfl
  refine Protocol.Triple.bind (unlockMutex rfl (Or.inl rfl)) ?_
  rintro _ _ rfl
  exact Protocol.Triple.ret rfl

theorem deleteRow_triple (below : idx < seen) (opens : FlipOpen S promise idx) :
    CoreTriple S t kind promise (Ghost.rest slots seen)
      (fmCoreDeleteRow S.D S.gran idx expectGen) fun _ ghost' =>
        ghost' = Ghost.rest slots seen := by
  refine Protocol.Triple.bind (lockSlot (Or.inl below)) ?_
  rintro _ _ ⟨free, rfl⟩
  refine Protocol.Triple.bind (slotStale_live (Function.update_self ..) rfl rfl)
    fun stale ghost' outcome => ?_
  cases stale with
  | true =>
      obtain ⟨role, rfl, ended⟩ : ∃ role,
          ghost' = atRest (Function.update slots idx true) seen role ∧
          (role = .idle ∨ role.settled S.D S.linked idx) := by
        rcases outcome with rfl | ⟨_, rfl⟩
        · exact ⟨.live idx, rfl, Or.inr (Or.inl rfl)⟩
        · exact ⟨.idle, rfl, Or.inl rfl⟩
      refine Protocol.Triple.bind (unlockRow free ended) ?_
      rintro _ _ rfl
      exact Protocol.Triple.ret rfl
  | false =>
      obtain rfl | ⟨clash, _⟩ := outcome
      swap
      · cases clash
      refine Protocol.Triple.bind (flip_triple opens) ?_
      rintro _ _ ⟨img, rfl⟩
      have dropped : CoreTriple S t kind promise
          (atRest (Function.update slots idx true) seen (.deleter idx img (homeOf S.D img)))
          (perform (.unlock (.wlock idx))) fun _ ghost' =>
            ghost' = atRest slots seen (.deleter idx img (homeOf S.D img)) := by
        refine (unlockSlot (Function.update_self ..) fun clash => (by cases clash)).mono ?_
        rintro _ _ rfl
        unfold Ghost.dropSlot atRest scope
        congr 1
        rw [Function.update_idem, ← free]
        exact Function.update_eq_self ..
      refine Protocol.Triple.bind dropped ?_
      rintro _ _ rfl
      exact deleteTail_triple

theorem deleteRowLocked_triple (holds : slots idx = true) (opens : FlipOpen S promise idx) :
    CoreTriple S t kind promise (Ghost.rest slots seen)
      (fmCoreDeleteRowLocked S.D S.gran idx expectGen) fun _ ghost' => ∃ role,
        ghost' = (Ghost.rest slots seen).become role ∧
          (role = .idle ∨ role.settled S.D S.linked idx) := by
  refine Protocol.Triple.bind (slotStale_live holds rfl rfl) fun stale ghost' outcome => ?_
  cases stale with
  | true =>
      refine Protocol.Triple.ret ?_
      rcases outcome with rfl | ⟨_, rfl⟩
      · exact ⟨.live idx, rfl, Or.inr (Or.inl rfl)⟩
      · exact ⟨.idle, rfl, Or.inl rfl⟩
  | false =>
      obtain rfl | ⟨clash, _⟩ := outcome
      swap
      · cases clash
      refine Protocol.Triple.bind (flip_triple opens) ?_
      rintro _ _ ⟨img, rfl⟩
      refine deleteTail_triple.mono ?_
      rintro _ _ rfl
      exact ⟨.idle, rfl, Or.inl rfl⟩

end CoreTriple

end Fastmem
