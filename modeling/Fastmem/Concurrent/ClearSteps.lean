/-
The steps of a truncation.

A truncation holds the struct mutex throughout. It empties the chains first,
then kills the slots one by one under their locks, and only then rebuilds the
freelist. While it runs, rows that other threads still work on are live rows
whose slot lock they hold; a delete under way when it starts, or a delete that
starts while it runs, is what it cannot cope with.
-/

import Fastmem.Concurrent.FreeSteps

set_option autoImplicit false

namespace Fastmem

variable {n : Nat} {S : Setting n} {s : Core n} {g : Nat → Ghost n} {t idx : Nat}
  {v : MutexView} {cleared : Nat} {emptied : Nat → Nat → Bool}

/-- No delete is between its flip to DELETING and its push to the freelist. -/
def NoDeleteUnderWay (s : Core n) : Prop :=
  ∀ idx, (s.slot idx).state = .deleting ∨ (s.slot idx).state = .deleted →
    ∃ free, FreeList s.cell free ∧ idx ∈ free

namespace CoreInv

theorem noDeleters (inv : CoreInv S s g) (quiet : NoDeleteUnderWay s) (u idx : Nat) :
    (∀ img p, (g u).role ≠ .deleter idx img p) ∧ ∀ counted, (g u).role ≠ .retired idx counted := by
  obtain ⟨free, freeInv, _⟩ := inv.free
  have notOwned : (g u).role.slot = some idx →
      ¬ ((s.slot idx).state = .deleting ∨ (s.slot idx).state = .deleted) := by
    intro worksOn gone
    obtain ⟨free', freelist, member⟩ := quiet idx gone
    rw [← Threaded.unique freeInv.freelist freelist] at member
    exact (freeInv.unused idx member).2.2 u worksOn
  constructor
  · intro img p role
    exact notOwned (by rw [role]; rfl) (Or.inl ((inv.ok u).deleter role).1)
  · intro counted role
    exact notOwned (by rw [role]; rfl) (Or.inr ((inv.ok u).retired role))

theorem beginClear (inv : CoreInv S s g) (held : (g t).mutex.isSome = true)
    (idle : (g t).role = .idle) (unready : (g t).ready = none) (indistinct : ¬ S.distinct)
    (quiet : NoDeleteUnderWay s) :
    CoreInv S s (Function.update g t ((g t).become (.clearer 0 fun _ _ => false))) := by
  have nothing : ∀ roles : Nat → Role n,
      (∀ u c e, roles u = .clearer c e → e = fun _ _ => false) → ∀ k b, ¬ Emptied roles k b := by
    rintro roles all k b ⟨u, c, e, role, yes⟩
    rw [all u c e role] at yes
    cases yes
  refine inv.slotless (by rw [idle]; rfl) rfl unready
    ⟨held, fun i impossible => absurd impossible (Nat.not_lt_zero i)⟩
    (fun _ _ _ => inv.noDeleters quiet) ?_ ?_ (fun distinct => absurd distinct indistinct)
  · intro _ chain place chainInv k b i
    rw [chainInv.members]
    refine and_congr Iff.rfl (iff_of_true (nothing _ ?_ k b) (nothing _ ?_ k b))
    · intro u c e role
      change (g u).role = _ at role
      by_cases own : u = t
      · rw [own, idle] at role
        cases role
      · exact absurd role ((inv.mutexRoles held own).2 c e)
    · intro u c e role
      by_cases own : u = t
      · rw [own, Function.update_self] at role
        cases role
        rfl
      · rw [Function.update_of_ne own] at role
        exact absurd role ((inv.mutexRoles held own).2 c e)
  · intro uncleared
    exact absurd (Function.update_self ..) (uncleared t 0 fun _ _ => false)

/-- While a truncation runs, the other threads work on live rows at most. -/
theorem clearing_others (inv : CoreInv S s g) (role : (g t).role = .clearer cleared emptied)
    {u i : Nat} (worksOn : (g u).role.slot = some i) :
    (s.slot i).state = .active ∧ (g u).slots i = true := by
  have held := ((inv.ok t).clearer role).1
  have gone := inv.roles.clearing t cleared emptied role u i
  have other : u ≠ t := by
    rintro rfl
    rw [role] at worksOn
    cases worksOn
  have ok := inv.ok u
  cases now : (g u).role with
  | idle | published | clearer _ _ => rw [now] at worksOn; cases worksOn
  | live j =>
      rw [now] at worksOn
      cases worksOn
      exact ok.live now
  | fresh j => exact absurd (inv.mutexAlone held (ok.fresh now).2) other
  | chaining j rec p => exact absurd (inv.mutexAlone held (ok.chaining now).2.1) other
  | writer j old new odd copied =>
      rw [now] at worksOn
      cases worksOn
      exact ⟨(ok.writer now).1, (ok.writer now).2.1⟩
  | mover j old new p =>
      rw [now] at worksOn
      cases worksOn
      exact ⟨(ok.mover now).1, (ok.mover now).2.1⟩
  | deleter j img p =>
      rw [now] at worksOn
      cases worksOn
      exact absurd now (gone.1 img p)
  | retired j counted =>
      rw [now] at worksOn
      cases worksOn
      exact absurd now (gone.2 counted)

theorem endClear (inv : CoreInv S s g) (role : (g t).role = .clearer cleared emptied)
    (unready : (g t).ready = none) (all : s.slotCount ≤ cleared) :
    CoreInv S { s with records := 0 } (Function.update g t ((g t).become .idle)) := by
  have slotless : (g t).role.slot = none := by rw [role]; rfl
  have held := (inv.ok t).clearer role
  have dead : ∀ i, (s.slot i).state ≠ .active := by
    intro i active
    have below := inv.roles.active i active
    exact (held.2 i (by omega)).not_active active
  have nobody : ∀ u i, (rolesOf g u).slot ≠ some i := fun u i worksOn =>
    dead i (inv.clearing_others role worksOn).1
  refine inv.slotless slotless rfl unready trivial (fun c e clash => by cases clash) ?_ ?_
    (fun _ c e clash => by cases clash)
  · intro _ chain place chainInv k b i
    have unplaced : place k i = none := by
      rw [chainInv.others i (fun u p placed => nobody u i (Role.place_slot placed)) k]
      unfold Slot.home
      rw [if_neg (dead i)]
    rw [chainInv.members, unplaced]
    exact iff_of_false (fun impossible => by cases impossible.1)
      fun impossible => by cases impossible.1
  · intro _
    have nothing : {i | Counted s.slot (Function.update (rolesOf g) t .idle) i} = ∅ := by
      ext i
      rw [Set.mem_empty_iff_false, iff_false]
      intro counted
      rcases (counted_slotless slotless rfl).mp counted with active | ⟨u, img, p, now⟩ | ⟨u, now⟩
      · exact dead i active
      · exact nobody u i (by rw [now]; rfl)
      · exact nobody u i (by rw [now]; rfl)
    have pending : uncounted (Function.update (rolesOf g) t .idle) = 0 := by
      unfold uncounted
      rw [if_neg]
      rintro ⟨u, now⟩
      by_cases own : u = t
      · rw [own, Function.update_self] at now
        cases now
      · rw [Function.update_of_ne own] at now
        exact (inv.mutexRoles held.1 own).1 now
    rw [nothing, pending, Set.ncard_empty]
    rfl

/-! ### Emptying the chains -/

def emptyBucket (emptied : Nat → Nat → Bool) (k b : Nat) : Nat → Nat → Bool :=
  fun k' b' => if k' = k ∧ b' = b then true else emptied k' b'

theorem clearingRoles (inv : CoreInv S s g) (role : (g t).role = .clearer cleared emptied)
    (cleared' : Nat) (emptied' : Nat → Nat → Bool) :
    RoleInv s.slot s.slotCount
      (Function.update (rolesOf g) t (.clearer cleared' emptied')) := by
  have slotless : (rolesOf g t).slot = none := by
    change (g t).role.slot = none
    rw [role]
    rfl
  have others : ∀ {role' : Role n} {u}, role'.slot ≠ none →
      (Function.update (rolesOf g) t (.clearer cleared' emptied') u = role' ↔
        rolesOf g u = role') := role_slotless slotless rfl
  have worksOn : ∀ u i, (Function.update (rolesOf g) t (.clearer cleared' emptied') u).slot =
      some i → (rolesOf g u).slot = some i := by
    intro u i now
    by_cases own : u = t
    · rw [own, Function.update_self] at now
      cases now
    · rwa [Function.update_of_ne own] at now
  constructor
  · exact fun u v i atU atV => inv.roles.exclusive u v i (worksOn u i atU) (worksOn v i atV)
  · exact fun u i now => inv.roles.below u i (worksOn u i now)
  · intro i now
    obtain ⟨u, img, p, before⟩ := inv.roles.deleting i now
    exact ⟨u, img, p, (others (by simp [Role.slot])).mpr before⟩
  · intro i
    rw [inv.roles.parity i]
    exact exists_congr fun u => exists_congr fun old => exists_congr fun new =>
      exists_congr fun copied => (others (by simp [Role.slot])).symm
  · exact inv.roles.active
  · exact inv.roles.unallocated
  · intro _ _ _ _ w i
    have gone := inv.roles.clearing t cleared emptied role w i
    exact ⟨fun img p now => gone.1 img p ((others (by simp [Role.slot])).mp now),
      fun counted now => gone.2 counted ((others (by simp [Role.slot])).mp now)⟩

theorem clearStep (inv : CoreInv S s g) (role : (g t).role = .clearer cleared emptied)
    {slot' : Nat → Slot n} {cell' : Cell → Option Nat} {ghost' : Ghost n} {cleared' : Nat}
    {emptied' : Nat → Nat → Bool} (role' : ghost'.role = .clearer cleared' emptied')
    (holds : ∀ l, ghost'.holds l ↔ (g t).holds l) (mutex : ghost'.mutex = (g t).mutex)
    (seen : ghost'.seen = (g t).seen) (sameFree : SameFree s.cell cell')
    (roles : RoleInv slot' s.slotCount (Function.update (rolesOf g) t (.clearer cleared' emptied')))
    (dead : ∀ i, (s.slot i).state.unused → (slot' i).state.unused)
    (untouched : ∀ u i, (g u).role.slot = some i → slot' i = s.slot i)
    (done : ∀ i, i < cleared' → (slot' i).state.unused)
    (chains : S.linked → ∃ chain place,
      ChainInv S.D slot' cell' (Function.update (rolesOf g) t (.clearer cleared' emptied'))
        chain place ∧ ∀ u, KnownOk S.D cell' chain (Function.update g t ghost' u))
    (indistinct : ¬ S.distinct) :
    CoreInv S { s with slot := slot', cell := cell' } (Function.update g t ghost') := by
  have roleAt : rolesOf (Function.update g t ghost') =
      Function.update (rolesOf g) t (.clearer cleared' emptied') := by
    rw [rolesOf_update, role']
  have held := ((inv.ok t).clearer role).1
  have spare : ∀ {i}, Spare s.slot (s.chunkCnt * fmChunkSize) (rolesOf g) i →
      Spare slot' (s.chunkCnt * fmChunkSize)
        (Function.update (rolesOf g) t (.clearer cleared' emptied')) i := by
    intro i spare
    refine ⟨spare.1, dead i spare.2.1, fun u => ?_⟩
    by_cases own : u = t
    · rw [own, Function.update_self]
      exact fun clash => by cases clash
    · rw [Function.update_of_ne own]
      exact spare.2.2 u
  constructor
  · refine inv.locks.keep (Nat.le_refl _) holds ?_
    rw [seen]
    exact inv.locks.seen t
  · rw [roleAt]
    exact roles
  · refine forall_update (P := fun _ ghost => RoleOk S slot' ghost) ?_ fun u other => ?_
    · unfold RoleOk
      rw [role']
      exact ⟨by rw [mutex]; exact held, done⟩
    · refine (inv.ok u).frame (untouched u) fun c e now => ?_
      exact absurd now ((inv.mutexRoles held other).2 c e)
  · rw [roleAt]
    obtain ⟨free, freeInv, views⟩ := inv.free
    refine ⟨free, ⟨freeInv.freelist.same sameFree,
      fun i member => spare (freeInv.unused i member)⟩, ?_⟩
    have view : ∀ u w, (g u).mutex = some w → ViewOk slot' s.chunkCnt cell'
        (Function.update (rolesOf g) t (.clearer cleared' emptied')) free w := by
      intro u w found
      obtain ⟨list, count, spares, ready⟩ := views u w found
      refine ⟨list, count, fun i held => ⟨(spares i held).1, spare (spares i held).2⟩, ?_⟩
      intro i prepared
      rw [sameFree.1, sameFree.2 i]
      exact ready i prepared
    refine forall_update (P := fun _ ghost => ∀ w, ghost.mutex = some w → ViewOk slot'
      s.chunkCnt cell' (Function.update (rolesOf g) t (.clearer cleared' emptied')) free w) ?_
      fun u _ => view u
    rw [mutex]
    exact view t
  · rw [roleAt]
    exact chains
  · rw [roleAt]
    intro uncleared
    exact absurd (Function.update_self ..) (uncleared t cleared' emptied')
  · exact fun distinct => absurd distinct indistinct

theorem emptied_clearer (inv : CoreInv S s g) (role : (g t).role = .clearer cleared emptied)
    {cleared' : Nat} {emptied' : Nat → Nat → Bool} {k b : Nat} :
    Emptied (Function.update (rolesOf g) t (.clearer cleared' emptied')) k b ↔
      emptied' k b = true := by
  have held := ((inv.ok t).clearer role).1
  constructor
  · rintro ⟨u, c, e, now, yes⟩
    by_cases own : u = t
    · rw [own, Function.update_self] at now
      cases now
      exact yes
    · rw [Function.update_of_ne own] at now
      exact absurd now ((inv.mutexRoles held own).2 c e)
  · exact fun yes => ⟨t, cleared', emptied', Function.update_self .., yes⟩

theorem emptied_now (inv : CoreInv S s g) (role : (g t).role = .clearer cleared emptied)
    {k b : Nat} : Emptied (rolesOf g) k b ↔ emptied k b = true := by
  have same : Function.update (rolesOf g) t (.clearer cleared emptied) = rolesOf g := by
    rw [← role]
    exact Function.update_eq_self t (rolesOf g)
  rw [← same]
  exact inv.emptied_clearer role

/-- The places of the slots do not depend on how far a truncation is. -/
theorem clearing_place {D : ShareDef n} {roles : Nat → Role n}
    (before : (roles t).slot = none) {cleared' : Nat} {emptied' : Nat → Nat → Bool} (u : Nat) :
    (Function.update roles t (.clearer cleared' emptied') u).place D = (roles u).place D := by
  by_cases own : u = t
  · subst own
    rw [Function.update_self]
    exact (Role.place_none before).symm
  · rw [Function.update_of_ne own]

theorem storeEmpty (inv : CoreInv S s g) (role : (g t).role = .clearer cleared emptied)
    (indistinct : ¬ S.distinct) {k b : Nat}
    (held : (g t).holds (.bucket k b)) :
    CoreInv S (s.setCell (.head k b) none) (Function.update g t
      ((g t).rechained (.clearer cleared (emptyBucket emptied k b)) k b [])) := by
  have slotless : (rolesOf g t).slot = none := by
    change (g t).role.slot = none
    rw [role]
    rfl
  refine inv.clearStep role rfl (Ghost.rechained_holds _ [] held) rfl rfl ?_
    (inv.clearingRoles role _ _) (fun _ unused => unused) (fun _ _ _ => rfl)
    ((inv.ok t).clearer role).2 ?_ indistinct
  · exact ⟨Function.update_of_ne (by intro clash; cases clash) ..,
      fun i => Function.update_of_ne (by intro clash; cases clash) ..⟩
  · intro linked
    obtain ⟨chain, place, chainInv, knowns⟩ := inv.chains linked
    refine ⟨setChain chain k b [], place, ⟨chainInv.chains.storeEmpty k b, ?_, ?_, ?_⟩, ?_⟩
    · intro k' b' i
      rw [mem_setChain, inv.emptied_clearer role, chainInv.members, inv.emptied_now role]
      unfold emptyBucket
      by_cases here : k' = k ∧ b' = b
      · rw [if_pos here]
        simp [here]
      · rw [if_neg here]
        simp [here]
    · intro u i p now
      rw [clearing_place slotless] at now
      exact chainInv.owned u i p now
    · intro i nobody
      refine chainInv.others i fun u p now => nobody u p ?_
      rw [clearing_place slotless]
      exact now
    · refine forall_update (P := fun _ ghost => KnownOk S.D
        (Function.update s.cell (.head k b) none) (setChain chain k b []) ghost) ⟨?_, ?_⟩
        fun u other => ?_
      · intro k' b' found known'
        simp only [Ghost.rechained, Ghost.takeBucket] at known'
        unfold setChain
        split at known'
        · rename_i here
          rw [if_pos here]
          exact Option.some.inj known'
        · rename_i elsewhere
          rw [if_neg elsewhere]
          exact (knowns t).known k' b' found known'
      · intro k' b' impossible
        cases impossible
      · refine inv.knownOther chainInv held ?_ ?_ other (knowns u)
        · intro k' b' elsewhere
          refine ⟨?_, Function.update_of_ne ?_ ..⟩
          · unfold setChain
            rw [if_neg elsewhere]
          · intro clash
            cases clash
            exact elsewhere ⟨rfl, rfl⟩
        · intro k' j _
          exact Function.update_of_ne (by intro clash; cases clash) ..

/-! ### Killing the slots -/

theorem killSlot (inv : CoreInv S s g) (role : (g t).role = .clearer idx emptied)
    (unready : (g t).ready = none) (indistinct : ¬ S.distinct) (held : (g t).slots idx = true)
    (empty : S.linked → ∀ k, k < S.D.keys → ∀ b, b < (S.D.keydef k).nbuckets →
      emptied k b = true) :
    CoreInv S (s.setSlot idx { s.slot idx with state := .free })
      (Function.update g t ((g t).become (.clearer (idx + 1) emptied))) := by
  have slotless : (rolesOf g t).slot = none := by
    change (g t).role.slot = none
    rw [role]
    rfl
  have untouched : ∀ u i, (g u).role.slot = some i → i ≠ idx := by
    rintro u i worksOn rfl
    have theirs := (inv.clearing_others role worksOn).2
    have same := inv.locks.sole (l := .wlock i) held theirs
    subst same
    rw [role] at worksOn
    cases worksOn
  refine inv.clearStep role rfl (fun l => Ghost.become_holds (g t) _ l) rfl rfl
    (SameFree.refl _) ?_ ?_ ?_ ?_ ?_ indistinct
  · have before := inv.clearingRoles role (idx + 1) emptied
    refine ⟨before.exclusive, before.below, fun i now => ?_, fun i => ?_, fun i now => ?_,
      fun i above => ?_, before.clearing⟩
    · by_cases here : i = idx
      · subst here
        rw [Function.update_self] at now
        cases now
      · rw [Function.update_of_ne here] at now
        exact before.deleting i now
    · rw [← before.parity i]
      by_cases here : i = idx
      · subst here
        rw [Function.update_self]
      · rw [Function.update_of_ne here]
    · by_cases here : i = idx
      · subst here
        rw [Function.update_self] at now
        cases now
      · rw [Function.update_of_ne here] at now
        exact before.active i now
    · by_cases here : i = idx
      · subst here
        rw [Function.update_self]
      · rw [Function.update_of_ne here]
        exact before.unallocated i above
  · intro i unused
    by_cases here : i = idx
    · subst here
      rw [Function.update_self]
      exact Or.inl rfl
    · rw [Function.update_of_ne here]
      exact unused
  · exact fun u i worksOn => Function.update_of_ne (untouched u i worksOn) ..
  · intro i below
    by_cases here : i = idx
    · subst here
      rw [Function.update_self]
      exact Or.inl rfl
    · rw [Function.update_of_ne here]
      exact ((inv.ok t).clearer role).2 i (by omega)
  · intro linked
    obtain ⟨chain, place, chainInv, knowns⟩ := inv.chains linked
    have nobodyHere : ∀ u p, (rolesOf g u).place S.D ≠ some (idx, p) := fun u p placed =>
      untouched u idx (Role.place_slot placed) rfl
    -- the bucket of a live row has been emptied, so taking the row out changes no chain
    have outside : ∀ k b, ¬ (place k idx = some b ∧ ¬ Emptied (rolesOf g) k b) := by
      rintro k b ⟨placed, notEmptied⟩
      rw [chainInv.others idx nobodyHere k] at placed
      unfold Slot.home homeOf at placed
      split at placed
      · split at placed
        · rename_i valid
          cases placed
          exact notEmptied ((inv.emptied_now role).mpr
            (empty linked k valid _ (fmBucket_lt_nbuckets S.D k _)))
        · cases placed
      · cases placed
    refine ⟨chain, fun k i => if i = idx then none else place k i, ⟨chainInv.chains, ?_, ?_, ?_⟩, ?_⟩
    · intro k b i
      rw [inv.emptied_clearer role, chainInv.members, ← inv.emptied_now role]
      by_cases here : i = idx
      · subst here
        rw [if_pos rfl]
        exact iff_of_false (outside k b) fun impossible => by cases impossible.1
      · rw [if_neg here]
    · intro u i p now k
      rw [clearing_place slotless] at now
      rw [if_neg (untouched u i (Role.place_slot now))]
      exact chainInv.owned u i p now k
    · intro i nobody k
      by_cases here : i = idx
      · subst here
        rw [if_pos rfl, Function.update_self]
        rfl
      · rw [if_neg here, Function.update_of_ne here]
        refine chainInv.others i (fun u p now => nobody u p ?_) k
        rw [clearing_place slotless]
        exact now
    · refine forall_update (P := fun _ ghost => KnownOk S.D s.cell chain ghost)
        ⟨(knowns t).known, fun k b ready => ?_⟩ fun u _ => knowns u
      rw [show ((g t).become (.clearer (idx + 1) emptied)).ready = (g t).ready from rfl,
        unready] at ready
      cases ready

/-! ### The new freelist -/

theorem dropFree (inv : CoreInv S s g) (role : (g t).role = .clearer cleared emptied)
    (held : (g t).mutex = some v) (unready : (g t).ready = none)
    (all : v.count * fmChunkSize ≤ cleared) :
    CoreInv S (s.setCell .freeHead none) (Function.update g t ((g t).viewing (g t).role
      { v with free := [], spare := fun i => i < v.count * fmChunkSize, ready := none })) := by
  have counted := inv.viewCount held
  refine inv.refreeSame held ?_ unready ?_
  · exact ⟨fun k b => Function.update_of_ne (by intro clash; cases clash) ..,
      fun k i => Function.update_of_ne (by intro clash; cases clash) ..⟩
  · intro free freeInv view
    refine ⟨[], ⟨Function.update_self .., fun i member => by cases member⟩, rfl, view.count, ?_, ?_⟩
    · intro i below
      have unused : (s.slot i).state.unused :=
        ((inv.ok t).clearer role).2 i (Nat.lt_of_lt_of_le below all)
      refine ⟨List.not_mem_nil, by rw [counted]; exact below, unused, fun u worksOn => ?_⟩
      exact unused.not_active (inv.clearing_others role worksOn).1
    · intro i impossible
      cases impossible

end CoreInv

end Fastmem
