/-
Steps of the holder of the struct mutex on the freelist, and the growth of the
share by a chunk.

The holder knows the freelist and the slots that belong to nobody. Popping the
head makes the slot its own, a push needs two stores like a link into a chain,
and a new chunk brings slots that nobody has ever used.
-/

import Fastmem.Concurrent.ChainSteps

set_option autoImplicit false

namespace Fastmem

variable {n : Nat} {S : Setting n} {s : Core n} {g : Nat → Ghost n} {t idx : Nat}
  {v v' : MutexView}

namespace Ghost

def viewing (ghost : Ghost n) (role : Role n) (v : MutexView) : Ghost n :=
  { ghost with role := role, mutex := some v }

theorem viewing_holds {ghost : Ghost n} (held : ghost.mutex = some v) (role : Role n)
    (v' : MutexView) (l : Lock) : (ghost.viewing role v').holds l ↔ ghost.holds l := by
  cases l with
  | structMutex => exact iff_of_true rfl (by
      change ghost.mutex.isSome = true
      rw [held]
      rfl)
  | wlock i => exact Iff.rfl
  | bucket k b => exact Iff.rfl

end Ghost

namespace CoreInv

/-! ### What the holder of the struct mutex reads -/

theorem viewHead (inv : CoreInv S s g) (held : (g t).mutex = some v) :
    s.cell .freeHead = v.free.head? := by
  obtain ⟨free, freeInv, views⟩ := inv.free
  rw [(views t v held).list]
  exact freeInv.freelist.head_eq

theorem viewNext (inv : CoreInv S s g) (held : (g t).mutex = some v) {rest : List Nat}
    (nonempty : v.free = idx :: rest) : s.cell (.freeNext idx) = rest.head? := by
  obtain ⟨free, freeInv, views⟩ := inv.free
  have threaded := freeInv.freelist
  rw [← (views t v held).list, nonempty] at threaded
  exact threaded.2.head_eq

theorem viewCount (inv : CoreInv S s g) (held : (g t).mutex = some v) : s.chunkCnt = v.count := by
  obtain ⟨free, _, views⟩ := inv.free
  exact (views t v held).count.symm

/-! ### The general step -/

theorem refree (inv : CoreInv S s g) (held : (g t).mutex = some v)
    {cell' : Cell → Option Nat} {role' : Role n} (sameChains : SameChains s.cell cell')
    (unready : (g t).ready = none)
    (roles : RoleInv s.slot s.slotCount (Function.update (rolesOf g) t role'))
    (ok : RoleOk S s.slot ((g t).viewing role' v'))
    (free : ∀ free, FreeInv s.slot s.chunkCnt s.cell (rolesOf g) free →
      ViewOk s.slot s.chunkCnt s.cell (rolesOf g) free v → ∃ free',
        FreeInv s.slot s.chunkCnt cell' (Function.update (rolesOf g) t role') free' ∧
        ViewOk s.slot s.chunkCnt cell' (Function.update (rolesOf g) t role') free' v')
    (chains : S.linked → ∀ chain place, ChainInv S.D s.slot s.cell (rolesOf g) chain place →
      ChainInv S.D s.slot s.cell (Function.update (rolesOf g) t role') chain place)
    (count : CountInv s.slot s.records (Function.update (rolesOf g) t role'))
    (unique : S.distinct → UniqueInv S.D s.slot (Function.update (rolesOf g) t role') ∧
      ∀ u, CheckedOk S.D s.slot (Function.update (rolesOf g) t role') (g u)) :
    CoreInv S { s with cell := cell' } (Function.update g t ((g t).viewing role' v')) := by
  have roleAt : rolesOf (Function.update g t ((g t).viewing role' v')) =
      Function.update (rolesOf g) t role' := rolesOf_update g t _
  constructor
  · exact inv.locks.keep (Nat.le_refl _) (Ghost.viewing_holds held role' v') (inv.locks.seen t)
  · rw [roleAt]
    exact roles
  · exact forall_update (P := fun _ ghost => RoleOk S s.slot ghost) ok fun u _ => inv.ok u
  · rw [roleAt]
    obtain ⟨old, freeInv, views⟩ := inv.free
    obtain ⟨new, freeInv', view'⟩ := free old freeInv (views t v held)
    refine ⟨new, freeInv', forall_update (P := fun _ ghost => ∀ w, ghost.mutex = some w →
      ViewOk s.slot s.chunkCnt cell' (Function.update (rolesOf g) t role') new w) ?_ ?_⟩
    · intro w same
      cases same
      exact view'
    · intro u other w theirs
      have mine : (g t).mutex.isSome = true := by rw [held]; rfl
      exact absurd (inv.mutexAlone mine (by rw [theirs]; rfl)) other
  · intro linked
    rw [roleAt]
    obtain ⟨chain, place, chainInv, knowns⟩ := inv.chains linked
    have framed := chains linked chain place chainInv
    refine ⟨chain, place, ⟨framed.chains.frame sameChains.1 sameChains.2, framed.members,
      framed.owned, framed.others⟩, ?_⟩
    have known : ∀ u, KnownOk S.D cell' chain (g u) := by
      intro u
      refine ⟨(knowns u).known, fun k b ready => ?_⟩
      obtain ⟨mine, i, p, placed, none, same⟩ := (knowns u).ready k b ready
      refine ⟨mine, i, p, placed, none, ?_⟩
      rw [sameChains.1, sameChains.2]
      exact same
    refine forall_update (P := fun _ ghost => KnownOk S.D cell' chain ghost)
      ⟨(known t).known, ?_⟩ fun u _ => known u
    intro k b ready
    rw [show ((g t).viewing role' v').ready = (g t).ready from rfl, unready] at ready
    cases ready
  · rw [roleAt]
    exact count
  · intro distinct
    rw [roleAt]
    obtain ⟨uniqueInv, checks⟩ := unique distinct
    exact ⟨uniqueInv, forall_update (P := fun _ ghost => CheckedOk S.D s.slot
      (Function.update (rolesOf g) t role') ghost)
      ⟨fun k rec self found =>
          ⟨(Ghost.viewing_holds held role' v' _).mpr ((checks t).clean k rec self found).1,
            ((checks t).clean k rec self found).2⟩,
        fun k rec self items found =>
          ⟨(Ghost.viewing_holds held role' v' _).mpr ((checks t).passed k rec self items found).1,
            ((checks t).passed k rec self items found).2⟩⟩ fun u _ => checks u⟩

theorem refreeSame (inv : CoreInv S s g) (held : (g t).mutex = some v)
    {cell' : Cell → Option Nat} (sameChains : SameChains s.cell cell')
    (unready : (g t).ready = none)
    (free : ∀ free, FreeInv s.slot s.chunkCnt s.cell (rolesOf g) free →
      ViewOk s.slot s.chunkCnt s.cell (rolesOf g) free v → ∃ free',
        FreeInv s.slot s.chunkCnt cell' (rolesOf g) free' ∧
        ViewOk s.slot s.chunkCnt cell' (rolesOf g) free' v') :
    CoreInv S { s with cell := cell' }
      (Function.update g t ((g t).viewing (g t).role v')) := by
  have same : Function.update (rolesOf g) t (g t).role = rolesOf g :=
    Function.update_eq_self t (rolesOf g)
  refine inv.refree held sameChains unready ?_ ?_ ?_ ?_ ?_ ?_
  · rw [same]
    exact inv.roles
  · exact (inv.ok t).mono rfl fun l => (Ghost.viewing_holds held _ v' l).mpr
  · rw [same]
    exact free
  · rw [same]
    exact fun _ _ _ chainInv => chainInv
  · rw [same]
    exact inv.count
  · rw [same]
    exact inv.unique

theorem refreeOwn (inv : CoreInv S s g) (held : (g t).mutex = some v)
    {cell' : Cell → Option Nat} {role' : Role n} (sameChains : SameChains s.cell cell')
    (unready : (g t).ready = none) (mine : Mine s.slotCount (rolesOf g) t idx)
    (stays : role'.Stays idx) (dead : (s.slot idx).state.unused)
    (before : (g t).role.weight (s.slot idx) = 0 ∧ (g t).role.pending = 0 ∧
      ∀ i old new copied, (g t).role ≠ .writer i old new true copied)
    (after : role' = .idle ∨ role' = .fresh idx)
    (loose : S.linked → ∀ k, (g t).role.chained S.D (s.slot idx) k = none)
    (free : ∀ free, FreeInv s.slot s.chunkCnt s.cell (rolesOf g) free →
      ViewOk s.slot s.chunkCnt s.cell (rolesOf g) free v → ∃ free',
        FreeInv s.slot s.chunkCnt cell' (Function.update (rolesOf g) t role') free' ∧
        ViewOk s.slot s.chunkCnt cell' (Function.update (rolesOf g) t role') free' v') :
    CoreInv S { s with cell := cell' } (Function.update g t ((g t).viewing role' v')) := by
  have slotSame : Function.update s.slot idx (s.slot idx) = s.slot :=
    Function.update_eq_self idx s.slot
  have notActive := dead.not_active
  have pendingZero : role'.pending = 0 := by
    rcases after with rfl | rfl <;> rfl
  refine inv.refree held sameChains unready ?_ ?_ free ?_ ?_ ?_
  · rw [← slotSame]
    refine inv.roles.ownSlot mine stays (fun now => absurd now dead.not_deleting) ?_ ?_
    · rw [inv.parityOwn mine]
      constructor
      · rintro ⟨old, new, copied, role⟩
        exact absurd role (before.2.2 idx old new copied)
      · rintro ⟨old, new, copied, role⟩
        rcases after with rfl | rfl <;> cases role
    · rintro (⟨img, p, role⟩ | ⟨c, role⟩) <;> rcases after with rfl | rfl <;> cases role
  · rcases after with rfl | rfl
    · trivial
    · exact ⟨dead, rfl⟩
  · intro linked chain place chainInv
    rw [← slotSame]
    refine chainInv.ownSlot mine stays fun k => ?_
    change _ = (g t).role.chained S.D (s.slot idx) k
    rw [loose linked k]
    rcases after with rfl | rfl
    · unfold Role.chained Slot.home
      simp [Role.place, notActive]
    · rfl
  · rw [← slotSame]
    refine inv.count.ownSlot inv.roles mine stays ?_
    rw [slotSame, weight_own mine]
    have afterWeight : weight s.slot (Function.update (rolesOf g) t role') idx =
        role'.weight (s.slot idx) := by
      rw [weight_own (mine.update stays), Function.update_self]
    have quiet : (rolesOf g t).pending = 0 := before.2.1
    rw [afterWeight, uncounted_update fun pending => by
      rw [quiet, pendingZero] at pending
      exact absurd rfl pending, quiet, pendingZero]
    change _ + _ + (g t).role.weight (s.slot idx) = _
    rw [before.1]
    rcases after with rfl | rfl <;> simp [Role.weight, notActive]
  · intro distinct
    rw [← slotSame]
    refine inv.uniqueShrink mine stays ?_ distinct
    rintro k a _ (⟨active, _⟩ | ⟨p, role, _⟩)
    · exact absurd active notActive
    · rcases after with rfl | rfl <;> cases role

/-! ### Pop and push -/

theorem pop (inv : CoreInv S s g) (held : (g t).mutex = some v) {rest : List Nat}
    (nonempty : v.free = idx :: rest) (idle : (g t).role = .idle) (unready : (g t).ready = none)
    (unprepared : v.ready = none) :
    CoreInv S (s.setCell .freeHead rest.head?)
      (Function.update g t ((g t).viewing (.fresh idx) { v with free := rest })) := by
  obtain ⟨free, freeInv, views⟩ := inv.free
  have list := (views t v held).list
  rw [nonempty] at list
  have spare := freeInv.unused idx (by rw [← list]; exact List.mem_cons_self ..)
  have stays : (Role.fresh idx : Role n).Stays idx := Role.stays_of_slot rfl
  have mine : Mine s.slotCount (rolesOf g) t idx := by
    refine ⟨fun u worksOn => absurd worksOn (spare.2.2 u), fun i worksOn => ?_, spare.1, ?_⟩
    · change (g t).role.slot = _ at worksOn
      rw [idle] at worksOn
      cases worksOn
    · intro c e clash
      change (g t).role = _ at clash
      rw [idle] at clash
      cases clash
  refine inv.refreeOwn held ?_ unready mine stays spare.2.1 ?_ (Or.inr rfl) ?_ ?_
  · exact ⟨fun k b => Function.update_of_ne (by intro clash; cases clash) ..,
      fun k i => Function.update_of_ne (by intro clash; cases clash) ..⟩
  · rw [idle]
    refine ⟨?_, rfl, fun i old new copied clash => by cases clash⟩
    unfold Role.weight
    rw [if_neg spare.2.1.not_active]
  · intro _ k
    rw [idle]
    unfold Role.chained Slot.home
    simp [Role.place, spare.2.1.not_active]
  · intro free' freeInv' view
    have list' := view.list
    rw [nonempty] at list'
    subst list'
    have threaded : Threaded s.cell Cell.freeNext (.freeNext idx) rest := freeInv'.freelist.2
    have distinct := freeInv'.freelist.nodup
    rw [List.nodup_cons] at distinct
    have still : ∀ i, i ≠ idx → Spare s.slot (s.chunkCnt * fmChunkSize) (rolesOf g) i →
        Spare s.slot (s.chunkCnt * fmChunkSize)
          (Function.update (rolesOf g) t (.fresh idx)) i := by
      intro i other spare'
      refine ⟨spare'.1, spare'.2.1, fun u => ?_⟩
      by_cases own : u = t
      · rw [own, Function.update_self]
        exact fun clash => other (Option.some.inj clash).symm
      · rw [Function.update_of_ne own]
        exact spare'.2.2 u
    refine ⟨rest, ⟨?_, ?_⟩, rfl, view.count, ?_, ?_⟩
    · cases rest with
      | nil => exact Function.update_self ..
      | cons first others =>
          refine ⟨Function.update_self .., threaded.2.store ?_ ?_⟩
          · exact freeHead_outside first
          · exact fun other _ => freeHead_outside other
    · intro i member
      refine still i ?_ (freeInv'.unused i (List.mem_cons_of_mem idx member))
      rintro rfl
      exact distinct.1 member
    · intro i theirs
      obtain ⟨outside, spare'⟩ := view.spare i theirs
      rw [List.mem_cons, not_or] at outside
      exact ⟨outside.2, still i outside.1 spare'⟩
    · intro i impossible
      rw [show ({ v with free := rest } : MutexView).ready = v.ready from rfl, unprepared]
        at impossible
      cases impossible

def Pushable (ghost : Ghost n) (v : MutexView) (idx : Nat) : Prop :=
  ghost.role.slot = some idx ∨ v.spare idx

theorem notFree {free : List Nat} (pushable : Pushable (g t) v idx)
    (freeInv : FreeInv s.slot s.chunkCnt s.cell (rolesOf g) free)
    (view : ViewOk s.slot s.chunkCnt s.cell (rolesOf g) free v) : idx ∉ free := by
  rcases pushable with mine | spare
  · exact fun member => (freeInv.unused idx member).2.2 t mine
  · exact (view.spare idx spare).1

theorem storeFreeNext (inv : CoreInv S s g) (held : (g t).mutex = some v)
    (pushable : Pushable (g t) v idx) (unready : (g t).ready = none) :
    CoreInv S (s.setCell (.freeNext idx) v.free.head?)
      (Function.update g t ((g t).viewing (g t).role { v with ready := some idx })) := by
  have head := inv.viewHead held
  refine inv.refreeSame held ?_ unready ?_
  · exact ⟨fun k b => Function.update_of_ne (by intro clash; cases clash) ..,
      fun k i => Function.update_of_ne (by intro clash; cases clash) ..⟩
  · intro free freeInv view
    have absent := notFree pushable freeInv view
    refine ⟨free, ⟨?_, freeInv.unused⟩, view.list, view.count, view.spare, ?_⟩
    · refine Threaded.store freeInv.freelist (Ne.symm (freeHead_outside idx)) ?_
      intro i member clash
      cases clash
      exact absent member
    · intro i same
      cases same
      rw [Function.update_self, Function.update_of_ne (freeHead_outside idx)]
      exact ⟨head.symm, absent⟩

/-- The second store of a push of a slot that belongs to nobody. -/
theorem pushSpare (inv : CoreInv S s g) (held : (g t).mutex = some v)
    (spare : v.spare idx) (prepared : v.ready = some idx) (unready : (g t).ready = none) :
    CoreInv S (s.setCell .freeHead (some idx)) (Function.update g t ((g t).viewing (g t).role
      { v with free := idx :: v.free, spare := fun i => v.spare i ∧ i ≠ idx, ready := none })) := by
  refine inv.refreeSame held ?_ unready ?_
  · exact ⟨fun k b => Function.update_of_ne (by intro clash; cases clash) ..,
      fun k i => Function.update_of_ne (by intro clash; cases clash) ..⟩
  · intro free freeInv view
    obtain ⟨same, absent⟩ := view.ready idx prepared
    have pushed := Threaded.push freeInv.freelist absent freeNext_injective freeHead_outside
    rw [← same, Function.update_eq_self] at pushed
    refine ⟨idx :: free, ⟨pushed, ?_⟩, congrArg (idx :: ·) view.list, view.count, ?_, ?_⟩
    · intro i member
      rcases List.mem_cons.mp member with rfl | member
      · exact (view.spare i spare).2
      · exact freeInv.unused i member
    · intro i ⟨theirs, other⟩
      refine ⟨?_, (view.spare i theirs).2⟩
      rw [List.mem_cons, not_or]
      exact ⟨other, (view.spare i theirs).1⟩
    · intro i impossible
      cases impossible

theorem pushOwn (inv : CoreInv S s g) (held : (g t).mutex = some v)
    (worksOn : (g t).role.slot = some idx) (prepared : v.ready = some idx)
    (unready : (g t).ready = none) (dead : (s.slot idx).state.unused)
    (before : (g t).role.weight (s.slot idx) = 0 ∧ (g t).role.pending = 0 ∧
      ∀ i old new copied, (g t).role ≠ .writer i old new true copied)
    (loose : S.linked → ∀ k, (g t).role.chained S.D (s.slot idx) k = none) :
    CoreInv S (s.setCell .freeHead (some idx)) (Function.update g t ((g t).viewing .idle
      { v with free := idx :: v.free, ready := none })) := by
  have mine := inv.mine worksOn
  refine inv.refreeOwn held ?_ unready mine Role.stays_idle dead before (Or.inl rfl) loose ?_
  · exact ⟨fun k b => Function.update_of_ne (by intro clash; cases clash) ..,
      fun k i => Function.update_of_ne (by intro clash; cases clash) ..⟩
  · intro free freeInv view
    obtain ⟨same, absent⟩ := view.ready idx prepared
    have pushed := Threaded.push freeInv.freelist absent freeNext_injective freeHead_outside
    rw [← same, Function.update_eq_self] at pushed
    have idle : ∀ i, (∀ u, u ≠ t → (rolesOf g u).slot ≠ some i) → ∀ u,
        (Function.update (rolesOf g) t .idle u).slot ≠ some i := by
      intro i others u
      by_cases own : u = t
      · rw [own, Function.update_self]
        exact fun clash => by cases clash
      · rw [Function.update_of_ne own]
        exact others u own
    refine ⟨idx :: free, ⟨pushed, ?_⟩, congrArg (idx :: ·) view.list, view.count, ?_, ?_⟩
    · intro i member
      rcases List.mem_cons.mp member with rfl | member
      · exact ⟨mine.below, dead, idle i fun u other also => other (mine.sole u also)⟩
      · obtain ⟨below, unused, nobody⟩ := freeInv.unused i member
        exact ⟨below, unused, idle i fun u _ => nobody u⟩
    · intro i theirs
      obtain ⟨outside, below, unused, nobody⟩ := view.spare i theirs
      refine ⟨?_, below, unused, idle i fun u _ => nobody u⟩
      rw [List.mem_cons, not_or]
      refine ⟨?_, outside⟩
      rintro rfl
      exact nobody t worksOn
    · intro i impossible
      cases impossible

/-! ### A new chunk -/

theorem heapFrame (inv : CoreInv S s g) (heap : Heap) (chunk : Nat → Chunk) :
    CoreInv S { s with heap := heap, chunk := chunk } g :=
  ⟨inv.locks, inv.roles, inv.ok, inv.free, inv.chains, inv.count, inv.unique⟩

theorem chained_below (inv : CoreInv S s g) {chain : ChainLists} {place : Places}
    (chainInv : ChainInv S.D s.slot s.cell (rolesOf g) chain place) {k b i : Nat}
    (member : i ∈ chain k b) : i < s.slotCount := by
  have placed := ((chainInv.members k b i).mp member).1
  by_cases owned : ∃ u p, (rolesOf g u).place S.D = some (i, p)
  · obtain ⟨u, p, owned⟩ := owned
    exact inv.roles.below u i (Role.place_slot owned)
  · rw [chainInv.others i (fun u p also => owned ⟨u, p, also⟩) k] at placed
    unfold Slot.home at placed
    split at placed
    · exact inv.roles.active i ‹_›
    · cases placed

theorem beyond (inv : CoreInv S s g) {slot' : Nat → Slot n} {cell' : Cell → Option Nat}
    (unprepared : ∀ u v, (g u).mutex = some v → v.ready = none)
    (states : ∀ i, (slot' i).state = (s.slot i).state ∧ (slot' i).data = (s.slot i).data)
    (below : ∀ i, i < s.slotCount → slot' i = s.slot i ∧
      cell' (.freeNext i) = s.cell (.freeNext i) ∧ ∀ k, cell' (.next k i) = s.cell (.next k i))
    (even : ∀ i, s.slotCount ≤ i → ¬ (slot' i).seq % 2 = 1)
    (heads : cell' .freeHead = s.cell .freeHead ∧
      ∀ k b, cell' (.head k b) = s.cell (.head k b)) :
    CoreInv S { s with slot := slot', cell := cell' } g := by
  have occupies : ∀ i k a, Occupies slot' (rolesOf g) i k a → Occupies s.slot (rolesOf g) i k a := by
    intro i k a occupied
    unfold Occupies at *
    rwa [(states i).1, (states i).2] at occupied
  constructor
  · exact inv.locks
  · constructor
    · exact inv.roles.exclusive
    · exact inv.roles.below
    · intro i now
      rw [(states i).1] at now
      exact inv.roles.deleting i now
    · intro i
      by_cases allocated : i < s.slotCount
      · change (slot' i).seq % 2 = 1 ↔ _
        rw [(below i allocated).1]
        exact inv.roles.parity i
      · refine iff_of_false (even i (Nat.not_lt.mp allocated)) ?_
        rintro ⟨u, old, new, copied, role⟩
        exact allocated (inv.roles.below u i (by rw [role]; rfl))
    · intro i now
      rw [(states i).1] at now
      exact inv.roles.active i now
    · intro i above
      rw [(states i).1]
      exact inv.roles.unallocated i above
    · exact inv.roles.clearing
  · intro u
    refine (inv.ok u).frame (fun i worksOn => (below i (inv.roles.below u i worksOn)).1) ?_
    intro c e _ i _ unused
    rw [(states i).1]
    exact unused
  · obtain ⟨free, freeInv, views⟩ := inv.free
    have spare : ∀ {i}, Spare s.slot (s.chunkCnt * fmChunkSize) (rolesOf g) i →
        Spare slot' (s.chunkCnt * fmChunkSize) (rolesOf g) i :=
      fun {i} spare => ⟨spare.1, by rw [(states i).1]; exact spare.2.1, spare.2.2⟩
    refine ⟨free, ⟨Threaded.frame freeInv.freelist heads.1 fun i member =>
      (below i (freeInv.unused i member).1).2.1, fun i member =>
      spare (freeInv.unused i member)⟩, ?_⟩
    intro u v theirs
    obtain ⟨list, count, spares, _⟩ := views u v theirs
    refine ⟨list, count, fun i held => ⟨(spares i held).1, spare (spares i held).2⟩, ?_⟩
    intro i prepared
    rw [unprepared u v theirs] at prepared
    cases prepared
  · intro linked
    obtain ⟨chain, place, chainInv, knowns⟩ := inv.chains linked
    refine ⟨chain, place, ⟨⟨?_, chainInv.chains.disjoint⟩, chainInv.members, chainInv.owned, ?_⟩,
      ?_⟩
    · intro k b
      refine (chainInv.chains.threaded k b).frame (heads.2 k b) fun i member => ?_
      exact (below i (inv.chained_below chainInv member)).2.2 k
    · intro i nobody k
      rw [chainInv.others i nobody k]
      unfold Slot.home
      rw [(states i).1, (states i).2]
    · intro u
      refine ⟨(knowns u).known, fun k b ready => ?_⟩
      obtain ⟨mine, i, p, placed, none, same⟩ := (knowns u).ready k b ready
      refine ⟨mine, i, p, placed, none, ?_⟩
      change cell' (.next k i) = cell' (.head k b)
      rw [(below i (inv.roles.below u i (Role.place_slot placed))).2.2 k, heads.2]
      exact same
  · intro uncleared
    have counted : {i | Counted slot' (rolesOf g) i} = {i | Counted s.slot (rolesOf g) i} := by
      ext i
      refine or_congr ?_ Iff.rfl
      rw [(states i).1]
    rw [counted]
    exact inv.count uncleared
  · intro distinct
    obtain ⟨unique, checks⟩ := inv.unique distinct
    exact ⟨unique.shrink (fun i k a _ => occupies i k a) unique.uncleared,
      fun u => (checks u).shrink fun i k a _ => occupies i k a⟩

theorem soleView (inv : CoreInv S s g) (held : (g t).mutex = some v)
    (unprepared : v.ready = none) : ∀ u w, (g u).mutex = some w → w.ready = none := by
  intro u w theirs
  have mine : (g t).mutex.isSome = true := by rw [held]; rfl
  have same := inv.mutexAlone mine (u := u) (by rw [theirs]; rfl)
  subst same
  rw [held] at theirs
  cases theirs
  exact unprepared

theorem notInChunk {c i : Nat} (below : i < c * fmChunkSize) : ¬ i / fmChunkSize = c := by
  intro inChunk
  have least := Nat.div_mul_le_self i fmChunkSize
  rw [inChunk] at least
  exact Nat.not_lt.mpr least below

theorem initSlots (inv : CoreInv S s g) (held : (g t).mutex = some v)
    (unprepared : v.ready = none) : CoreInv S (s.initSlots s.chunkCnt) g := by
  have sameOwner : (s.initSlots s.chunkCnt).owner = s.owner := by
    funext l
    cases l with
    | wlock i =>
        change (if i / fmChunkSize = s.chunkCnt then none else s.owner (.wlock i)) = _
        split
        · rename_i inChunk
          cases owner : s.owner (.wlock i) with
          | none => rfl
          | some u =>
              have below := inv.locks.below u i ((inv.locks.tie (.wlock i) u).mp owner)
              exact absurd inChunk (notInChunk below)
        · rfl
    | bucket k b => rfl
    | structMutex => rfl
  have step : CoreInv S { s with
      slot := (s.initSlots s.chunkCnt).slot
      cell := (s.initSlots s.chunkCnt).cell } g := by
    refine inv.beyond (inv.soleView held unprepared) ?_ ?_ ?_ ⟨rfl, fun _ _ => rfl⟩
    · intro i
      unfold Core.initSlots
      simp only
      split
      · rename_i inChunk
        have above : s.slotCount ≤ i := Nat.not_lt.mp fun below => notInChunk below inChunk
        exact ⟨(inv.roles.unallocated i above).symm, rfl⟩
      · exact ⟨rfl, rfl⟩
    · exact fun i below =>
        ⟨if_neg (notInChunk below), if_neg (notInChunk below), fun _ => rfl⟩
    · intro i above
      unfold Core.initSlots
      simp only
      split
      · exact (by decide : ¬ (0 : UInt32) % 2 = 1)
      · rw [inv.roles.parity i]
        rintro ⟨u, old, new, copied, role⟩
        exact Nat.not_lt.mpr above (inv.roles.below u i (by rw [role]; rfl))
  have same : s.initSlots s.chunkCnt = { s with
      slot := (s.initSlots s.chunkCnt).slot
      cell := (s.initSlots s.chunkCnt).cell } := by
    conv_rhs => rw [← sameOwner]
    rfl
  rw [same]
  exact step

theorem initKeyNext (inv : CoreInv S s g) (held : (g t).mutex = some v)
    (unprepared : v.ready = none) (k : Nat) : CoreInv S (s.initKeyNext s.chunkCnt k) g := by
  refine inv.beyond (inv.soleView held unprepared) (fun _ => ⟨rfl, rfl⟩) ?_ ?_
    ⟨rfl, fun _ _ => rfl⟩
  · intro i below
    exact ⟨rfl, rfl, fun k' => if_neg fun both => notInChunk below both.2⟩
  · intro i above
    rw [inv.roles.parity i]
    rintro ⟨u, old, new, copied, role⟩
    exact Nat.not_lt.mpr above (inv.roles.below u i (by rw [role]; rfl))

def grownView (v : MutexView) : MutexView :=
  { v with
    count := v.count + 1
    spare := fun i => v.count * fmChunkSize < i ∧ i < (v.count + 1) * fmChunkSize }

theorem storeChunkCnt (inv : CoreInv S s g) (held : (g t).mutex = some v)
    (idle : (g t).role = .idle) (unready : (g t).ready = none) (unprepared : v.ready = none) :
    CoreInv S { s with chunkCnt := v.count + 1 } (Function.update g t
      ((g t).viewing (.fresh (v.count * fmChunkSize)) (grownView v))) := by
  have counted := inv.viewCount held
  have slotCount : s.slotCount = v.count * fmChunkSize := congrArg (· * fmChunkSize) counted
  have larger : v.count * fmChunkSize < (v.count + 1) * fmChunkSize := by
    unfold fmChunkSize
    omega
  have roleAt : rolesOf (Function.update g t
      ((g t).viewing (.fresh (v.count * fmChunkSize)) (grownView v))) =
      Function.update (rolesOf g) t (.fresh (v.count * fmChunkSize)) := rolesOf_update g t _
  have beyond : ∀ i, v.count * fmChunkSize ≤ i → (s.slot i).state = .free ∧
      ∀ u, (rolesOf g u).slot ≠ some i := by
    intro i above
    rw [← slotCount] at above
    exact ⟨inv.roles.unallocated i above, fun u worksOn =>
      Nat.not_lt.mpr above (inv.roles.below u i worksOn)⟩
  have first := beyond _ (Nat.le_refl _)
  have slotSame : Function.update s.slot (v.count * fmChunkSize)
      (s.slot (v.count * fmChunkSize)) = s.slot := Function.update_eq_self _ s.slot
  have stays : (Role.fresh (v.count * fmChunkSize) : Role n).Stays (v.count * fmChunkSize) :=
    Role.stays_of_slot rfl
  have wider : RoleInv s.slot ((v.count + 1) * fmChunkSize) (rolesOf g) :=
    ⟨inv.roles.exclusive, fun u i worksOn => by
        have below := inv.roles.below u i worksOn
        omega,
      inv.roles.deleting, inv.roles.parity, fun i active => by
        have below := inv.roles.active i active
        omega,
      fun i above => inv.roles.unallocated i (by omega), inv.roles.clearing⟩
  have mine : Mine ((v.count + 1) * fmChunkSize) (rolesOf g) t (v.count * fmChunkSize) := by
    refine ⟨fun u worksOn => absurd worksOn (first.2 u), fun i worksOn => ?_, larger, ?_⟩
    · change (g t).role.slot = _ at worksOn
      rw [idle] at worksOn
      cases worksOn
    · intro c e clash
      change (g t).role = _ at clash
      rw [idle] at clash
      cases clash
  have notActive : (s.slot (v.count * fmChunkSize)).state ≠ .active := by
    rw [first.1]
    intro clash
    cases clash
  constructor
  · refine inv.locks.keep (by change s.slotCount ≤ (v.count + 1) * fmChunkSize; omega)
      (Ghost.viewing_holds held _ _) ?_
    have seen := inv.locks.seen t
    change (g t).seen ≤ (v.count + 1) * fmChunkSize
    omega
  · rw [roleAt, ← slotSame]
    refine wider.ownSlot mine stays (fun now => by rw [first.1] at now; cases now) ?_ ?_
    · rw [inv.roles.parity]
      constructor
      · rintro ⟨u, old, new, copied, role⟩
        exact absurd (by rw [role]; rfl) (first.2 u)
      · rintro ⟨old, new, copied, clash⟩
        cases clash
    · rintro (⟨img, p, clash⟩ | ⟨c, clash⟩) <;> cases clash
  · exact forall_update (P := fun _ ghost => RoleOk S s.slot ghost)
      ⟨Or.inl first.1, rfl⟩ fun u _ => inv.ok u
  · rw [roleAt]
    obtain ⟨free, freeInv, views⟩ := inv.free
    have still : ∀ i, i ≠ v.count * fmChunkSize → i < (v.count + 1) * fmChunkSize →
        (s.slot i).state.unused → (∀ u, (rolesOf g u).slot ≠ some i) →
        Spare s.slot ((v.count + 1) * fmChunkSize)
          (Function.update (rolesOf g) t (.fresh (v.count * fmChunkSize))) i := by
      intro i other below unused nobody
      refine ⟨below, unused, fun u => ?_⟩
      by_cases own : u = t
      · rw [own, Function.update_self]
        exact fun clash => other (Option.some.inj clash).symm
      · rw [Function.update_of_ne own]
        exact nobody u
    have below : ∀ i ∈ free, i < v.count * fmChunkSize := by
      intro i member
      have bound := (freeInv.unused i member).1
      rwa [counted] at bound
    refine ⟨free, ⟨freeInv.freelist, fun i member => ?_⟩, ?_⟩
    · obtain ⟨_, unused, nobody⟩ := freeInv.unused i member
      have bound := below i member
      exact still i (by omega) (by omega) unused nobody
    · refine forall_update (P := fun _ ghost => ∀ w, ghost.mutex = some w →
        ViewOk s.slot (v.count + 1) s.cell
          (Function.update (rolesOf g) t (.fresh (v.count * fmChunkSize))) free w) ?_ ?_
      · intro w same
        cases same
        refine ⟨(views t v held).list, rfl, ?_, ?_⟩
        · intro i ⟨lower, upper⟩
          have unused := beyond i (by omega)
          refine ⟨fun member => ?_, still i (by omega) upper (Or.inl unused.1) unused.2⟩
          have bound := below i member
          omega
        · intro i prepared
          rw [show (grownView v).ready = v.ready from rfl, unprepared] at prepared
          cases prepared
      · intro u other w theirs
        have own : (g t).mutex.isSome = true := by rw [held]; rfl
        exact absurd (inv.mutexAlone own (by rw [theirs]; rfl)) other
  · intro linked
    rw [roleAt]
    obtain ⟨chain, place, chainInv, knowns⟩ := inv.chains linked
    refine ⟨chain, place, ?_, ?_⟩
    · rw [← slotSame]
      refine chainInv.ownSlot mine stays fun k => ?_
      change none = (g t).role.chained S.D (s.slot (v.count * fmChunkSize)) k
      rw [idle]
      unfold Role.chained Slot.home
      simp [Role.place, notActive]
    · refine forall_update (P := fun _ ghost => KnownOk S.D s.cell chain ghost)
        ⟨(knowns t).known, fun k b ready => ?_⟩ fun u _ => knowns u
      rw [show ((g t).viewing (.fresh (v.count * fmChunkSize)) (grownView v)).ready =
        (g t).ready from rfl, unready] at ready
      cases ready
  · rw [roleAt, ← slotSame]
    refine inv.count.ownSlot wider mine stays ?_
    have quiet : (rolesOf g t).pending = 0 := by
      change (g t).role.pending = 0
      rw [idle]
      rfl
    rw [slotSame, weight_own mine, weight_own (mine.update stays), Function.update_self,
      uncounted_update fun pending => by
        rw [quiet] at pending
        exact absurd rfl pending, quiet]
    change _ + _ + (g t).role.weight _ = _
    rw [idle]
    simp [Role.weight, Role.pending, notActive]
  · intro distinct
    rw [roleAt]
    obtain ⟨unique, checks⟩ := inv.unique distinct
    have fewer : ∀ i k a, Occupies s.slot (Function.update (rolesOf g) t
        (.fresh (v.count * fmChunkSize))) i k a → Occupies s.slot (rolesOf g) i k a := by
      rintro i k a (live | ⟨u, p, role, chained⟩)
      · exact Or.inl live
      · by_cases own : u = t
        · rw [own, Function.update_self] at role
          cases role
        · rw [Function.update_of_ne own] at role
          exact Or.inr ⟨u, p, role, chained⟩
    refine ⟨unique.shrink (fun i k a _ => fewer i k a) fun u c e role => ?_, ?_⟩
    · by_cases own : u = t
      · rw [own, Function.update_self] at role
        cases role
      · rw [Function.update_of_ne own] at role
        exact unique.uncleared u c e role
    · have after := fun u => (checks u).shrink fun i k a _ => fewer i k a
      exact forall_update (P := fun _ ghost => CheckedOk S.D s.slot
        (Function.update (rolesOf g) t (.fresh (v.count * fmChunkSize))) ghost)
        ⟨fun k rec self found => ⟨(Ghost.viewing_holds held _ _ _).mpr
            ((after t).clean k rec self found).1, ((after t).clean k rec self found).2⟩,
          fun k rec self items found => ⟨(Ghost.viewing_holds held _ _ _).mpr
            ((after t).passed k rec self items found).1,
            ((after t).passed k rec self items found).2⟩⟩ fun u _ => after u

end CoreInv

end Fastmem
