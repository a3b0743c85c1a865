/-
Steps that take and release locks, and steps that only read.

A step of one thread changes the ghost value of that thread alone. The general
lemma here is for steps that leave slots, cells and the row counter alone and
keep the thread's role; taking and releasing each kind of lock are cases of it.
-/

import Fastmem.Concurrent.Ownership

set_option autoImplicit false

namespace Fastmem

variable {n : Nat} {S : Setting n} {s : Core n} {g : Nat → Ghost n} {t : Nat}

/-! ### Roles after a step -/

theorem rolesOf_update (g : Nat → Ghost n) (t : Nat) (ghost' : Ghost n) :
    rolesOf (Function.update g t ghost') = Function.update (rolesOf g) t ghost'.role := by
  funext u
  unfold rolesOf
  by_cases same : u = t
  · subst same
    simp
  · simp [same]

theorem rolesOf_keep {ghost' : Ghost n} (same : ghost'.role = (g t).role) :
    rolesOf (Function.update g t ghost') = rolesOf g := by
  rw [rolesOf_update, same]
  exact Function.update_eq_self t (rolesOf g)

theorem forall_update {P : Nat → Ghost n → Prop} {ghost' : Ghost n} (mine : P t ghost')
    (others : ∀ u, u ≠ t → P u (g u)) : ∀ u, P u (Function.update g t ghost' u) := by
  intro u
  by_cases same : u = t
  · subst same
    rw [Function.update_self]
    exact mine
  · rw [Function.update_of_ne same]
    exact others u same

/-! ### Lock owners -/

theorem LockInv.keep {owner : Lock → Option Nat} {count count' : Nat}
    (inv : LockInv owner count g) {ghost' : Ghost n} (grown : count ≤ count')
    (holds : ∀ l, ghost'.holds l ↔ (g t).holds l) (seen : ghost'.seen ≤ count') :
    LockInv owner count' (Function.update g t ghost') where
  tie l := forall_update (P := fun u ghost => owner l = some u ↔ ghost.holds l)
    ((inv.tie l t).trans (holds l).symm) fun u _ => inv.tie l u
  below := forall_update (P := fun _ ghost => ∀ idx, ghost.slots idx = true → idx < count')
    (fun idx held => Nat.lt_of_lt_of_le (inv.below t idx ((holds (.wlock idx)).mp held)) grown)
    fun u _ idx held => Nat.lt_of_lt_of_le (inv.below u idx held) grown
  seen := forall_update (P := fun _ ghost => ghost.seen ≤ count') seen
    fun u _ => Nat.le_trans (inv.seen u) grown

theorem LockInv.acquire {owner : Lock → Option Nat} {count : Nat} (inv : LockInv owner count g)
    {ghost' : Ghost n} {l : Lock} (free : owner l = none)
    (holds : ∀ l', ghost'.holds l' ↔ (g t).holds l' ∨ l' = l)
    (below : ∀ idx, l = .wlock idx → idx < count) (seen : ghost'.seen ≤ count) :
    LockInv (Function.update owner l (some t)) count (Function.update g t ghost') where
  tie l' := by
    by_cases same : l' = l
    · subst same
      rw [Function.update_self]
      refine forall_update (P := fun u ghost => some t = some u ↔ ghost.holds l') ?_ ?_
      · exact iff_of_true rfl ((holds l').mpr (Or.inr rfl))
      · intro u different
        have notHeld : ¬ (g u).holds l' := fun held => by
          rw [(inv.tie l' u).mpr held] at free
          cases free
        exact iff_of_false (fun clash => different (Option.some.inj clash).symm) notHeld
    · rw [Function.update_of_ne same]
      refine forall_update (P := fun u ghost => owner l' = some u ↔ ghost.holds l') ?_ ?_
      · rw [inv.tie l' t, holds l']
        exact ⟨Or.inl, fun held => held.resolve_right same⟩
      · exact fun u _ => inv.tie l' u
  below := by
    refine forall_update (P := fun _ ghost => ∀ idx, ghost.slots idx = true → idx < count) ?_
      fun u _ => inv.below u
    intro idx held
    rcases (holds (.wlock idx)).mp held with before | now
    · exact inv.below t idx before
    · exact below idx now.symm
  seen := forall_update (P := fun _ ghost => ghost.seen ≤ count) seen fun u _ => inv.seen u

theorem LockInv.release {owner : Lock → Option Nat} {count : Nat} (inv : LockInv owner count g)
    {ghost' : Ghost n} {l : Lock} (held : (g t).holds l)
    (holds : ∀ l', ghost'.holds l' ↔ (g t).holds l' ∧ l' ≠ l) (seen : ghost'.seen ≤ count) :
    LockInv (Function.update owner l none) count (Function.update g t ghost') where
  tie l' := by
    by_cases same : l' = l
    · subst same
      rw [Function.update_self]
      refine forall_update (P := fun u ghost => none = some u ↔ ghost.holds l') ?_ ?_
      · exact iff_of_false (fun clash => by cases clash) fun still => ((holds l').mp still).2 rfl
      · intro u different
        refine iff_of_false (fun clash => by cases clash) fun also => different ?_
        exact Option.some.inj (((inv.tie l' u).mpr also).symm.trans ((inv.tie l' t).mpr held))
    · rw [Function.update_of_ne same]
      refine forall_update (P := fun u ghost => owner l' = some u ↔ ghost.holds l') ?_ ?_
      · rw [inv.tie l' t, holds l']
        exact ⟨fun before => ⟨before, same⟩, And.left⟩
      · exact fun u _ => inv.tie l' u
  below := by
    refine forall_update (P := fun _ ghost => ∀ idx, ghost.slots idx = true → idx < count) ?_
      fun u _ => inv.below u
    intro idx still
    exact inv.below t idx ((holds (.wlock idx)).mp still).1
  seen := forall_update (P := fun _ ghost => ghost.seen ≤ count) seen fun u _ => inv.seen u

theorem LockInv.sole {owner : Lock → Option Nat} {count : Nat} (inv : LockInv owner count g)
    {l : Lock} {u : Nat} (mine : (g t).holds l) (theirs : (g u).holds l) : u = t :=
  Option.some.inj (((inv.tie l u).mpr theirs).symm.trans ((inv.tie l t).mpr mine))

/-! ### Steps that change only lock owners -/

theorem CoreInv.relock (inv : CoreInv S s g) {owner : Lock → Option Nat} {ghost' : Ghost n}
    (role : ghost'.role = (g t).role)
    (locks : LockInv owner s.slotCount (Function.update g t ghost'))
    (ok : RoleOk S s.slot ghost')
    (view : ∀ free v, FreeInv s.slot s.chunkCnt s.cell (rolesOf g) free →
      (∀ u w, (g u).mutex = some w → ViewOk s.slot s.chunkCnt s.cell (rolesOf g) free w) →
      ghost'.mutex = some v → ViewOk s.slot s.chunkCnt s.cell (rolesOf g) free v)
    (known : S.linked → ∀ chain place, ChainInv S.D s.slot s.cell (rolesOf g) chain place →
      (∀ u, KnownOk S.D s.cell chain (g u)) → KnownOk S.D s.cell chain ghost')
    (checked : S.distinct → (∀ u, CheckedOk S.D s.slot (rolesOf g) (g u)) →
      CheckedOk S.D s.slot (rolesOf g) ghost') :
    CoreInv S { s with owner := owner } (Function.update g t ghost') where
  locks := locks
  roles := by
    rw [rolesOf_keep role]
    exact inv.roles
  ok := forall_update (P := fun _ ghost => RoleOk S s.slot ghost) ok fun u _ => inv.ok u
  free := by
    rw [rolesOf_keep role]
    obtain ⟨free, freeInv, views⟩ := inv.free
    exact ⟨free, freeInv, forall_update
      (P := fun _ ghost => ∀ v, ghost.mutex = some v →
        ViewOk s.slot s.chunkCnt s.cell (rolesOf g) free v)
      (fun v => view free v freeInv views) fun u _ => views u⟩
  chains linked := by
    rw [rolesOf_keep role]
    obtain ⟨chain, place, chainInv, knowns⟩ := inv.chains linked
    exact ⟨chain, place, chainInv, forall_update
      (P := fun _ ghost => KnownOk S.D s.cell chain ghost)
      (known linked chain place chainInv knowns) fun u _ => knowns u⟩
  count := by
    rw [rolesOf_keep role]
    exact inv.count
  unique distinct := by
    rw [rolesOf_keep role]
    obtain ⟨unique, checks⟩ := inv.unique distinct
    exact ⟨unique, forall_update
      (P := fun _ ghost => CheckedOk S.D s.slot (rolesOf g) ghost)
      (checked distinct checks) fun u _ => checks u⟩

/-! ### Ghost values after taking or releasing a lock -/

namespace Ghost

def takeSlot (ghost : Ghost n) (idx : Nat) : Ghost n :=
  { ghost with slots := Function.update ghost.slots idx true }

def dropSlot (ghost : Ghost n) (idx : Nat) : Ghost n :=
  { ghost with slots := Function.update ghost.slots idx false }

def takeBucket (ghost : Ghost n) (k b : Nat) (items : List Nat) : Ghost n :=
  { ghost with known := fun k' b' => if k' = k ∧ b' = b then some items else ghost.known k' b' }

def dropBucket (ghost : Ghost n) (k b : Nat) : Ghost n :=
  { ghost with
    known := fun k' b' => if k' = k ∧ b' = b then none else ghost.known k' b'
    clean := Function.update ghost.clean k none
    passed := none }

def takeMutex (ghost : Ghost n) (v : MutexView) : Ghost n := { ghost with mutex := some v }

def dropMutex (ghost : Ghost n) : Ghost n := { ghost with mutex := none }

variable (ghost : Ghost n) (l : Lock)

theorem takeSlot_holds (idx : Nat) :
    (ghost.takeSlot idx).holds l ↔ ghost.holds l ∨ l = .wlock idx := by
  cases l with
  | wlock i =>
      by_cases same : i = idx
      · subst same
        simp [takeSlot, holds]
      · simp [takeSlot, holds, same]
  | bucket k b => simp [takeSlot, holds]
  | structMutex => simp [takeSlot, holds]

theorem dropSlot_holds (idx : Nat) :
    (ghost.dropSlot idx).holds l ↔ ghost.holds l ∧ l ≠ .wlock idx := by
  cases l with
  | wlock i =>
      by_cases same : i = idx
      · subst same
        simp [dropSlot, holds]
      · simp [dropSlot, holds, same]
  | bucket k b => simp [dropSlot, holds]
  | structMutex => simp [dropSlot, holds]

theorem takeBucket_known (ghost : Ghost n) (k b : Nat) (items : List Nat) :
    (ghost.takeBucket k b items).known k b = some items :=
  if_pos ⟨rfl, rfl⟩

theorem takeBucket_holds (k b : Nat) (items : List Nat) :
    (ghost.takeBucket k b items).holds l ↔ ghost.holds l ∨ l = .bucket k b := by
  cases l with
  | wlock i => simp [takeBucket, holds]
  | bucket k' b' =>
      by_cases same : k' = k ∧ b' = b
      · simp [takeBucket, holds, same]
      · simp [takeBucket, holds, same]
  | structMutex => simp [takeBucket, holds]

theorem dropBucket_holds (k b : Nat) :
    (ghost.dropBucket k b).holds l ↔ ghost.holds l ∧ l ≠ .bucket k b := by
  cases l with
  | wlock i => simp [dropBucket, holds]
  | bucket k' b' =>
      by_cases same : k' = k ∧ b' = b
      · simp [dropBucket, holds, same]
      · simp only [dropBucket, holds, ne_eq, Lock.bucket.injEq, same, if_false,
          not_false_eq_true, and_true]
  | structMutex => simp [dropBucket, holds]

theorem takeMutex_holds (v : MutexView) :
    (ghost.takeMutex v).holds l ↔ ghost.holds l ∨ l = .structMutex := by
  cases l <;> simp [takeMutex, holds]

theorem dropMutex_holds : ghost.dropMutex.holds l ↔ ghost.holds l ∧ l ≠ .structMutex := by
  cases l <;> simp [dropMutex, holds]

end Ghost

theorem RoleOk.mono {slot : Nat → Slot n} {ghost ghost' : Ghost n}
    (ok : RoleOk S slot ghost) (role : ghost'.role = ghost.role)
    (holds : ∀ l, ghost.holds l → ghost'.holds l) : RoleOk S slot ghost' := by
  have slots : ∀ idx, ghost.slots idx = true → ghost'.slots idx = true := fun idx =>
    holds (.wlock idx)
  have known : ∀ k b, (ghost.known k b).isSome = true → (ghost'.known k b).isSome = true :=
    fun k b => holds (.bucket k b)
  have mutex : ghost.mutex.isSome = true → ghost'.mutex.isSome = true := holds .structMutex
  unfold RoleOk at *
  rw [role]
  cases now : ghost.role with
  | idle => trivial
  | live idx =>
      simp only [now] at ok
      exact ⟨ok.1, slots idx ok.2⟩
  | fresh idx =>
      simp only [now] at ok
      exact ⟨ok.1, mutex ok.2⟩
  | chaining idx rec place =>
      simp only [now] at ok
      exact ⟨ok.1, mutex ok.2.1, ok.2.2⟩
  | published =>
      simp only [now] at ok
      exact mutex ok
  | writer idx old new odd copied =>
      simp only [now] at ok
      refine ⟨ok.1, slots idx ok.2.1, fun linked => ?_⟩
      obtain ⟨image, order, held⟩ := ok.2.2 linked
      exact ⟨image, order, fun odd k changed =>
        ⟨known k _ (held odd k changed).1, known k _ (held odd k changed).2⟩⟩
  | mover idx old new place =>
      simp only [now] at ok
      refine ⟨ok.1, slots idx ok.2.1, fun linked => ?_⟩
      obtain ⟨image, buckets, held⟩ := ok.2.2 linked
      refine ⟨image, buckets, fun k valid => ?_⟩
      rcases held k valid with moved | both
      · exact Or.inl moved
      · exact Or.inr ⟨known k _ both.1, known k _ both.2⟩
  | deleter idx img place =>
      simp only [now] at ok
      exact ok
  | retired idx counted =>
      simp only [now] at ok
      exact ok
  | clearer cleared emptied =>
      simp only [now] at ok
      exact ⟨mutex ok.1, ok.2⟩

def Ghost.see (ghost : Ghost n) (count : Nat) : Ghost n :=
  { ghost with seen := max ghost.seen count }

theorem Ghost.see_zero (ghost : Ghost n) : ghost = ghost.see 0 := by
  rw [see, Nat.max_zero]

theorem Ghost.see_see (ghost : Ghost n) (first second : Nat) :
    (ghost.see first).see second = ghost.see (max first second) := by
  simp only [see, Nat.max_assoc]

theorem CoreInv.see (inv : CoreInv S s g) :
    CoreInv S s (Function.update g t ((g t).see s.slotCount)) := by
  have holds : ∀ l, ((g t).see s.slotCount).holds l ↔ (g t).holds l := by
    intro l
    cases l <;> exact Iff.rfl
  refine inv.relock rfl
    (inv.locks.keep (Nat.le_refl _) holds (Nat.max_le.mpr ⟨inv.locks.seen t, Nat.le_refl _⟩))
    ((inv.ok t).mono rfl fun l => (holds l).mpr) ?_ ?_ ?_
  · intro free v _ views held
    exact views t v held
  · intro _ chain place _ knowns
    exact ⟨(knowns t).known, (knowns t).ready⟩
  · intro _ checks
    exact ⟨(checks t).clean, (checks t).passed⟩

/-! ### Taking locks -/

theorem CoreInv.lockSlot (inv : CoreInv S s g) {idx : Nat} (free : s.owner (.wlock idx) = none)
    (below : idx < s.slotCount) :
    CoreInv S (s.setOwner (.wlock idx) (some t)) (Function.update g t ((g t).takeSlot idx)) := by
  refine inv.relock rfl (inv.locks.acquire free (fun l => (g t).takeSlot_holds l idx) ?_ ?_)
    ((inv.ok t).mono rfl fun l held => ((g t).takeSlot_holds l idx).mpr (Or.inl held)) ?_ ?_ ?_
  · intro idx' same
    cases same
    exact below
  · exact inv.locks.seen t
  · intro free v _ views mine
    exact views t v mine
  · intro _ chain place _ knowns
    exact ⟨(knowns t).known, (knowns t).ready⟩
  · intro _ checks
    exact ⟨(checks t).clean, (checks t).passed⟩

theorem CoreInv.lockBucket (inv : CoreInv S s g) {k b : Nat}
    (free : s.owner (.bucket k b) = none) :
    ∃ items, CoreInv S (s.setOwner (.bucket k b) (some t))
      (Function.update g t ((g t).takeBucket k b items)) := by
  classical
  obtain ⟨items, read⟩ : ∃ items, S.linked → ∀ chain place,
      ChainInv S.D s.slot s.cell (rolesOf g) chain place → chain k b = items := by
    by_cases linked : S.linked
    · obtain ⟨chain, place, chainInv, _⟩ := inv.chains linked
      refine ⟨chain k b, fun _ chain' place' chainInv' => ?_⟩
      exact (chainInv'.chains.threaded k b).unique (chainInv.chains.threaded k b)
    · exact ⟨[], fun yes => absurd yes linked⟩
  have held : ∀ l, (g t).holds l → ((g t).takeBucket k b items).holds l := fun l mine =>
    ((g t).takeBucket_holds l k b items).mpr (Or.inl mine)
  refine ⟨items, inv.relock rfl
    (inv.locks.acquire free (fun l => (g t).takeBucket_holds l k b items) ?_ ?_)
    ((inv.ok t).mono rfl held) ?_ ?_ ?_⟩
  · intro idx impossible
    cases impossible
  · exact inv.locks.seen t
  · intro free v _ views mine
    exact views t v mine
  · intro linked chain place chainInv knowns
    constructor
    · intro k' b' items' found
      simp only [Ghost.takeBucket] at found
      split at found
      · rename_i same
        obtain ⟨rfl, rfl⟩ := same
        cases found
        exact read linked chain place chainInv
      · exact (knowns t).known k' b' items' found
    · intro k' b' ready
      obtain ⟨mine, rest⟩ := (knowns t).ready k' b' ready
      exact ⟨held _ mine, rest⟩
  · intro _ checks
    constructor
    · intro k' rec self found
      obtain ⟨mine, rest⟩ := (checks t).clean k' rec self found
      exact ⟨held _ mine, rest⟩
    · intro k' rec self passed found
      obtain ⟨mine, rest⟩ := (checks t).passed k' rec self passed found
      exact ⟨held _ mine, rest⟩

def MutexView.start (free : List Nat) (count : Nat) : MutexView :=
  ⟨free, count, fun _ => False, none⟩

theorem CoreInv.lockMutex (inv : CoreInv S s g) (unlocked : s.owner .structMutex = none) :
    ∃ free, CoreInv S (s.setOwner .structMutex (some t))
      (Function.update g t ((g t).takeMutex (MutexView.start free s.chunkCnt))) := by
  obtain ⟨free, freeInv, _⟩ := inv.free
  have held : ∀ l, (g t).holds l →
      ((g t).takeMutex (MutexView.start free s.chunkCnt)).holds l := fun l mine =>
    ((g t).takeMutex_holds l _).mpr (Or.inl mine)
  refine ⟨free, inv.relock rfl
    (inv.locks.acquire unlocked (fun l => (g t).takeMutex_holds l _) ?_ ?_)
    ((inv.ok t).mono rfl held) ?_ ?_ ?_⟩
  · intro idx impossible
    cases impossible
  · exact inv.locks.seen t
  · intro free' v freeInv' _ mine
    cases mine
    have same : free = free' := Threaded.unique freeInv.freelist freeInv'.freelist
    subst same
    exact ⟨rfl, rfl, fun _ impossible => impossible.elim, fun _ impossible => by cases impossible⟩
  · intro _ chain place _ knowns
    exact ⟨(knowns t).known, (knowns t).ready⟩
  · intro _ checks
    exact ⟨(checks t).clean, (checks t).passed⟩

/-! ### Releasing locks -/

def Role.lockedSlot : Role n → Option Nat
  | .live idx | .writer idx _ _ _ _ | .mover idx _ _ _ => some idx
  | _ => none

theorem CoreInv.unlockSlot (inv : CoreInv S s g) {idx : Nat} (held : (g t).slots idx = true)
    (done : (g t).role.lockedSlot ≠ some idx) :
    CoreInv S (s.setOwner (.wlock idx) none) (Function.update g t ((g t).dropSlot idx)) := by
  have kept : ∀ l, (g t).holds l → l ≠ .wlock idx → ((g t).dropSlot idx).holds l :=
    fun l mine other => ((g t).dropSlot_holds l idx).mpr ⟨mine, other⟩
  refine inv.relock rfl (inv.locks.release held (fun l => (g t).dropSlot_holds l idx)
    (inv.locks.seen t)) ?_ ?_ ?_ ?_
  · have ok := inv.ok t
    have slots : ∀ i, (g t).role.lockedSlot = some i → (g t).slots i = true →
        ((g t).dropSlot idx).slots i = true := by
      intro i mine locked
      refine kept (.wlock i) locked fun same => done ?_
      cases same
      exact mine
    unfold RoleOk at *
    cases now : (g t).role with
    | live i =>
        simp only [now, Ghost.dropSlot] at ok slots ⊢
        exact ⟨ok.1, slots i rfl ok.2⟩
    | writer i old new odd copied =>
        simp only [now, Ghost.dropSlot] at ok slots ⊢
        exact ⟨ok.1, slots i rfl ok.2.1, ok.2.2⟩
    | mover i old new place =>
        simp only [now, Ghost.dropSlot] at ok slots ⊢
        exact ⟨ok.1, slots i rfl ok.2.1, ok.2.2⟩
    | idle => simp only [now, Ghost.dropSlot]
    | fresh _ | chaining _ _ _ | published | deleter _ _ _ | retired _ _ | clearer _ _ =>
        simp only [now, Ghost.dropSlot] at ok ⊢
        exact ok
  · intro free v _ views mine
    exact views t v mine
  · intro _ chain place _ knowns
    exact ⟨(knowns t).known, (knowns t).ready⟩
  · intro _ checks
    exact ⟨(checks t).clean, (checks t).passed⟩

def Role.unbound (D : ShareDef n) : Role n → Prop
  | .writer _ _ _ odd _ => odd = false
  | .mover _ _ new place => ∀ k, k < D.keys → place k = some (fmCoreKeyBucket (D.keydef k) new)
  | _ => True

theorem CoreInv.unlockBucket (inv : CoreInv S s g) {k b : Nat}
    (held : (g t).holds (.bucket k b)) (done : S.linked → (g t).role.unbound S.D)
    (unready : (g t).ready = none) :
    CoreInv S (s.setOwner (.bucket k b) none) (Function.update g t ((g t).dropBucket k b)) := by
  have kept : ∀ l, (g t).holds l → l ≠ .bucket k b → ((g t).dropBucket k b).holds l :=
    fun l mine other => ((g t).dropBucket_holds l k b).mpr ⟨mine, other⟩
  refine inv.relock rfl (inv.locks.release held (fun l => (g t).dropBucket_holds l k b)
    (inv.locks.seen t)) ?_ ?_ ?_ ?_
  · have ok := inv.ok t
    unfold RoleOk at *
    cases now : (g t).role with
    | writer i old new odd copied =>
        simp only [now, Ghost.dropBucket] at ok done ⊢
        refine ⟨ok.1, ok.2.1, fun linked => ⟨(ok.2.2 linked).1, (ok.2.2 linked).2.1, ?_⟩⟩
        intro isOdd
        have notOdd : odd = false := done linked
        rw [isOdd] at notOdd
        cases notOdd
    | mover i old new place =>
        simp only [now, Ghost.dropBucket] at ok done ⊢
        refine ⟨ok.1, ok.2.1, fun linked => ⟨(ok.2.2 linked).1, (ok.2.2 linked).2.1, ?_⟩⟩
        exact fun k' valid => Or.inl (done linked k' valid)
    | idle => simp only [now, Ghost.dropBucket]
    | live _ | fresh _ | chaining _ _ _ | published | deleter _ _ _ | retired _ _ | clearer _ _ =>
        simp only [now, Ghost.dropBucket] at ok ⊢
        exact ok
  · intro free v _ views mine
    exact views t v mine
  · intro _ chain place _ knowns
    constructor
    · intro k' b' items found
      simp only [Ghost.dropBucket] at found
      split at found
      · cases found
      · exact (knowns t).known k' b' items found
    · intro k' b' ready
      simp only [Ghost.dropBucket, unready] at ready
      cases ready
  · intro _ checks
    constructor
    · intro k' rec self found
      simp only [Ghost.dropBucket] at found
      by_cases same : k' = k
      · subst same
        rw [Function.update_self] at found
        cases found
      · rw [Function.update_of_ne same] at found
        obtain ⟨mine, rest⟩ := (checks t).clean k' rec self found
        exact ⟨kept _ mine (fun clash => by cases clash; exact same rfl), rest⟩
    · intro k' rec self passed found
      simp only [Ghost.dropBucket] at found
      cases found

theorem CoreInv.unlockMutex (inv : CoreInv S s g) (held : (g t).mutex.isSome = true)
    (done : (g t).role = .idle ∨ (∃ idx, (g t).role = .live idx)) :
    CoreInv S (s.setOwner .structMutex none) (Function.update g t (g t).dropMutex) := by
  refine inv.relock rfl (inv.locks.release held (fun l => (g t).dropMutex_holds l)
    (inv.locks.seen t)) ?_ ?_ ?_ ?_
  · have ok := inv.ok t
    unfold RoleOk at *
    rcases done with now | ⟨idx, now⟩
    · simp only [now, Ghost.dropMutex]
    · simp only [now, Ghost.dropMutex] at ok ⊢
      exact ok
  · intro free v _ views mine
    cases mine
  · intro _ chain place _ knowns
    exact ⟨(knowns t).known, (knowns t).ready⟩
  · intro _ checks
    exact ⟨(checks t).clean, (checks t).passed⟩

end Fastmem
