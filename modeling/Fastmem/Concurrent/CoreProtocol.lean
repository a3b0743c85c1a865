/-
The ownership invariant as a protocol, with a rule for each atomic action.

A thread's kind says whether its call is a truncation. `Permits` is what the
ghost value of a thread allows it to attempt: only the owner of a slot writes
to it, only the owner of a lock releases it. Each rule opens the invariant once
and names the ghost value after the action.
-/

import Fastmem.Concurrent.CheckSteps

set_option autoImplicit false

namespace Fastmem

open Prog (perform iterate forEach foldEach)

variable {n : Nat}

/-- The order in which a truncation empties the buckets. -/
def bucketBefore (k b k' b' : Nat) : Prop := k < k' ∨ (k = k' ∧ b < b')

def Role.emptiedBefore (role : Role n) (k b : Nat) : Prop :=
  ∀ cleared emptied, role = .clearer cleared emptied → ∀ k' b', emptied k' b' = true →
    bucketBefore k' b' k b

def Role.emptiedUpTo (role : Role n) (k b : Nat) : Prop :=
  ∀ cleared emptied, role = .clearer cleared emptied → ∀ k' b', emptied k' b' = true →
    ¬ bucketBefore k b k' b'

def Permits (S : Setting n) {ρ : Type} (ghost : Ghost n) : Act n ρ → Prop
  | .lock (.bucket k b) => ghost.role.emptiedBefore k b
  | .lock _ => True
  | .unlock (.bucket k b) => ghost.holds (.bucket k b) ∧ ghost.role.emptiedUpTo k b
  | .unlock l => ghost.holds l
  | .storeData idx _ | .storeByte idx _ _ =>
      ghost.role = .fresh idx ∨ ∃ old new copied, ghost.role = .writer idx old new true copied
  | .bumpSeq idx => ∃ old new odd copied, ghost.role = .writer idx old new odd copied
  | .storeState idx .active => ∃ rec p, CoreInv.Inserting S ghost.role idx rec p
  | .storeState idx .deleting => ghost.role = .live idx
  | .storeState idx .deleted => ∃ img p, ghost.role = .deleter idx img p
  | .storeState idx .free => (∃ emptied, ghost.role = .clearer idx emptied) ∧
      ghost.slots idx = true
  | .bumpGen idx => (∃ counted, ghost.role = .retired idx counted) ∨
      (∃ cleared emptied, ghost.role = .clearer cleared emptied) ∧ ghost.slots idx = true
  | .storeCell (.head k b) _ => ghost.role.emptiedBefore k b
  | .initSlots c => ∃ v, ghost.mutex = some v ∧ v.count = c
  | _ => True

def Ghost.Truncates (ghost : Ghost n) : Prop :=
  ∃ cleared emptied, ghost.role = .clearer cleared emptied

theorem update_snd {A B : Type} (f : Nat → A × B) (t : Nat) (a : A) (b : B) :
    (fun u => (Function.update f t (a, b) u).2) = Function.update (fun u => (f u).2) t b := by
  funext u
  by_cases own : u = t
  · subst own
    rw [Function.update_self, Function.update_self]
  · rw [Function.update_of_ne own, Function.update_of_ne own]

def coreProtocol (S : Setting n) : Protocol (coreMachine n) where
  Kind := Bool
  Ghost := Ghost n
  Inv s ghosts := CoreInv S s (fun t => (ghosts t).2) ∧
    ∀ t, (ghosts t).2.Truncates → (ghosts t).1 = true
  Attempt _ ghost action := Permits S ghost action

theorem coreProtocol_update {S : Setting n} {s : Core n} {t : Nat} {kind : (coreProtocol S).Kind}
    {ghosts : Nat → (coreProtocol S).Kind × (coreProtocol S).Ghost}
    {ghost' : (coreProtocol S).Ghost} (others : ∀ u, (ghosts u).2.Truncates → (ghosts u).1 = true)
    (inv : CoreInv S s (Function.update (fun u => (ghosts u).2) t ghost'))
    (mine : ghost'.Truncates → kind = true) :
    (coreProtocol S).Inv s (Function.update ghosts t (kind, ghost')) := by
  have pairs : (fun u => (Function.update ghosts t (kind, ghost') u).2) =
      Function.update (fun u => (ghosts u).2) t ghost' := update_snd ghosts t kind ghost'
  refine ⟨?_, ?_⟩
  · rw [pairs]
    exact inv
  · intro u
    by_cases own : u = t
    · subst own
      rw [Function.update_self]
      exact mine
    · rw [Function.update_of_ne own]
      exact others u

abbrev CoreTriple (S : Setting n) (t : Nat) (kind : Bool) (promise : (coreProtocol S).Promise)
    {α : Type} (ghost : Ghost n) (program : CoreProg n α) (post : α → Ghost n → Prop) : Prop :=
  (coreProtocol S).Triple t kind promise ghost program post

namespace CoreTriple

variable {S : Setting n} {t : Nat} {kind : Bool} {promise : (coreProtocol S).Promise}
  {ghost : Ghost n} {α β ρ : Type}

/-! ### The rule for one action -/

theorem act {action : Act n ρ} {post : ρ → Ghost n → Prop} (permitted : Permits S ghost action)
    (keeps : ∀ s (kinds : Nat → Bool) g result s', CoreInv S s g → (∀ u, (g u).Truncates → kinds u = true) →
      g t = ghost → kinds t = kind → promise action s (fun u => (kinds u, g u)) →
      Act.exec t action s = some (result, s') →
      ∃ ghost', CoreInv S s' (Function.update g t ghost') ∧ (ghost'.Truncates → kind = true) ∧
        post result ghost') :
    CoreTriple S t kind promise ghost (perform action) post := by
  refine Protocol.Triple.perform permitted ?_
  intro s ghosts result s' inv mine promised ran
  obtain ⟨ghost', inv', kindOk, holds⟩ := keeps s (fun u => (ghosts u).1)
    (fun u => (ghosts u).2) result s' inv.1 inv.2 (congrArg Prod.snd mine)
    (congrArg Prod.fst mine) promised ran
  exact ⟨ghost', coreProtocol_update inv.2 inv' kindOk, holds⟩

theorem read {action : Act n ρ} {post : ρ → Ghost n → Prop} (permitted : Permits S ghost action)
    (reads : ∀ s result s', Act.exec t action s = some (result, s') → s' = s)
    (facts : ∀ s (kinds : Nat → Bool) g result, CoreInv S s g → g t = ghost →
      promise action s (fun u => (kinds u, g u)) → Act.exec t action s = some (result, s) →
      post result ghost) :
    CoreTriple S t kind promise ghost (perform action) post := by
  refine act permitted fun s kinds g result s' inv truncates mine kindIs promised ran => ?_
  have same := reads s result s' ran
  subst same
  refine ⟨ghost, ?_, ?_, facts s' kinds g result inv mine promised ran⟩
  · rw [← mine, Function.update_eq_self]
    exact inv
  · rw [← mine, ← kindIs]
    exact truncates t

theorem keep {action : Act n ρ} {post : ρ → Ghost n → Prop} (permitted : Permits S ghost action)
    (keeps : ∀ s (kinds : Nat → Bool) g result s', CoreInv S s g → g t = ghost →
      promise action s (fun u => (kinds u, g u)) →
      Act.exec t action s = some (result, s') → CoreInv S s' g ∧ post result ghost) :
    CoreTriple S t kind promise ghost (perform action) post := by
  refine act permitted fun s kinds g result s' inv truncates mine kindIs promised ran => ?_
  obtain ⟨inv', holds⟩ := keeps s kinds g result s' inv mine promised ran
  refine ⟨ghost, ?_, ?_, holds⟩
  · rw [← mine, Function.update_eq_self]
    exact inv'
  · rw [← mine, ← kindIs]
    exact truncates t

/-! ### Locks -/

theorem lockSlot {idx : Nat} (below : idx < ghost.seen ∨
      ∃ v, ghost.mutex = some v ∧ idx < v.count * fmChunkSize) :
    CoreTriple S t kind promise ghost (perform (.lock (.wlock idx)))
      fun _ ghost' => ghost.slots idx = false ∧ ghost' = ghost.takeSlot idx := by
  refine act trivial fun s kinds g result s' inv truncates mine kindIs promised ran => ?_
  subst mine
  cases owner : s.owner (.wlock idx) with
  | some u =>
      simp only [Act.exec, owner] at ran
      cases ran
  | none =>
      simp only [Act.exec, owner] at ran
      cases ran
      have allocated : idx < s.slotCount := by
        rcases below with seen | ⟨v, held, below⟩
        · exact Nat.lt_of_lt_of_le seen (inv.locks.seen t)
        · rw [← inv.viewCount held] at below
          exact below
      refine ⟨_, inv.lockSlot owner allocated,
        fun truncating => kindIs ▸ truncates t truncating, ?_, rfl⟩
      refine Bool.eq_false_iff.mpr fun held => ?_
      have mine := (inv.locks.tie (.wlock idx) t).mpr held
      rw [owner] at mine
      cases mine

theorem lockBucket {k b : Nat} (order : ghost.role.emptiedBefore k b) :
    CoreTriple S t kind promise ghost (perform (.lock (.bucket k b)))
      fun _ ghost' => ∃ items, ghost' = ghost.takeBucket k b items := by
  refine act order fun s kinds g result s' inv truncates mine kindIs promised ran => ?_
  subst mine
  cases owner : s.owner (.bucket k b) with
  | some u =>
      simp only [Act.exec, owner] at ran
      cases ran
  | none =>
      simp only [Act.exec, owner] at ran
      cases ran
      obtain ⟨items, inv'⟩ := inv.lockBucket (t := t) owner
      exact ⟨_, inv', fun truncating => kindIs ▸ truncates t truncating, items, rfl⟩

theorem lockMutex :
    CoreTriple S t kind promise ghost (perform (.lock .structMutex))
      fun _ ghost' => ∃ free count, ghost' = ghost.takeMutex (MutexView.start free count) := by
  refine act trivial fun s kinds g result s' inv truncates mine kindIs promised ran => ?_
  subst mine
  cases owner : s.owner .structMutex with
  | some u =>
      simp only [Act.exec, owner] at ran
      cases ran
  | none =>
      simp only [Act.exec, owner] at ran
      cases ran
      obtain ⟨free, inv'⟩ := inv.lockMutex (t := t) owner
      exact ⟨_, inv', fun truncating => kindIs ▸ truncates t truncating, free, _, rfl⟩

theorem unlockSlot {idx : Nat} (held : ghost.slots idx = true)
    (done : ghost.role.lockedSlot ≠ some idx) :
    CoreTriple S t kind promise ghost (perform (.unlock (.wlock idx)))
      fun _ ghost' => ghost' = ghost.dropSlot idx := by
  refine act held fun s kinds g result s' inv truncates mine kindIs promised ran => ?_
  subst mine
  cases ran
  exact ⟨_, inv.unlockSlot held done, fun truncating => kindIs ▸ truncates t truncating, rfl⟩

theorem unlockSettled {idx : Nat} (settled : ghost.role.settled S.D S.linked idx)
    (held : ghost.slots idx = true) (unready : ghost.ready = none) :
    CoreTriple S t kind promise ghost (perform (.unlock (.wlock idx)))
      fun _ ghost' => ghost' = (ghost.become .idle).dropSlot idx := by
  refine act held fun s kinds g result s' inv truncates mine kindIs promised ran => ?_
  subst mine
  cases ran
  have idle := inv.settle settled unready (Or.inl rfl)
  have stillHeld : (Function.update g t ((g t).become .idle) t).slots idx = true := by
    rw [Function.update_self]
    exact held
  have unlocked := idle.unlockSlot stillHeld
    (by rw [Function.update_self]; exact fun clash => by cases clash)
  rw [Function.update_self, Function.update_idem] at unlocked
  refine ⟨_, unlocked, ?_, rfl⟩
  rintro ⟨c, e, clash⟩
  cases clash

theorem unlockBucket {k b : Nat} (held : ghost.holds (.bucket k b))
    (order : ghost.role.emptiedUpTo k b) (done : S.linked → ghost.role.unbound S.D)
    (unready : ghost.ready = none) :
    CoreTriple S t kind promise ghost (perform (.unlock (.bucket k b)))
      fun _ ghost' => ghost' = ghost.dropBucket k b := by
  refine act ⟨held, order⟩ fun s kinds g result s' inv truncates mine kindIs promised ran => ?_
  subst mine
  cases ran
  exact ⟨_, inv.unlockBucket held done unready,
    fun truncating => kindIs ▸ truncates t truncating, rfl⟩

theorem unlockMutex (held : ghost.mutex.isSome = true)
    (done : ghost.role = .idle ∨ ∃ idx, ghost.role = .live idx) :
    CoreTriple S t kind promise ghost (perform (.unlock .structMutex))
      fun _ ghost' => ghost' = ghost.dropMutex := by
  refine act held fun s kinds g result s' inv truncates mine kindIs promised ran => ?_
  subst mine
  cases ran
  exact ⟨_, inv.unlockMutex held done, fun truncating => kindIs ▸ truncates t truncating, rfl⟩

end CoreTriple

end Fastmem
