/-
Rows whose lock a thread holds.

While one thread holds the lock of an ACTIVE slot no other thread changes the
slot or gives the lock away. So what the holder found in the slot is still there
when it comes to write it, as long as its own steps in between leave slots and
slot locks alone.
-/

import Fastmem.Concurrent.QuietSystems
import Fastmem.Concurrent.RowReads
import Fastmem.Core.CallFrames

set_option autoImplicit false

namespace Fastmem

open ThreadSystem

variable {n : Nat}

section Others

variable {S : Setting n} {g : Nat → Ghost n} {s s' : Core n} {t u idx : Nat} {ρ : Type}
  {action : Act n ρ} {result : ρ}

theorem CoreInv.notHeld (inv : CoreInv S s g) (owner : s.owner (.wlock idx) = some t)
    (other : u ≠ t) : (g u).slots idx ≠ true := by
  intro holds
  have clash := (inv.locks.tie (.wlock idx) u).mpr holds
  rw [owner] at clash
  exact other (Option.some.inj clash).symm

theorem act_held (inv : CoreInv S s g) (permitted : Permits S (g u) action)
    (owner : s.owner (.wlock idx) = some t) (other : u ≠ t)
    (active : (s.slot idx).state = .active) (ran : Act.exec u action s = some (result, s')) :
    s'.slot idx = s.slot idx := by
  have free := inv.notHeld owner other
  have used : ¬ (s.slot idx).state.unused := fun unused => unused.not_active active
  have elsewhere : ∀ {j : Nat} {slot : Slot n}, idx ≠ j →
      s'.slot = Function.update s.slot j slot → s'.slot idx = s.slot idx := by
    intro j slot different updated
    rw [updated, Function.update_of_ne different]
  have unwritten : ∀ {old new : Rec n} {odd copied : Bool},
      (g u).role ≠ .writer idx old new odd copied :=
    fun role => free ((inv.ok u).writer role).2.1
  have unfilled : (g u).role ≠ .fresh idx := fun role => used ((inv.ok u).fresh role).1
  cases action with
  | storeData j rec =>
      by_cases here : idx = j
      · subst here
        rcases permitted with role | ⟨_, _, _, role⟩
        · exact absurd role unfilled
        · exact absurd role unwritten
      · cases ran
        exact elsewhere here rfl
  | storeByte j at_ byte =>
      by_cases here : idx = j
      · subst here
        rcases permitted with role | ⟨_, _, _, role⟩
        · exact absurd role unfilled
        · exact absurd role unwritten
      · cases ran
        exact elsewhere here rfl
  | bumpSeq j =>
      by_cases here : idx = j
      · subst here
        obtain ⟨_, _, _, _, role⟩ := permitted
        exact absurd role unwritten
      · cases ran
        exact elsewhere here rfl
  | bumpGen j =>
      by_cases here : idx = j
      · subst here
        rcases permitted with ⟨counted, role⟩ | ⟨_, holds⟩
        · cases ((inv.ok u).retired role).symm.trans active
        · exact absurd holds free
      · cases ran
        exact elsewhere here rfl
  | storeState j state =>
      by_cases here : idx = j
      swap
      · cases ran
        exact elsewhere here rfl
      subst here
      cases state with
      | active =>
          obtain ⟨rec, p, now | ⟨_, now⟩⟩ := permitted
          · exact absurd ((inv.ok u).chaining now).1 used
          · exact absurd now unfilled
      | deleting => exact absurd ((inv.ok u).live permitted).2 free
      | deleted =>
          obtain ⟨img, p, role⟩ := permitted
          cases ((inv.ok u).deleter role).1.symm.trans active
      | free => exact absurd permitted.2 free
  | initSlots c =>
      cases ran
      obtain ⟨v, held, isCount⟩ := permitted
      have beyond : ¬ idx / fmChunkSize = c := by
        rw [← isCount, ← inv.viewCount held]
        exact CoreInv.notInChunk (inv.roles.active idx active)
      exact if_neg beyond
  | lock l =>
      simp only [Act.exec] at ran
      split at ran
      · cases ran
        rfl
      · cases ran
  | _ =>
      cases ran
      rfl

theorem act_owner (inv : CoreInv S s g) (permitted : Permits S (g u) action)
    (owner : s.owner (.wlock idx) = some t) (other : u ≠ t)
    (ran : Act.exec u action s = some (result, s')) : s'.owner (.wlock idx) = some t := by
  cases action with
  | lock l =>
      simp only [Act.exec] at ran
      split at ran
      · rename_i unowned
        cases ran
        have different : Lock.wlock idx ≠ l := by
          intro same
          rw [← same, owner] at unowned
          cases unowned
        exact (owner_setOwner_of_ne different).trans owner
      · cases ran
  | unlock l =>
      have holds : (g u).holds l := by
        cases l with
        | wlock i => exact permitted
        | bucket k b => exact permitted.1
        | structMutex => exact permitted
      cases ran
      have different : Lock.wlock idx ≠ l := by
        intro same
        rw [← same] at holds
        exact inv.notHeld owner other holds
      exact (owner_setOwner_of_ne different).trans owner
  | initSlots c =>
      cases ran
      obtain ⟨v, held, isCount⟩ := permitted
      have allocated := inv.locks.below t idx ((inv.locks.tie (.wlock idx) t).mp owner)
      have beyond : ¬ idx / fmChunkSize = c := by
        rw [← isCount, ← inv.viewCount held]
        exact CoreInv.notInChunk allocated
      exact (if_neg beyond).trans owner
  | _ =>
      cases ran
      exact owner

end Others

/-! ### Steps that leave rows alone -/

structure SameRows (s s' : Core n) : Prop where
  slot : s'.slot = s.slot
  cell : s'.cell = s.cell

structure SameHeld (s s' : Core n) : Prop extends SameRows s s' where
  locks : ∀ idx, s'.owner (.wlock idx) = s.owner (.wlock idx)

theorem SameHeld.refl (s : Core n) : SameHeld s s := ⟨⟨rfl, rfl⟩, fun _ => rfl⟩

def Act.keepsHeld (ρ : Type) : Act n ρ → Prop
  | .lock (.bucket _ _) | .unlock (.bucket _ _) => True
  | action => Act.reads ρ action

theorem Act.reads.keepsHeld {ρ : Type} {action : Act n ρ} (reads : Act.reads ρ action) :
    Act.keepsHeld ρ action := by
  cases action with
  | lock l => cases reads
  | unlock l => cases reads
  | _ => exact reads

theorem Act.keepsHeld.same {ρ : Type} {action : Act n ρ} (kind : Act.keepsHeld ρ action)
    {t : Nat} {s s' : Core n} {result : ρ} (ran : Act.exec t action s = some (result, s')) :
    SameHeld s s' := by
  cases action with
  | lock l =>
      cases l with
      | wlock i => cases kind
      | structMutex => cases kind
      | bucket k b =>
          simp only [Act.exec] at ran
          split at ran
          · cases ran
            exact ⟨⟨rfl, rfl⟩, fun idx => owner_setOwner_of_ne fun clash => by cases clash⟩
          · cases ran
  | unlock l =>
      cases l with
      | wlock i => cases kind
      | structMutex => cases kind
      | bucket k b =>
          cases ran
          exact ⟨⟨rfl, rfl⟩, fun idx => owner_setOwner_of_ne fun clash => by cases clash⟩
  | loadState idx => cases ran; exact .refl s
  | loadGen idx => cases ran; exact .refl s
  | loadSeq idx => cases ran; exact .refl s
  | loadData idx => cases ran; exact .refl s
  | loadByte idx at_ => cases ran; exact .refl s
  | loadCell cell => cases ran; exact .refl s
  | loadChunkCnt => cases ran; exact .refl s
  | _ => cases kind

def Act.locking (ρ : Type) : Act n ρ → Prop
  | .lock _ | .unlock _ => True
  | _ => False

theorem Act.locking.same {ρ : Type} {action : Act n ρ} (kind : Act.locking ρ action) {t : Nat}
    {s s' : Core n} {result : ρ} (ran : Act.exec t action s = some (result, s')) :
    SameRows s s' := by
  cases action with
  | lock l =>
      simp only [Act.exec] at ran
      split at ran
      · cases ran
        exact ⟨rfl, rfl⟩
      · cases ran
  | unlock l =>
      cases ran
      exact ⟨rfl, rfl⟩
  | _ => cases kind

section Runs

variable {S : Setting n} {T : ThreadSystem (coreMachine n)} {R : T.Run} {t a b idx : Nat}

def OwnSteps (kept : Core n → Core n → Prop) (R : T.Run) (t a b : Nat) : Prop :=
  ∀ m, a ≤ m → m < b → R.tid m = t → kept (R.st m) (R.st (m + 1))

variable {kept : Core n → Core n → Prop}

theorem OwnSteps.trans {c : Nat} (first : OwnSteps kept R t a b) (second : OwnSteps kept R t b c) :
    OwnSteps kept R t a c := by
  intro m lower upper
  rcases Nat.lt_or_ge m b with earlier | later
  · exact first m lower earlier
  · exact second m later upper

theorem OwnSteps.until {c : Nat} (steps : OwnSteps kept R t a c) (upper : b ≤ c) :
    OwnSteps kept R t a b :=
  fun m lower earlier => steps m lower (by omega)

theorem OwnSteps.rows (steps : OwnSteps SameHeld R t a b) : OwnSteps SameRows R t a b :=
  fun m lower upper own => (steps m lower upper own).toSameRows

abbrev Calm (R : T.Run) (t a b : Nat) : Prop := OwnSteps SameHeld R t a b

theorem Performed.steps {α : Type} {condition : (ρ : Type) → Act n ρ → Prop}
    (refl : ∀ s, kept s s)
    (acts : ∀ {ρ : Type} {action : Act n ρ} {s s' : Core n} {result : ρ}, condition ρ action →
      Act.exec t action s = some (result, s') → kept s s')
    {program : CoreProg n α} {value : α} (performed : Performed R t a program b value)
    (performs : program.Performs condition) : OwnSteps kept R t a b := by
  have steps := Does.keeps (M := (coreMachine n).recorded Act.mark)
    (fun p q => kept p.1 q.1) (fun p => refl p.1) ?_ performed performs
  · exact steps
  · intro ρ action p q result kind ran
    simp only [Machine.recorded, Option.map_eq_some_iff] at ran
    obtain ⟨⟨_, after⟩, ran, _, rfl⟩ := ran
    exact acts kind ran

theorem Performed.calm {α : Type} {program : CoreProg n α} {value : α}
    (performed : Performed R t a program b value) (performs : program.Performs Act.keepsHeld) :
    Calm R t a b :=
  performed.steps SameHeld.refl (fun kind ran => kind.same ran) performs

theorem Performed.rows {α : Type} {program : CoreProg n α} {value : α}
    (performed : Performed R t a program b value) (performs : program.Performs Act.locking) :
    OwnSteps SameRows R t a b :=
  performed.steps (fun _ => ⟨rfl, rfl⟩) (fun kind ran => kind.same ran) performs

structure KeepsSlot {β : Type} (view : Slot n → β) (idx : Nat) (s s' : Core n) : Prop where
  lock : s'.owner (.wlock idx) = s.owner (.wlock idx)
  state : (s'.slot idx).state = (s.slot idx).state
  view : view (s'.slot idx) = view (s.slot idx)

theorem SameHeld.keepsSlot {s s' : Core n} (same : SameHeld s s') : KeepsSlot id idx s s' := by
  refine ⟨same.locks idx, ?_, ?_⟩
  · rw [same.slot]
  · rw [same.slot]

abbrev KeepsLock (R : T.Run) (t idx a b : Nat) : Prop :=
  OwnSteps (fun s s' => s'.owner (.wlock idx) = s.owner (.wlock idx)) R t a b

theorem OwnSteps.keepsLock (calm : OwnSteps SameHeld R t a b) : KeepsLock R t idx a b :=
  fun m lower upper own => (calm m lower upper own).locks idx

theorem held_owner (explained : ∀ i, i ≤ R.len → ∃ g, Quietly S (R.cfg i) g) (order : a ≤ b)
    (bound : b ≤ R.len) (keeps : KeepsLock R t idx a b)
    (owner : (R.st a).owner (.wlock idx) = some t) : (R.st b).owner (.wlock idx) = some t := by
  induction b, order using Nat.le_induction with
  | base => exact owner
  | succ b order ih =>
      have held := ih (Nat.le_of_succ_le bound) (keeps.until (Nat.le_succ b))
      by_cases own : R.tid b = t
      · exact (keeps b order (Nat.lt_succ_self b) own).trans held
      · rcases R.acts bound with ⟨call, ρ, action, next, result, busy, _, ran, _⟩ | ⟨_, same⟩
        · obtain ⟨g, quietly⟩ := explained b (Nat.le_of_succ_le bound)
          exact act_owner quietly.inv (quietly.permits busy) held own ran
        · rw [same]
          exact held

theorem act_owner_back {u : Nat} {ρ : Type} {action : Act n ρ} {result : ρ} {s s' : Core n}
    (other : u ≠ t) (ran : Act.exec u action s = some (result, s'))
    (owner : s'.owner (.wlock idx) = some t) : s.owner (.wlock idx) = some t := by
  cases action with
  | lock l =>
      simp only [Act.exec] at ran
      split at ran
      · cases ran
        by_cases same : Lock.wlock idx = l
        · subst same
          have mine : (s.setOwner (.wlock idx) (some u)).owner (.wlock idx) = some u :=
            Function.update_self ..
          rw [mine] at owner
          exact absurd (Option.some.inj owner) other
        · exact (owner_setOwner_of_ne same).symm.trans owner
      · cases ran
  | unlock l =>
      cases ran
      by_cases same : Lock.wlock idx = l
      · subst same
        have none : (s.setOwner (.wlock idx) none).owner (.wlock idx) = none :=
          Function.update_self ..
        rw [none] at owner
        cases owner
      · exact (owner_setOwner_of_ne same).symm.trans owner
  | initSlots c =>
      cases ran
      change (if idx / fmChunkSize = c then none else s.owner (.wlock idx)) = some t at owner
      split at owner
      · cases owner
      · exact owner
  | _ =>
      cases ran
      exact owner

theorem held_back (order : a ≤ b) (bound : b ≤ R.len) (keeps : KeepsLock R t idx a b)
    (owner : (R.st b).owner (.wlock idx) = some t) : (R.st a).owner (.wlock idx) = some t := by
  induction b, order using Nat.le_induction with
  | base => exact owner
  | succ b order ih =>
      refine ih (Nat.le_of_succ_le bound) (keeps.until (Nat.le_succ b)) ?_
      by_cases own : R.tid b = t
      · exact (keeps b order (Nat.lt_succ_self b) own).symm.trans owner
      · rcases R.acts bound with ⟨call, ρ, action, next, result, _, _, ran, _⟩ | ⟨_, same⟩
        · exact act_owner_back own ran owner
        · rw [← same]
          exact owner

/-- An ACTIVE row is, as far as the view goes, as the holder of its lock leaves it. -/
theorem held_view {β : Type} (view : Slot n → β)
    (explained : ∀ i, i ≤ R.len → ∃ g, Quietly S (R.cfg i) g) (order : a ≤ b) (bound : b ≤ R.len)
    (keeps : OwnSteps (KeepsSlot view idx) R t a b)
    (owner : (R.st a).owner (.wlock idx) = some t)
    (active : ((R.st a).slot idx).state = .active) :
    (R.st b).owner (.wlock idx) = some t ∧ ((R.st b).slot idx).state = .active ∧
      view ((R.st b).slot idx) = view ((R.st a).slot idx) := by
  induction b, order using Nat.le_induction with
  | base => exact ⟨owner, active, rfl⟩
  | succ b order ih =>
      obtain ⟨held, still, same⟩ := ih (Nat.le_of_succ_le bound) (keeps.until (Nat.le_succ b))
      by_cases own : R.tid b = t
      · have step := keeps b order (Nat.lt_succ_self b) own
        exact ⟨step.lock.trans held, step.state.trans still, step.view.trans same⟩
      · rcases R.acts bound with ⟨call, ρ, action, next, result, busy, _, ran, _⟩ | ⟨_, unmoved⟩
        · obtain ⟨g, quietly⟩ := explained b (Nat.le_of_succ_le bound)
          have permitted := quietly.permits busy
          have slot : (R.st (b + 1)).slot idx = (R.st b).slot idx :=
            act_held quietly.inv permitted held own still ran
          refine ⟨act_owner quietly.inv permitted held own ran, ?_, ?_⟩
          · rw [slot]
            exact still
          · rw [slot]
            exact same
        · rw [unmoved]
          exact ⟨held, still, same⟩

/-- An ACTIVE row stays as it is while its lock is held and its holder is calm. -/
theorem held_slot (explained : ∀ i, i ≤ R.len → ∃ g, Quietly S (R.cfg i) g) (order : a ≤ b)
    (bound : b ≤ R.len) (calm : Calm R t a b) (owner : (R.st a).owner (.wlock idx) = some t)
    (active : ((R.st a).slot idx).state = .active) :
    (R.st b).slot idx = (R.st a).slot idx :=
  (held_view id explained order bound
    (fun m lower upper own => (calm m lower upper own).keepsSlot) owner active).2.2

end Runs

end Fastmem
