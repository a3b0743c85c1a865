/-
What a duplicate check finds out while it walks a locked chain.

A check passes one slot of the chain after another. A slot it has passed holds
no equal value of the key, and cannot get one before the bucket is unlocked;
when it has passed the whole chain, no slot of the table does, because a slot
with an equal value is chained in the same bucket.
-/

import Fastmem.Concurrent.ClearSteps

set_option autoImplicit false

namespace Fastmem

variable {n : Nat} {S : Setting n} {s : Core n} {g : Nat → Ghost n} {t idx k b : Nat}

namespace Ghost

/-- A check of key `k` begins. -/
def check (ghost : Ghost n) (k : Nat) (rec : Rec n) (self : Nat) : Ghost n :=
  { ghost with passed := some (k, rec, self, []) }

def pass (ghost : Ghost n) (y : Nat) : Ghost n :=
  { ghost with passed := ghost.passed.map fun (k, rec, self, items) => (k, rec, self, y :: items) }

def approve (ghost : Ghost n) (k : Nat) (rec : Rec n) (self : Nat) : Ghost n :=
  { ghost with clean := Function.update ghost.clean k (some (rec, self)), passed := none }

/-- The thread is not between writing an image and moving the row. -/
def Calm (ghost : Ghost n) : Prop :=
  (∀ i old new copied, ghost.role ≠ .writer i old new true copied) ∧
    ∀ i old new p, ghost.role ≠ .mover i old new p

end Ghost

namespace CoreInv

theorem recheck (inv : CoreInv S s g) {ghost' : Ghost n} (role : ghost'.role = (g t).role)
    (holds : ∀ l, ghost'.holds l ↔ (g t).holds l) (mutex : ghost'.mutex = (g t).mutex)
    (seen : ghost'.seen = (g t).seen) (known : ghost'.known = (g t).known)
    (ready : ghost'.ready = (g t).ready)
    (checked : S.distinct → CheckedOk S.D s.slot (rolesOf g) (g t) →
      CheckedOk S.D s.slot (rolesOf g) ghost') :
    CoreInv S s (Function.update g t ghost') := by
  refine inv.relock role (inv.locks.keep (Nat.le_refl _) holds ?_)
    ((inv.ok t).mono role fun l => (holds l).mpr) ?_ ?_ fun distinct checks =>
      checked distinct (checks t)
  · rw [seen]
    exact inv.locks.seen t
  · intro free v _ views mine
    rw [mutex] at mine
    exact views t v mine
  · intro linked chain place _ knowns
    constructor
    · intro k b items found
      rw [known] at found
      exact (knowns t).known k b items found
    · intro k b prepared
      rw [ready] at prepared
      rw [holds, role]
      exact (knowns t).ready k b prepared

theorem beginCheck (inv : CoreInv S s g) {rec : Rec n} (self : Nat)
    (held : (g t).holds (.bucket k (fmCoreKeyBucket (S.D.keydef k) rec))) :
    CoreInv S s (Function.update g t ((g t).check k rec self)) := by
  have holds : ∀ l, ((g t).check k rec self).holds l ↔ (g t).holds l := fun l => by
    cases l <;> exact Iff.rfl
  refine inv.recheck rfl holds rfl rfl rfl rfl fun _ checks => ⟨checks.clean, ?_⟩
  intro k' rec' self' items found
  cases found
  exact ⟨held, fun _ j member => absurd member List.not_mem_nil⟩

theorem occupies_data (inv : CoreInv S s g) (linked : S.linked) {j : Nat} {a : Rec n}
    (occupied : Occupies s.slot (rolesOf g) j k a) : (s.slot j).data = a := by
  rcases occupied with ⟨_, same⟩ | ⟨u, p, role, _⟩
  · exact same
  · exact (((inv.ok u).chaining role).2.2 linked).1

theorem passSlot (inv : CoreInv S s g) {y : Nat}
    (unequal : S.distinct → ∀ k' rec self items, (g t).passed = some (k', rec, self, items) →
      k' < S.D.keys → y ≠ self → ∀ a, Occupies s.slot (rolesOf g) y k' a →
        (S.D.keydef k').ops.cmpRecRec a rec ≠ 0) :
    CoreInv S s (Function.update g t ((g t).pass y)) := by
  have holds : ∀ l, ((g t).pass y).holds l ↔ (g t).holds l := fun l => by
    cases l <;> exact Iff.rfl
  refine inv.recheck rfl holds rfl rfl rfl rfl fun distinct checks => ⟨checks.clean, ?_⟩
  intro k' rec self items found
  cases before : (g t).passed with
  | none =>
      rw [show ((g t).pass y).passed = (g t).passed.map _ from rfl, before] at found
      cases found
  | some check =>
      obtain ⟨k₀, rec₀, self₀, items₀⟩ := check
      rw [show ((g t).pass y).passed = (g t).passed.map _ from rfl, before] at found
      cases found
      obtain ⟨held, passed⟩ := checks.passed k' rec self items₀ before
      refine ⟨held, fun valid j member other a occupied => ?_⟩
      rcases List.mem_cons.mp member with rfl | member
      · exact unequal distinct k' rec self items₀ before valid other a occupied
      · exact passed valid j member other a occupied

/-- A slot that takes up a value of the key is in the chain of its bucket, as far as the
holder of the bucket lock can tell. -/
theorem occupies_chained (inv : CoreInv S s g) (linked : S.linked) (valid : k < S.D.keys)
    {a : Rec n} {j : Nat} {items : List Nat} (calm : (g t).Calm)
    (known : (g t).known k b = some items) (unemptied : ¬ Emptied (rolesOf g) k b)
    (occupied : Occupies s.slot (rolesOf g) j k a)
    (bucket : fmCoreKeyBucket (S.D.keydef k) a = b) : j ∈ items := by
  obtain ⟨chain, place, chainInv, knowns⟩ := inv.chains linked
  have held : (g t).holds (.bucket k b) := by
    change ((g t).known k _).isSome = true
    rw [known]
    rfl
  suffices placed : place k j = some (fmCoreKeyBucket (S.D.keydef k) a) by
    rw [← (knowns t).known k _ items known, chainInv.members]
    rw [bucket] at placed
    exact ⟨placed, unemptied⟩
  have home : ∀ r : Rec n, homeOf S.D r k = some (fmCoreKeyBucket (S.D.keydef k) r) := fun r => by
    unfold homeOf
    rw [if_pos valid]
  rcases occupied with ⟨active, image⟩ | ⟨u, p, role, chained⟩
  · by_cases owned : ∃ u p, (rolesOf g u).place S.D = some (j, p)
    · obtain ⟨u, p, owned⟩ := owned
      rw [chainInv.owned u j p owned]
      change (g u).role.place S.D = _ at owned
      cases role : (g u).role with
      | idle | live _ | published | clearer _ _ => rw [role] at owned; cases owned
      | fresh i =>
          rw [role] at owned
          cases owned
          exact absurd active ((inv.ok u).fresh role).1.not_active
      | chaining i r q =>
          rw [role] at owned
          cases owned
          exact absurd active ((inv.ok u).chaining role).1.not_active
      | writer i old new odd copied =>
          rw [role] at owned
          cases owned
          obtain ⟨_, _, rest⟩ := (inv.ok u).writer role
          obtain ⟨data, early, locks⟩ := rest linked
          rw [home]
          cases copied with
          | false =>
              rw [if_neg Bool.false_ne_true, image] at data
              rw [data]
          | true =>
              rw [if_pos rfl, image] at data
              subst data
              have isOdd : odd = true := by
                cases odd with
                | true => rfl
                | false => cases early rfl
              subst isOdd
              by_cases changed : (S.D.keydef k).ops.cmpRecRec old a = 0
              · unfold fmCoreKeyBucket
                rw [S.hashes linked k valid old a changed]
              · have theirs := (locks rfl k (mem_changedKeys.mpr ⟨valid, changed⟩)).2
                rw [bucket] at theirs
                have same : u = t := inv.locks.sole held theirs
                subst same
                exact absurd role (calm.1 _ _ _ _)
      | mover i old new q =>
          rw [role] at owned
          cases owned
          obtain ⟨_, _, rest⟩ := (inv.ok u).mover role
          obtain ⟨data, _, locks⟩ := rest linked
          rw [image] at data
          subst data
          rcases locks k valid with there | ⟨_, theirs⟩
          · exact there
          · rw [bucket] at theirs
            have same : u = t := inv.locks.sole held theirs
            subst same
            exact absurd role (calm.2 _ _ _ _)
      | deleter i img q =>
          rw [role] at owned
          cases owned
          cases active.symm.trans ((inv.ok u).deleter role).1
      | retired i counted =>
          rw [role] at owned
          cases owned
          cases active.symm.trans ((inv.ok u).retired role)
    · rw [chainInv.others j (fun u p also => owned ⟨u, p, also⟩) k]
      unfold Slot.home
      rw [if_pos active, image, home]
  · rw [chainInv.owned u j p (by rw [role]; rfl) k]
    obtain ⟨_, _, rest⟩ := (inv.ok u).chaining role
    cases there : p k with
    | none => exact absurd there chained
    | some b' => rw [((rest linked).2 k b' there).2]

theorem approveKey (inv : CoreInv S s g) {rec : Rec n} (self : Nat) {items : List Nat}
    (calm : (g t).Calm)
    (known : (g t).known k (fmCoreKeyBucket (S.D.keydef k) rec) = some items)
    (passed : S.distinct → ∀ j ∈ items, j ≠ self → k < S.D.keys →
      ∀ a, Occupies s.slot (rolesOf g) j k a → (S.D.keydef k).ops.cmpRecRec a rec ≠ 0) :
    CoreInv S s (Function.update g t ((g t).approve k rec self)) := by
  have holds : ∀ l, ((g t).approve k rec self).holds l ↔ (g t).holds l := fun l => by
    cases l <;> exact Iff.rfl
  refine inv.recheck rfl holds rfl rfl rfl rfl fun distinct checks => ⟨?_, ?_⟩
  · intro k' rec' self' found
    by_cases same : k' = k
    · subst same
      rw [show ((g t).approve k' rec self).clean = Function.update (g t).clean k'
        (some (rec, self)) from rfl, Function.update_self] at found
      cases found
      refine ⟨?_, fun valid _ j a other occupied equal => ?_⟩
      · change ((g t).known k' _).isSome = true
        rw [known]
        rfl
      · have bucket : fmCoreKeyBucket (S.D.keydef k') a = fmCoreKeyBucket (S.D.keydef k') rec := by
          unfold fmCoreKeyBucket
          rw [(S.equivalent distinct).hashes k' valid a rec equal]
        have unemptied : ¬ Emptied (rolesOf g) k' (fmCoreKeyBucket (S.D.keydef k') rec) := by
          rintro ⟨u, c, e, role, _⟩
          exact (inv.unique distinct).1.uncleared u c e role
        have member := inv.occupies_chained (S.distinct_linked distinct) valid calm known
          unemptied occupied bucket
        exact passed distinct j member other valid a occupied equal
    · rw [show ((g t).approve k rec self).clean = Function.update (g t).clean k
        (some (rec, self)) from rfl, Function.update_of_ne same] at found
      exact checks.clean k' rec' self' found
  · intro k' rec' self' items' impossible
    cases impossible

end CoreInv

end Fastmem
