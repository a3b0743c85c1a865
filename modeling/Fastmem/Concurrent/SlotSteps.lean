/-
Steps of a thread on the slot it works on.

Such a step changes that slot, perhaps the row counter, and the thread's role.
What the other threads rely on is not touched: nobody else works on the slot,
it is not on the freelist, and it stays in the chains it was in.
-/

import Fastmem.Concurrent.LockSteps

set_option autoImplicit false

namespace Fastmem

variable {n : Nat} {S : Setting n} {s : Core n} {g : Nat → Ghost n} {t idx : Nat}

def Ghost.become (ghost : Ghost n) (role : Role n) : Ghost n := { ghost with role := role }

theorem Ghost.become_holds (ghost : Ghost n) (role : Role n) (l : Lock) :
    (ghost.become role).holds l ↔ ghost.holds l := by
  cases l <;> rfl

theorem Role.place_slot {D : ShareDef n} {role : Role n} {i : Nat} {p : Nat → Option Nat}
    (placed : role.place D = some (i, p)) : role.slot = some i := by
  cases role <;> simp_all [Role.place, Role.slot]

def Role.chained (D : ShareDef n) (role : Role n) (slot : Slot n) : Nat → Option Nat :=
  match role.place D with
  | some (_, p) => p
  | none => slot.home D

/-- Only thread `t` works on slot `idx`, and on no other slot. -/
structure Mine (count : Nat) (roles : Nat → Role n) (t idx : Nat) : Prop where
  sole : ∀ u, (roles u).slot = some idx → u = t
  own : ∀ i, (roles t).slot = some i → i = idx
  below : idx < count
  uncleared : ∀ cleared emptied, roles t ≠ .clearer cleared emptied

structure Role.Stays (role : Role n) (idx : Nat) : Prop where
  own : ∀ i, role.slot = some i → i = idx
  uncleared : ∀ cleared emptied, role ≠ .clearer cleared emptied

theorem Role.stays_of_slot {role : Role n} (own : role.slot = some idx) : role.Stays idx where
  own i also := Option.some.inj (also.symm.trans own)
  uncleared cleared emptied clash := by
    rw [clash] at own
    cases own

theorem Role.stays_idle : (Role.idle : Role n).Stays idx where
  own i worksOn := by cases worksOn
  uncleared cleared emptied clash := by cases clash

theorem Role.stays_published : (Role.published : Role n).Stays idx where
  own i worksOn := by cases worksOn
  uncleared cleared emptied clash := by cases clash

section Parts

variable {slot : Nat → Slot n} {roles : Nat → Role n} {count : Nat} {slot' : Slot n}
  {role' : Role n}

theorem RoleInv.mine (inv : RoleInv slot count roles) (worksOn : (roles t).slot = some idx) :
    Mine count roles t idx where
  sole u also := inv.exclusive u t idx also worksOn
  own i also := Option.some.inj (also.symm.trans worksOn)
  below := inv.below t idx worksOn
  uncleared cleared emptied role := by
    rw [role] at worksOn
    cases worksOn

theorem Mine.other {i u : Nat} (mine : Mine count roles t idx)
    (worksOn : (roles u).slot = some i) (different : i ≠ idx) : u ≠ t := by
  rintro rfl
  exact different (mine.own i worksOn)

theorem RoleInv.ownSlot (inv : RoleInv slot count roles) (mine : Mine count roles t idx)
    (stays : role'.Stays idx)
    (deleting : slot'.state = .deleting → ∃ img p, role' = .deleter idx img p)
    (parity : slot'.seq % 2 = 1 ↔ ∃ old new copied, role' = .writer idx old new true copied)
    (clearing : (∃ img p, role' = .deleter idx img p) ∨ (∃ c, role' = .retired idx c) →
      ∀ u cleared emptied, roles u ≠ .clearer cleared emptied) :
    RoleInv (Function.update slot idx slot') count (Function.update roles t role') where
  exclusive u v i atU atV := by
    by_cases uSame : u = t
    · by_cases vSame : v = t
      · rw [uSame, vSame]
      · rw [uSame, Function.update_self] at atU
        rw [Function.update_of_ne vSame] at atV
        rw [stays.own i atU] at atV
        exact absurd (mine.sole v atV) vSame
    · rw [Function.update_of_ne uSame] at atU
      by_cases vSame : v = t
      · rw [vSame, Function.update_self] at atV
        rw [stays.own i atV] at atU
        exact absurd (mine.sole u atU) uSame
      · rw [Function.update_of_ne vSame] at atV
        exact inv.exclusive u v i atU atV
  below u i held := by
    by_cases same : u = t
    · rw [same, Function.update_self] at held
      rw [stays.own i held]
      exact mine.below
    · rw [Function.update_of_ne same] at held
      exact inv.below u i held
  deleting i now := by
    by_cases same : i = idx
    · subst same
      rw [Function.update_self] at now
      obtain ⟨img, p, role⟩ := deleting now
      exact ⟨t, img, p, by rw [Function.update_self, role]⟩
    · rw [Function.update_of_ne same] at now
      obtain ⟨u, img, p, role⟩ := inv.deleting i now
      have other : u ≠ t := mine.other (by rw [role]; rfl) same
      exact ⟨u, img, p, by rw [Function.update_of_ne other, role]⟩
  parity i := by
    by_cases same : i = idx
    · subst same
      rw [Function.update_self, parity]
      constructor
      · rintro ⟨old, new, copied, role⟩
        exact ⟨t, old, new, copied, by rw [Function.update_self, role]⟩
      · rintro ⟨u, old, new, copied, role⟩
        by_cases own : u = t
        · subst own
          rw [Function.update_self] at role
          exact ⟨old, new, copied, role⟩
        · rw [Function.update_of_ne own] at role
          exact absurd (mine.sole u (by rw [role]; rfl)) own
    · rw [Function.update_of_ne same, inv.parity i]
      constructor
      · rintro ⟨u, old, new, copied, role⟩
        have other : u ≠ t := mine.other (by rw [role]; rfl) same
        exact ⟨u, old, new, copied, by rw [Function.update_of_ne other, role]⟩
      · rintro ⟨u, old, new, copied, role⟩
        by_cases own : u = t
        · subst own
          rw [Function.update_self] at role
          exact absurd (stays.own i (by rw [role]; rfl)) same
        · rw [Function.update_of_ne own] at role
          exact ⟨u, old, new, copied, role⟩
  active i now := by
    by_cases same : i = idx
    · rw [same]
      exact mine.below
    · rw [Function.update_of_ne same] at now
      exact inv.active i now
  unallocated i above := by
    have other : i ≠ idx := by
      rintro rfl
      exact Nat.not_lt.mpr above mine.below
    rw [Function.update_of_ne other]
    exact inv.unallocated i above
  clearing u cleared emptied now v i := by
    have other : u ≠ t := by
      rintro rfl
      rw [Function.update_self] at now
      exact stays.uncleared cleared emptied now
    rw [Function.update_of_ne other] at now
    by_cases own : v = t
    · subst own
      rw [Function.update_self]
      constructor
      · intro img p role
        have here : i = idx := stays.own i (by rw [role]; rfl)
        subst here
        exact clearing (Or.inl ⟨img, p, role⟩) u cleared emptied now
      · intro c role
        have here : i = idx := stays.own i (by rw [role]; rfl)
        subst here
        exact clearing (Or.inr ⟨c, role⟩) u cleared emptied now
    · rw [Function.update_of_ne own]
      exact inv.clearing u cleared emptied now v i

theorem RoleOk.frame {slots' : Nat → Slot n} {ghost : Ghost n} (ok : RoleOk S slot ghost)
    (same : ∀ i, ghost.role.slot = some i → slots' i = slot i)
    (cleared : ∀ c e, ghost.role = .clearer c e → ∀ i, i < c → (slot i).state.unused →
      (slots' i).state.unused) : RoleOk S slots' ghost := by
  unfold RoleOk at *
  cases now : ghost.role with
  | idle => trivial
  | live i | fresh i | chaining i _ _ | writer i _ _ _ _ | mover i _ _ _ | deleter i _ _
  | retired i _ =>
      simp only [now] at ok ⊢
      rw [same i (by rw [now]; rfl)]
      exact ok
  | published =>
      simp only [now] at ok ⊢
      exact ok
  | clearer c e =>
      simp only [now] at ok ⊢
      exact ⟨ok.1, fun i below => cleared c e now i below (ok.2 i below)⟩

theorem Spare.ownSlot {i : Nat} (spare : Spare slot count roles i)
    (mine : Mine count roles t idx) (stays : role'.Stays idx)
    (taken : (roles t).slot = some idx ∨ (slot idx).state = .active) :
    Spare (Function.update slot idx slot') count (Function.update roles t role') i := by
  obtain ⟨below, unused, nobody⟩ := spare
  have other : i ≠ idx := by
    rintro rfl
    rcases taken with worksOn | active
    · exact nobody t worksOn
    · exact unused.not_active active
  refine ⟨below, ?_, fun u => ?_⟩
  · rw [Function.update_of_ne other]
    exact unused
  · by_cases own : u = t
    · subst own
      rw [Function.update_self]
      exact fun clash => other (stays.own i clash)
    · rw [Function.update_of_ne own]
      exact nobody u

theorem Emptied.keep {k b : Nat} (before : ∀ c e, roles t ≠ .clearer c e)
    (after : ∀ c e, role' ≠ .clearer c e) :
    Emptied (Function.update roles t role') k b ↔ Emptied roles k b := by
  constructor
  · rintro ⟨u, c, e, role, emptied⟩
    by_cases own : u = t
    · subst own
      rw [Function.update_self] at role
      exact absurd role (after c e)
    · rw [Function.update_of_ne own] at role
      exact ⟨u, c, e, role, emptied⟩
  · rintro ⟨u, c, e, role, emptied⟩
    have other : u ≠ t := by
      rintro rfl
      exact before c e role
    exact ⟨u, c, e, by rw [Function.update_of_ne other, role], emptied⟩

theorem ChainInv.mine {D : ShareDef n} {cell : Cell → Option Nat} {chain : ChainLists}
    {place : Places} (inv : ChainInv D slot cell roles chain place)
    (mine : Mine count roles t idx) (k : Nat) :
    place k idx = (roles t).chained D (slot idx) k := by
  unfold Role.chained
  cases placed : (roles t).place D with
  | some pair =>
      obtain ⟨i, p⟩ := pair
      have here : i = idx := mine.own i (Role.place_slot placed)
      subst here
      exact inv.owned t i p placed k
  | none =>
      refine inv.others idx (fun u p also => ?_) k
      have same := mine.sole u (Role.place_slot also)
      subst same
      rw [placed] at also
      cases also

theorem ChainInv.ownSlot {D : ShareDef n} {cell : Cell → Option Nat} {chain : ChainLists}
    {place : Places} (inv : ChainInv D slot cell roles chain place)
    (mine : Mine count roles t idx) (stays : role'.Stays idx)
    (same : ∀ k, role'.chained D slot' k = (roles t).chained D (slot idx) k) :
    ChainInv D (Function.update slot idx slot') cell (Function.update roles t role') chain
      place where
  chains := inv.chains
  members k b i := by
    rw [inv.members, Emptied.keep mine.uncleared stays.uncleared]
  owned u i p placed k := by
    by_cases own : u = t
    · subst own
      rw [Function.update_self] at placed
      have here : i = idx := stays.own i (Role.place_slot placed)
      subst here
      rw [inv.mine mine, ← same k]
      unfold Role.chained
      rw [placed]
    · rw [Function.update_of_ne own] at placed
      exact inv.owned u i p placed k
  others i nobody k := by
    by_cases here : i = idx
    · subst here
      rw [inv.mine mine, ← same k, Function.update_self]
      unfold Role.chained
      cases placed : role'.place D with
      | none => rfl
      | some pair =>
          obtain ⟨j, p⟩ := pair
          have same : j = i := stays.own j (Role.place_slot placed)
          subst same
          exact absurd placed (by simpa using nobody t p)
    · rw [Function.update_of_ne here]
      refine inv.others i (fun u p placed => ?_) k
      by_cases own : u = t
      · subst own
        exact here (mine.own i (Role.place_slot placed))
      · exact nobody u p (by rw [Function.update_of_ne own]; exact placed)

/-! ### The row counter -/

theorem Counted.below (inv : RoleInv slot count roles) {i : Nat}
    (counted : Counted slot roles i) : i < count := by
  rcases counted with active | ⟨u, img, p, role⟩ | ⟨u, role⟩
  · exact inv.active i active
  · exact inv.below u i (by rw [role]; rfl)
  · exact inv.below u i (by rw [role]; rfl)

theorem counted_finite (inv : RoleInv slot count roles) :
    {i | Counted slot roles i}.Finite :=
  (Set.finite_lt_nat count).subset fun _ counted => counted.below inv

theorem Counted.other {i : Nat} (mine : Mine count roles t idx) (stays : role'.Stays idx)
    (different : i ≠ idx) :
    Counted (Function.update slot idx slot') (Function.update roles t role') i ↔
      Counted slot roles i := by
  have roleOf : ∀ role : Role n, role.slot = some i →
      ((∃ u, Function.update roles t role' u = role) ↔ ∃ u, roles u = role) := by
    intro role worksOn
    constructor
    · rintro ⟨u, now⟩
      by_cases own : u = t
      · subst own
        rw [Function.update_self] at now
        exact absurd (stays.own i (by rw [now]; exact worksOn)) different
      · rw [Function.update_of_ne own] at now
        exact ⟨u, now⟩
    · rintro ⟨u, now⟩
      have other : u ≠ t := mine.other (by rw [now]; exact worksOn) different
      exact ⟨u, by rw [Function.update_of_ne other, now]⟩
  unfold Counted
  rw [Function.update_of_ne different]
  refine or_congr Iff.rfl (or_congr ?_ (roleOf _ rfl))
  constructor
  · rintro ⟨u, img, p, now⟩
    obtain ⟨v, before⟩ := (roleOf (.deleter i img p) rfl).mp ⟨u, now⟩
    exact ⟨v, img, p, before⟩
  · rintro ⟨u, img, p, now⟩
    obtain ⟨v, after⟩ := (roleOf (.deleter i img p) rfl).mpr ⟨u, now⟩
    exact ⟨v, img, p, after⟩

open Classical in
noncomputable def weight (slot : Nat → Slot n) (roles : Nat → Role n) (idx : Nat) : Int :=
  if Counted slot roles idx then 1 else 0

theorem ncard_change (idx : Nat) {A B : Set Nat} (finite : A.Finite) (off : ∀ i, i ≠ idx → (i ∈ B ↔ i ∈ A))
    [Decidable (idx ∈ A)] [Decidable (idx ∈ B)] :
    (B.ncard : Int) + (if idx ∈ A then 1 else 0) = A.ncard + (if idx ∈ B then 1 else 0) := by
  have agree : B \ {idx} = A \ {idx} := by
    ext i
    simp only [Set.mem_sdiff, Set.mem_singleton_iff]
    constructor
    · rintro ⟨member, different⟩
      exact ⟨(off i different).mp member, different⟩
    · rintro ⟨member, different⟩
      exact ⟨(off i different).mpr member, different⟩
  have finiteB : B.Finite :=
    (finite.insert idx).subset fun i member => by
      by_cases same : i = idx
      · exact Or.inl same
      · exact Or.inr ((off i same).mp member)
  have size : ∀ C : Set Nat, C.Finite → ∀ [Decidable (idx ∈ C)],
      (C.ncard : Int) = (C \ {idx}).ncard + (if idx ∈ C then 1 else 0) := by
    intro C finiteC _
    split
    · rename_i member
      rw [← Set.ncard_sdiff_singleton_add_one member finiteC]
      push_cast
      rfl
    · rename_i absent
      rw [Set.sdiff_singleton_eq_self absent]
      omega
  rw [size A finite, size B finiteB, agree]
  omega

theorem CountInv.ownSlot {records records' : Int} (inv : CountInv slot records roles)
    (roleInv : RoleInv slot count roles) (mine : Mine count roles t idx)
    (stays : role'.Stays idx)
    (balance : records' + uncounted (Function.update roles t role') + weight slot roles idx =
      records + uncounted roles +
        weight (Function.update slot idx slot') (Function.update roles t role') idx) :
    CountInv (Function.update slot idx slot') records' (Function.update roles t role') := by
  classical
  intro uncleared
  have before : ∀ u cleared emptied, roles u ≠ .clearer cleared emptied := by
    intro u cleared emptied role
    have other : u ≠ t := by
      rintro rfl
      exact mine.uncleared cleared emptied role
    exact uncleared u cleared emptied (by rw [Function.update_of_ne other, role])
  have counted := inv before
  have change := ncard_change idx
    (A := {i | Counted slot roles i})
    (B := {i | Counted (Function.update slot idx slot') (Function.update roles t role') i})
    (counted_finite roleInv) fun i different => Counted.other mine stays different
  unfold weight at balance
  simp only [Set.mem_ofPred_eq] at change
  omega

def Role.weight (role : Role n) (slot : Slot n) : Int :=
  if slot.state = .active then 1
  else
    match role with
    | .deleter _ _ _ | .retired _ false => 1
    | _ => 0

def Role.pending : Role n → Int
  | .published => 1
  | _ => 0

theorem weight_own (mine : Mine count roles t idx) :
    weight slot roles idx = (roles t).weight (slot idx) := by
  classical
  have deleter : (∃ u img p, roles u = .deleter idx img p) ↔
      ∃ img p, roles t = .deleter idx img p := by
    constructor
    · rintro ⟨u, img, p, role⟩
      have same : u = t := mine.sole u (by rw [role]; rfl)
      exact ⟨img, p, same ▸ role⟩
    · rintro ⟨img, p, role⟩
      exact ⟨t, img, p, role⟩
  have retired : (∃ u, roles u = .retired idx false) ↔ roles t = .retired idx false := by
    constructor
    · rintro ⟨u, role⟩
      have same : u = t := mine.sole u (by rw [role]; rfl)
      exact same ▸ role
    · exact fun role => ⟨t, role⟩
  unfold weight Role.weight Counted
  rw [deleter, retired]
  by_cases active : (slot idx).state = .active
  · simp [active]
  · simp only [active, false_or, if_false]
    have own := mine.own
    cases role : roles t with
    | deleter i img p =>
        have here : i = idx := own i (by rw [role]; rfl)
        simp [here]
    | retired i counted =>
        have here : i = idx := own i (by rw [role]; rfl)
        cases counted <;> simp [here]
    | idle | live _ | fresh _ | chaining _ _ _ | published | writer _ _ _ _ _ | mover _ _ _ _
    | clearer _ _ => simp

theorem Mine.update (mine : Mine count roles t idx) (stays : role'.Stays idx) :
    Mine count (Function.update roles t role') t idx where
  sole u also := by
    by_contra other
    rw [Function.update_of_ne other] at also
    exact other (mine.sole u also)
  own i also := by
    rw [Function.update_self] at also
    exact stays.own i also
  below := mine.below
  uncleared := by
    rw [Function.update_self]
    exact stays.uncleared

theorem uncounted_update
    (alone : (roles t).pending + role'.pending ≠ 0 → ∀ u, u ≠ t → roles u ≠ .published) :
    uncounted (Function.update roles t role') = uncounted roles + role'.pending -
      (roles t).pending := by
  classical
  have pendingOf : ∀ role : Role n, role.pending = if role = .published then 1 else 0 := by
    intro role
    cases role <;> simp [Role.pending]
  by_cases quiet : (roles t).pending + role'.pending = 0
  · have neither : roles t ≠ .published ∧ role' ≠ .published := by
      rw [pendingOf, pendingOf] at quiet
      constructor <;> intro role <;> simp only [role, if_true] at quiet <;> split at quiet <;> omega
    have same : (∃ u, Function.update roles t role' u = .published) ↔
        ∃ u, roles u = .published := by
      constructor
      · rintro ⟨u, role⟩
        by_cases own : u = t
        · rw [own, Function.update_self] at role
          exact absurd role neither.2
        · exact ⟨u, by rwa [Function.update_of_ne own] at role⟩
      · rintro ⟨u, role⟩
        have other : u ≠ t := by
          rintro rfl
          exact neither.1 role
        exact ⟨u, by rw [Function.update_of_ne other, role]⟩
    unfold uncounted
    rw [pendingOf, pendingOf, if_neg neither.1, if_neg neither.2]
    simp only [same]
    omega
  · have only : ∀ roles' : Nat → Role n, (∀ u, u ≠ t → roles' u = roles u) →
        uncounted roles' = (roles' t).pending := by
      intro roles' others
      unfold uncounted
      rw [pendingOf]
      congr 1
      refine propext ⟨?_, fun role => ⟨t, role⟩⟩
      rintro ⟨u, role⟩
      by_cases own : u = t
      · exact own ▸ role
      · rw [others u own] at role
        exact absurd role (alone quiet u own)
    rw [only roles fun _ _ => rfl, only (Function.update roles t role') fun u other => by
      rw [Function.update_of_ne other], Function.update_self]
    omega

/-! ### Unique keys -/

def Role.occupies (role : Role n) (slot : Slot n) (idx k : Nat) (rec : Rec n) : Prop :=
  (slot.state = .active ∧ slot.data = rec) ∨ ∃ place, role = .chaining idx rec place ∧
    place k ≠ none

theorem occupies_own (mine : Mine count roles t idx) {k : Nat} {rec : Rec n} :
    Occupies slot roles idx k rec ↔ (roles t).occupies (slot idx) idx k rec := by
  unfold Occupies Role.occupies
  refine or_congr Iff.rfl ?_
  constructor
  · rintro ⟨u, p, role, chained⟩
    have same : u = t := mine.sole u (by rw [role]; rfl)
    exact ⟨p, same ▸ role, chained⟩
  · rintro ⟨p, role, chained⟩
    exact ⟨t, p, role, chained⟩

theorem occupies_other (mine : Mine count roles t idx) (stays : role'.Stays idx) {i k : Nat}
    {rec : Rec n} (different : i ≠ idx) :
    Occupies (Function.update slot idx slot') (Function.update roles t role') i k rec ↔
      Occupies slot roles i k rec := by
  unfold Occupies
  rw [Function.update_of_ne different]
  refine or_congr Iff.rfl ?_
  constructor
  · rintro ⟨u, p, role, chained⟩
    by_cases own : u = t
    · rw [own, Function.update_self] at role
      exact absurd (stays.own i (by rw [role]; rfl)) different
    · rw [Function.update_of_ne own] at role
      exact ⟨u, p, role, chained⟩
  · rintro ⟨u, p, role, chained⟩
    have other : u ≠ t := mine.other (by rw [role]; rfl) different
    exact ⟨u, p, by rw [Function.update_of_ne other, role], chained⟩

theorem UniqueInv.shrink {D : ShareDef n} (inv : UniqueInv D slot roles)
    {slots' : Nat → Slot n} {roles' : Nat → Role n}
    (fewer : ∀ i k a, k < D.keys → Occupies slots' roles' i k a → Occupies slot roles i k a)
    (uncleared : ∀ u cleared emptied, roles' u ≠ .clearer cleared emptied) :
    UniqueInv D slots' roles' where
  unique k valid i j a b different atI atJ :=
    inv.unique k valid i j a b different (fewer i k a valid atI) (fewer j k b valid atJ)
  uncleared := uncleared

theorem CheckedOk.shrink {D : ShareDef n} {ghost : Ghost n} (ok : CheckedOk D slot roles ghost)
    {slots' : Nat → Slot n} {roles' : Nat → Role n}
    (fewer : ∀ i k a, k < D.keys → Occupies slots' roles' i k a → Occupies slot roles i k a) :
    CheckedOk D slots' roles' ghost where
  clean k rec self found := by
    obtain ⟨held, clean⟩ := ok.clean k rec self found
    exact ⟨held, fun valid checked j b other occupied =>
      clean valid checked j b other (fewer j k b valid occupied)⟩
  passed k rec self items found := by
    obtain ⟨held, passed⟩ := ok.passed k rec self items found
    exact ⟨held, fun valid j member other b occupied =>
      passed valid j member other b (fewer j k b valid occupied)⟩

end Parts

/-! ### The general step -/

theorem CoreInv.mine (inv : CoreInv S s g) (worksOn : (g t).role.slot = some idx) :
    Mine s.slotCount (rolesOf g) t idx :=
  inv.roles.mine worksOn

theorem CoreInv.mutexAlone (inv : CoreInv S s g) {u : Nat} (mine : (g t).mutex.isSome = true)
    (theirs : (g u).mutex.isSome = true) : u = t :=
  inv.locks.sole (l := .structMutex) mine theirs

/-- While a thread holds the struct mutex, no other thread truncates or is about to
count an insert. -/
theorem CoreInv.mutexRoles (inv : CoreInv S s g) (mine : (g t).mutex.isSome = true) {u : Nat}
    (other : u ≠ t) : (g u).role ≠ .published ∧ ∀ c e, (g u).role ≠ .clearer c e := by
  constructor
  · exact fun role => other (inv.mutexAlone mine ((inv.ok u).published role))
  · exact fun c e role => other (inv.mutexAlone mine ((inv.ok u).clearer role).1)

theorem CoreInv.ownSlot (inv : CoreInv S s g)
    (mine : Mine s.slotCount (rolesOf g) t idx) (slot' : Slot n) (role' : Role n)
    (records' : Int) (stays : role'.Stays idx) (unready : (g t).ready = none)
    (taken : (g t).role.slot = some idx ∨ (s.slot idx).state = .active)
    (deleting : slot'.state = .deleting → ∃ img p, role' = .deleter idx img p)
    (parity : slot'.seq % 2 = 1 ↔ ∃ old new copied, role' = .writer idx old new true copied)
    (clearing : (∃ img p, role' = .deleter idx img p) ∨ (∃ c, role' = .retired idx c) →
      ∀ u cleared emptied, (g u).role ≠ .clearer cleared emptied)
    (ok : RoleOk S (Function.update s.slot idx slot') ((g t).become role'))
    (dead : (s.slot idx).state.unused → slot'.state.unused ∨ (g t).mutex.isSome = true)
    (chained : S.linked → ∀ k,
      role'.chained S.D slot' k = (g t).role.chained S.D (s.slot idx) k)
    (balance : records' + role'.pending + (g t).role.weight (s.slot idx) =
      s.records + (g t).role.pending + role'.weight slot')
    (unique : S.distinct →
      UniqueInv S.D (Function.update s.slot idx slot') (Function.update (rolesOf g) t role') ∧
      ∀ u, CheckedOk S.D (Function.update s.slot idx slot')
        (Function.update (rolesOf g) t role') (g u)) :
    CoreInv S { s with slot := Function.update s.slot idx slot', records := records' }
      (Function.update g t ((g t).become role')) where
  locks := inv.locks.keep (Nat.le_refl _) (fun l => Ghost.become_holds (g t) role' l)
    (inv.locks.seen t)
  roles := by
    rw [rolesOf_update]
    exact inv.roles.ownSlot mine stays deleting parity clearing
  ok := by
    refine forall_update
      (P := fun _ ghost => RoleOk S (Function.update s.slot idx slot') ghost) ok ?_
    intro u other
    refine (inv.ok u).frame ?_ ?_
    · intro i worksOn
      refine Function.update_of_ne ?_ ..
      rintro rfl
      exact other (mine.sole u worksOn)
    · intro c e role i below unused
      by_cases same : i = idx
      · subst same
        rw [Function.update_self]
        rcases dead unused with still | held
        · exact still
        · exact absurd role ((inv.mutexRoles held other).2 c e)
      · rw [Function.update_of_ne same]
        exact unused
  free := by
    obtain ⟨free, freeInv, views⟩ := inv.free
    have spare : ∀ {i : Nat}, Spare s.slot (s.chunkCnt * fmChunkSize) (rolesOf g) i →
        Spare (Function.update s.slot idx slot') (s.chunkCnt * fmChunkSize)
          (Function.update (rolesOf g) t role') i := fun spare => spare.ownSlot mine stays taken
    rw [rolesOf_update]
    refine ⟨free, ⟨freeInv.freelist, fun i member => spare (freeInv.unused i member)⟩, ?_⟩
    have view : ∀ u v, (g u).mutex = some v →
        ViewOk (Function.update s.slot idx slot') s.chunkCnt s.cell
          (Function.update (rolesOf g) t role') free v := by
      intro u v found
      obtain ⟨list, count, spares, ready⟩ := views u v found
      exact ⟨list, count, fun i held => ⟨(spares i held).1, spare (spares i held).2⟩, ready⟩
    exact forall_update (P := fun _ ghost => ∀ v, ghost.mutex = some v →
      ViewOk (Function.update s.slot idx slot') s.chunkCnt s.cell
        (Function.update (rolesOf g) t role') free v) (view t) fun u _ => view u
  chains linked := by
    obtain ⟨chain, place, chainInv, knowns⟩ := inv.chains linked
    rw [rolesOf_update]
    refine ⟨chain, place, chainInv.ownSlot mine stays (chained linked), ?_⟩
    refine forall_update (P := fun _ ghost => KnownOk S.D s.cell chain ghost) ?_
      fun u _ => knowns u
    refine ⟨(knowns t).known, fun k b ready => ?_⟩
    rw [show ((g t).become role').ready = (g t).ready from rfl, unready] at ready
    cases ready
  count := by
    rw [rolesOf_update]
    refine inv.count.ownSlot inv.roles mine stays ?_
    have alone : (rolesOf g t).pending + role'.pending ≠ 0 →
        ∀ u, u ≠ t → rolesOf g u ≠ .published := by
      intro pending u other
      have held : (g t).mutex.isSome = true := by
        by_cases was : (g t).role = .published
        · exact (inv.ok t).published was
        · by_cases now : role' = .published
          · exact ok.published now
          · refine absurd ?_ pending
            unfold rolesOf
            cases before : (g t).role <;> cases after : role' <;>
              first | rfl | exact absurd before was | exact absurd after now
      exact (inv.mutexRoles held other).1
    change records' + uncounted (Function.update (rolesOf g) t role') +
      weight s.slot (rolesOf g) idx = s.records + uncounted (rolesOf g) +
        weight (Function.update s.slot idx slot') (Function.update (rolesOf g) t role') idx
    rw [uncounted_update alone, weight_own mine, weight_own (mine.update stays),
      Function.update_self, Function.update_self]
    change records' + (uncounted (rolesOf g) + role'.pending - (g t).role.pending) +
      (g t).role.weight (s.slot idx) = s.records + uncounted (rolesOf g) + role'.weight slot'
    omega
  unique distinct := by
    rw [rolesOf_update]
    obtain ⟨uniqueInv, checks⟩ := unique distinct
    refine ⟨uniqueInv, ?_⟩
    exact forall_update (P := fun _ ghost => CheckedOk S.D (Function.update s.slot idx slot')
      (Function.update (rolesOf g) t role') ghost) ⟨(checks t).clean, (checks t).passed⟩
      fun u _ => checks u

theorem CoreInv.uniqueShrink (inv : CoreInv S s g)
    (mine : Mine s.slotCount (rolesOf g) t idx) {slot' : Slot n} {role' : Role n}
    (stays : role'.Stays idx)
    (fewer : ∀ k a, k < S.D.keys → role'.occupies slot' idx k a →
      (g t).role.occupies (s.slot idx) idx k a) (distinct : S.distinct) :
    UniqueInv S.D (Function.update s.slot idx slot') (Function.update (rolesOf g) t role') ∧
      ∀ u, CheckedOk S.D (Function.update s.slot idx slot')
        (Function.update (rolesOf g) t role') (g u) := by
  obtain ⟨unique, checks⟩ := inv.unique distinct
  have all : ∀ i k a, k < S.D.keys → Occupies (Function.update s.slot idx slot')
      (Function.update (rolesOf g) t role') i k a → Occupies s.slot (rolesOf g) i k a := by
    intro i k a valid occupied
    by_cases same : i = idx
    · subst same
      rw [occupies_own (mine.update stays), Function.update_self,
        Function.update_self] at occupied
      exact (occupies_own mine).mpr (fewer k a valid occupied)
    · exact (occupies_other mine stays same).mp occupied
  refine ⟨unique.shrink all ?_, fun u => (checks u).shrink all⟩
  intro u c e role
  by_cases own : u = t
  · rw [own, Function.update_self] at role
    exact stays.uncleared c e role
  · rw [Function.update_of_ne own] at role
    exact unique.uncleared u c e role

/-- The thread holds the bucket of the record and has found no duplicate of it on the key
besides slot `idx`, if the key needs a check. -/
def Ghost.Checked (ghost : Ghost n) (D : ShareDef n) (k : Nat) (rec : Rec n) (idx : Nat) : Prop :=
  ghost.holds (.bucket k (fmCoreKeyBucket (D.keydef k) rec)) ∧
    (dupChecked (D.keydef k) rec = true → ghost.clean k = some (rec, idx))

/-- Slot `idx` takes up the value `rec` of some keys: of keys that were checked for it, or
where it already had an equal one. -/
theorem CoreInv.uniqueGain (inv : CoreInv S s g) (distinct : S.distinct) (rec : Rec n)
    {slots' : Nat → Slot n} {roles' : Nat → Role n}
    (own : ∀ k a self, (g t).clean k = some (a, self) → self = idx)
    (ownPassed : ∀ k a self items, (g t).passed = some (k, a, self, items) → self = idx)
    (gain : ∀ i k a, k < S.D.keys → Occupies slots' roles' i k a →
      Occupies s.slot (rolesOf g) i k a ∨ (i = idx ∧ a = rec ∧
        ((∃ old, (S.D.keydef k).ops.cmpRecRec old rec = 0 ∧
          Occupies s.slot (rolesOf g) idx k old) ∨ (g t).Checked S.D k rec idx)))
    (uncleared : ∀ u c e, roles' u ≠ .clearer c e) :
    UniqueInv S.D slots' roles' ∧ ∀ u, CheckedOk S.D slots' roles' (g u) := by
  obtain ⟨unique, checks⟩ := inv.unique distinct
  have keys := S.equivalent distinct
  -- a check of another thread cannot be about the value gained: it would hold the same bucket
  have elsewhere : ∀ u k a self, k < S.D.keys → idx ≠ self →
      ((g u).holds (.bucket k (fmCoreKeyBucket (S.D.keydef k) a))) →
      (u = t → self = idx) →
      (∀ b, Occupies s.slot (rolesOf g) idx k b → (S.D.keydef k).ops.cmpRecRec b a ≠ 0) →
      ((∃ old, (S.D.keydef k).ops.cmpRecRec old rec = 0 ∧
        Occupies s.slot (rolesOf g) idx k old) ∨ (g t).Checked S.D k rec idx) →
      (S.D.keydef k).ops.cmpRecRec rec a ≠ 0 := by
    intro u k a self valid notSelf held mineSelf before reason equal
    rcases reason with ⟨old, same, occupied⟩ | ⟨mine, _⟩
    · exact before old occupied (keys.trans k valid old rec a same equal)
    · have bucket : fmCoreKeyBucket (S.D.keydef k) a = fmCoreKeyBucket (S.D.keydef k) rec := by
        unfold fmCoreKeyBucket
        rw [keys.hashes k valid rec a equal]
      rw [bucket] at held
      exact notSelf (mineSelf (inv.locks.sole mine held)).symm
  refine ⟨⟨?_, uncleared⟩, fun u => ⟨?_, ?_⟩⟩
  · intro k valid i j a b different atI atJ checked equal
    rcases gain i k a valid atI with beforeI | ⟨rfl, rfl, reason⟩ <;>
      rcases gain j k b valid atJ with beforeJ | ⟨hereJ, sameB, reasonJ⟩
    · exact unique.unique k valid i j a b different beforeI beforeJ checked equal
    · subst hereJ sameB
      rcases reasonJ with ⟨old, same, occupied⟩ | ⟨_, clean⟩
      · exact unique.unique k valid i j a old different beforeI occupied checked
          (keys.trans k valid a b old equal (keys.symm k valid old b same))
      · rw [keys.nulls k valid a b equal] at checked
        exact ((checks t).clean k b j (clean checked)).2 valid checked i a different beforeI equal
    · rcases reason with ⟨old, same, occupied⟩ | ⟨_, clean⟩
      · refine unique.unique k valid i j old b different occupied beforeJ ?_
          (keys.trans k valid old a b same equal)
        rw [keys.nulls k valid old a same]
        exact checked
      · exact ((checks t).clean k a i (clean checked)).2 valid checked j b (Ne.symm different) beforeJ
          (keys.symm k valid a b equal)
    · exact different hereJ.symm
  · intro k a self found
    obtain ⟨held, clean⟩ := (checks u).clean k a self found
    refine ⟨held, fun valid checked j b other occupied => ?_⟩
    rcases gain j k b valid occupied with before | ⟨rfl, rfl, reason⟩
    · exact clean valid checked j b other before
    · exact elsewhere u k a self valid other held
        (fun same => own k a self (by rw [← same]; exact found))
        (fun b' => clean valid checked j b' other) reason
  · intro k a self items found
    obtain ⟨held, passed⟩ := (checks u).passed k a self items found
    refine ⟨held, fun valid j member other b occupied => ?_⟩
    rcases gain j k b valid occupied with before | ⟨rfl, rfl, reason⟩
    · exact passed valid j member other b before
    · exact elsewhere u k a self valid other held
        (fun same => ownPassed k a self items (by rw [← same]; exact found))
        (fun b' => passed valid j member other b') reason

end Fastmem
