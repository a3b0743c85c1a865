/-
The steps of an insert, an update and a delete on their row, one after another.

Each is the general step of `SlotSteps` for one role: what the role says before
it, which slot field it changes, and the role after it. Copying a new image
over a live row is the one step that takes up a new value of a unique key.
-/

import Fastmem.Concurrent.SlotSteps

set_option autoImplicit false

namespace Fastmem

variable {n : Nat} {S : Setting n} {s : Core n} {g : Nat → Ghost n} {t idx : Nat}

theorem seq_flip (seq : UInt32) : (seq + 1) % 2 = 1 ↔ ¬ seq % 2 = 1 := by
  have oddIff : ∀ x : UInt32, x % 2 = 1 ↔ x.toNat % 2 = 1 := by
    intro x
    rw [← UInt32.toNat_inj, UInt32.toNat_mod]
    rfl
  rw [oddIff, oddIff, UInt32.toNat_add]
  have one : (1 : UInt32).toNat = 1 := rfl
  rw [one]
  omega

theorem seq_even {seq : UInt32} (even : ¬ seq % 2 = 1) : seq % 2 = 0 := by
  rw [← UInt32.toNat_inj] at even ⊢
  rw [UInt32.toNat_mod] at even ⊢
  exact (Nat.mod_two_eq_zero_or_one _).resolve_right even

def Role.settled (D : ShareDef n) (linked : Prop) (role : Role n) (idx : Nat) : Prop :=
  role = .live idx ∨ (∃ old new, role = .writer idx old new false false) ∨
    ∃ old new p, role = .mover idx old new p ∧ (linked → ∀ k, p k = homeOf D new k)

theorem RoleOk.congr {slot slot' : Nat → Slot n} {ghost : Ghost n} (ok : RoleOk S slot ghost)
    (same : ∀ i, (slot' i).state = (slot i).state ∧ (slot' i).data = (slot i).data) :
    RoleOk S slot' ghost := by
  unfold RoleOk at *
  cases now : ghost.role with
  | idle => trivial
  | published =>
      simp only [now] at ok ⊢
      exact ok
  | live i | fresh i | chaining i _ _ | writer i _ _ _ _ | mover i _ _ _ | deleter i _ _
  | retired i _ =>
      simp only [now] at ok ⊢
      simp only [(same i).1, (same i).2]
      exact ok
  | clearer c e =>
      simp only [now] at ok ⊢
      refine ⟨ok.1, fun i below => ?_⟩
      rw [(same i).1]
      exact ok.2 i below

section Slotless

variable {roles : Nat → Role n} {slot : Nat → Slot n} {role' : Role n}

theorem Role.place_none {D : ShareDef n} {role : Role n} (slotless : role.slot = none) :
    role.place D = none := by
  cases placed : role.place D with
  | none => rfl
  | some pair =>
      rw [Role.place_slot placed] at slotless
      cases slotless

theorem role_slotless (before : (roles t).slot = none) (after : role'.slot = none)
    {role : Role n} {u : Nat} (slotted : role.slot ≠ none) :
    Function.update roles t role' u = role ↔ roles u = role := by
  by_cases own : u = t
  · subst own
    rw [Function.update_self]
    constructor
    · rintro rfl
      exact absurd after slotted
    · rintro rfl
      exact absurd before slotted
  · rw [Function.update_of_ne own]

theorem counted_slotless (before : (roles t).slot = none) (after : role'.slot = none) {i : Nat} :
    Counted slot (Function.update roles t role') i ↔ Counted slot roles i := by
  refine or_congr Iff.rfl (or_congr ?_ ?_)
  · exact exists_congr fun u => exists_congr fun img => exists_congr fun p =>
      role_slotless before after (by simp [Role.slot])
  · exact exists_congr fun u => role_slotless before after (by simp [Role.slot])

end Slotless

namespace CoreInv

/-- The sequence counter is odd exactly while the thread that works on the slot copies. -/
theorem parityOwn (inv : CoreInv S s g) (mine : Mine s.slotCount (rolesOf g) t idx) :
    (s.slot idx).seq % 2 = 1 ↔
      ∃ old new copied, (g t).role = .writer idx old new true copied := by
  rw [inv.roles.parity idx]
  constructor
  · rintro ⟨u, old, new, copied, role⟩
    have same : u = t := mine.sole u (by rw [role]; rfl)
    exact ⟨old, new, copied, same ▸ role⟩
  · rintro ⟨old, new, copied, role⟩
    exact ⟨t, old, new, copied, role⟩

theorem regen (inv : CoreInv S s g) {slot' : Nat → Slot n}
    (same : ∀ i, (slot' i).state = (s.slot i).state ∧ (slot' i).data = (s.slot i).data ∧
      (slot' i).seq = (s.slot i).seq) : CoreInv S { s with slot := slot' } g := by
  have occupied : ∀ i k a, Occupies slot' (rolesOf g) i k a → Occupies s.slot (rolesOf g) i k a := by
    intro i k a now
    unfold Occupies at *
    rwa [(same i).1, (same i).2.1] at now
  have spare : ∀ {count i}, Spare s.slot count (rolesOf g) i → Spare slot' count (rolesOf g) i :=
    fun {_ i} spare => ⟨spare.1, by rw [(same i).1]; exact spare.2.1, spare.2.2⟩
  constructor
  · exact inv.locks
  · refine ⟨inv.roles.exclusive, inv.roles.below, fun i => ?_, fun i => ?_, fun i => ?_,
      fun i => ?_, inv.roles.clearing⟩
    · rw [(same i).1]
      exact inv.roles.deleting i
    · rw [(same i).2.2]
      exact inv.roles.parity i
    · rw [(same i).1]
      exact inv.roles.active i
    · rw [(same i).1]
      exact inv.roles.unallocated i
  · exact fun u => (inv.ok u).congr fun i => ⟨(same i).1, (same i).2.1⟩
  · obtain ⟨free, freeInv, views⟩ := inv.free
    refine ⟨free, ⟨freeInv.freelist, fun i member => spare (freeInv.unused i member)⟩, ?_⟩
    intro u v theirs
    obtain ⟨list, count, spares, ready⟩ := views u v theirs
    exact ⟨list, count, fun i held => ⟨(spares i held).1, spare (spares i held).2⟩, ready⟩
  · intro linked
    obtain ⟨chain, place, chainInv, knowns⟩ := inv.chains linked
    refine ⟨chain, place, ⟨chainInv.chains, chainInv.members, chainInv.owned, ?_⟩, knowns⟩
    intro i nobody k
    rw [chainInv.others i nobody k]
    unfold Slot.home
    rw [(same i).1, (same i).2.1]
  · have counted : {i | Counted slot' (rolesOf g) i} = {i | Counted s.slot (rolesOf g) i} := by
      ext i
      refine or_congr ?_ Iff.rfl
      rw [(same i).1]
    intro uncleared
    rw [counted]
    exact inv.count uncleared
  · intro distinct
    obtain ⟨unique, checks⟩ := inv.unique distinct
    exact ⟨unique.shrink (fun i k a _ => occupied i k a) unique.uncleared,
      fun u => (checks u).shrink fun i k a _ => occupied i k a⟩

theorem bumpGen (inv : CoreInv S s g) (idx : Nat) :
    CoreInv S (s.setSlot idx { s.slot idx with gen := (s.slot idx).gen + 1 }) g := by
  refine inv.regen fun i => ?_
  by_cases here : i = idx
  · subst here
    simp
  · simp [here]

/-! ### Roles that work on no slot -/

theorem slotless (inv : CoreInv S s g) {role' : Role n} {records' : Int}
    (before : (g t).role.slot = none) (after : role'.slot = none) (unready : (g t).ready = none)
    (ok : RoleOk S s.slot ((g t).become role'))
    (clearing : ∀ c e, role' = .clearer c e → ∀ u idx,
      (∀ img p, (g u).role ≠ .deleter idx img p) ∧ ∀ counted, (g u).role ≠ .retired idx counted)
    (members : S.linked → ∀ chain place,
      ChainInv S.D s.slot s.cell (rolesOf g) chain place → ∀ k b i, i ∈ chain k b ↔
        place k i = some b ∧ ¬ Emptied (Function.update (rolesOf g) t role') k b)
    (count : CountInv s.slot records' (Function.update (rolesOf g) t role'))
    (uncleared : S.distinct → ∀ c e, role' ≠ .clearer c e) :
    CoreInv S { s with records := records' } (Function.update g t ((g t).become role')) := by
  have roleAt : rolesOf (Function.update g t ((g t).become role')) =
      Function.update (rolesOf g) t role' := rolesOf_update g t _
  have others : ∀ {role : Role n} {u}, role.slot ≠ none →
      (Function.update (rolesOf g) t role' u = role ↔ rolesOf g u = role) :=
    role_slotless before after
  have worksOn : ∀ u i, (Function.update (rolesOf g) t role' u).slot = some i ↔
      (rolesOf g u).slot = some i := by
    intro u i
    by_cases own : u = t
    · subst own
      rw [Function.update_self, after]
      change _ ↔ (g u).role.slot = some i
      rw [before]
    · rw [Function.update_of_ne own]
  have placed : ∀ u, (Function.update (rolesOf g) t role' u).place S.D =
      (rolesOf g u).place S.D := by
    intro u
    by_cases own : u = t
    · subst own
      rw [Function.update_self, Role.place_none after]
      exact (Role.place_none before).symm
    · rw [Function.update_of_ne own]
  have occupied : ∀ i k a, Occupies s.slot (Function.update (rolesOf g) t role') i k a →
      Occupies s.slot (rolesOf g) i k a := by
    rintro i k a (live | ⟨u, p, now, chained⟩)
    · exact Or.inl live
    · exact Or.inr ⟨u, p, (others (by simp [Role.slot])).mp now, chained⟩
  have spare : ∀ {i}, Spare s.slot (s.chunkCnt * fmChunkSize) (rolesOf g) i →
      Spare s.slot (s.chunkCnt * fmChunkSize) (Function.update (rolesOf g) t role') i :=
    fun spare => ⟨spare.1, spare.2.1, fun u also => spare.2.2 u ((worksOn u _).mp also)⟩
  constructor
  · exact inv.locks.keep (Nat.le_refl _) (fun l => Ghost.become_holds (g t) role' l)
      (inv.locks.seen t)
  · rw [roleAt]
    constructor
    · exact fun u v i atU atV =>
        inv.roles.exclusive u v i ((worksOn u i).mp atU) ((worksOn v i).mp atV)
    · exact fun u i also => inv.roles.below u i ((worksOn u i).mp also)
    · intro i now
      obtain ⟨u, img, p, role⟩ := inv.roles.deleting i now
      exact ⟨u, img, p, (others (by simp [Role.slot])).mpr role⟩
    · intro i
      rw [inv.roles.parity i]
      exact exists_congr fun u => exists_congr fun old => exists_congr fun new =>
        exists_congr fun copied => (others (by simp [Role.slot])).symm
    · exact inv.roles.active
    · exact inv.roles.unallocated
    · intro u c e now w i
      have gone : (∀ img p, (g w).role ≠ .deleter i img p) ∧
          ∀ counted, (g w).role ≠ .retired i counted := by
        by_cases own : u = t
        · rw [own, Function.update_self] at now
          exact clearing c e now w i
        · rw [Function.update_of_ne own] at now
          exact inv.roles.clearing u c e now w i
      exact ⟨fun img p role => gone.1 img p ((others (by simp [Role.slot])).mp role),
        fun counted role => gone.2 counted ((others (by simp [Role.slot])).mp role)⟩
  · exact forall_update (P := fun _ ghost => RoleOk S s.slot ghost) ok fun u _ => inv.ok u
  · rw [roleAt]
    obtain ⟨free, freeInv, views⟩ := inv.free
    refine ⟨free, ⟨freeInv.freelist, fun i member => spare (freeInv.unused i member)⟩, ?_⟩
    have view : ∀ u w, (g u).mutex = some w → ViewOk s.slot s.chunkCnt s.cell
        (Function.update (rolesOf g) t role') free w := by
      intro u w found
      obtain ⟨list, count, spares, ready⟩ := views u w found
      exact ⟨list, count, fun i held => ⟨(spares i held).1, spare (spares i held).2⟩, ready⟩
    exact forall_update (P := fun _ ghost => ∀ w, ghost.mutex = some w → ViewOk s.slot
      s.chunkCnt s.cell (Function.update (rolesOf g) t role') free w) (view t) fun u _ => view u
  · intro linked
    rw [roleAt]
    obtain ⟨chain, place, chainInv, knowns⟩ := inv.chains linked
    refine ⟨chain, place, ⟨chainInv.chains, members linked chain place chainInv, ?_, ?_⟩, ?_⟩
    · intro u i p now
      rw [placed] at now
      exact chainInv.owned u i p now
    · intro i nobody
      refine chainInv.others i fun u p now => nobody u p ?_
      rw [placed]
      exact now
    · refine forall_update (P := fun _ ghost => KnownOk S.D s.cell chain ghost)
        ⟨(knowns t).known, fun k b ready => ?_⟩ fun u _ => knowns u
      rw [show ((g t).become role').ready = (g t).ready from rfl, unready] at ready
      cases ready
  · rw [roleAt]
    exact count
  · intro distinct
    rw [roleAt]
    obtain ⟨unique, checks⟩ := inv.unique distinct
    refine ⟨unique.shrink (fun i k a _ => occupied i k a) fun u c e now => ?_, ?_⟩
    · by_cases own : u = t
      · rw [own, Function.update_self] at now
        exact uncleared distinct c e now
      · rw [Function.update_of_ne own] at now
        exact unique.uncleared u c e now
    · have after := fun u => (checks u).shrink fun i k a _ => occupied i k a
      exact forall_update (P := fun _ ghost => CheckedOk S.D s.slot
        (Function.update (rolesOf g) t role') ghost) ⟨(after t).clean, (after t).passed⟩
        fun u _ => after u

/-! ### Roles that change without a change of the share -/

theorem rerole (inv : CoreInv S s g) (mine : Mine s.slotCount (rolesOf g) t idx)
    {role' : Role n} (stays : role'.Stays idx) (unready : (g t).ready = none)
    (active : (s.slot idx).state = .active)
    (even : ∀ i old new copied, role' ≠ .writer i old new true copied)
    (evenBefore : ∀ i old new copied, (g t).role ≠ .writer i old new true copied)
    (quiet : role'.pending = (g t).role.pending)
    (notChaining : ∀ i rec p, role' ≠ .chaining i rec p)
    (ok : RoleOk S s.slot ((g t).become role'))
    (chained : S.linked → ∀ k,
      role'.chained S.D (s.slot idx) k = (g t).role.chained S.D (s.slot idx) k) :
    CoreInv S s (Function.update g t ((g t).become role')) := by
  have notGone : (∀ img p, role' ≠ .deleter idx img p) ∧ ∀ c, role' ≠ .retired idx c := by
    constructor
    · intro img p role
      have clash := active.symm.trans (ok.deleter role).1
      cases clash
    · intro c role
      have clash := active.symm.trans (ok.retired role)
      cases clash
  have step := inv.ownSlot mine (s.slot idx) role' s.records stays unready (Or.inr active)
    (fun now => by rw [active] at now; cases now)
    (by
      rw [inv.parityOwn mine]
      constructor
      · rintro ⟨old, new, copied, role⟩
        exact absurd role (evenBefore idx old new copied)
      · rintro ⟨old, new, copied, role⟩
        exact absurd role (even idx old new copied))
    (by
      rintro (⟨img, p, role⟩ | ⟨c, role⟩)
      · exact absurd role (notGone.1 img p)
      · exact absurd role (notGone.2 c))
    (by rwa [Function.update_eq_self])
    (fun unused => Or.inl unused) chained
    (by
      unfold Role.weight
      rw [if_pos active, if_pos active, quiet])
    (inv.uniqueShrink mine stays (by
      rintro k a _ (live | ⟨p, role, _⟩)
      · exact Or.inl live
      · exact absurd role (notChaining idx a p)))
  rwa [Function.update_eq_self] at step

theorem mineActive (inv : CoreInv S s g) (held : (g t).slots idx = true)
    (active : (s.slot idx).state = .active) (idle : (g t).role = .idle) :
    Mine s.slotCount (rolesOf g) t idx where
  sole u worksOn := by
    have ok := inv.ok u
    have lockedBy : (g u).slots idx = true → u = t := fun theirs =>
      inv.locks.sole (l := .wlock idx) held theirs
    change (g u).role.slot = some idx at worksOn
    cases role : (g u).role with
    | idle | published | clearer _ _ => rw [role] at worksOn; cases worksOn
    | live i =>
        rw [role] at worksOn
        cases worksOn
        exact lockedBy (ok.live role).2
    | fresh i =>
        rw [role] at worksOn
        cases worksOn
        exact absurd active (ok.fresh role).1.not_active
    | chaining i rec p =>
        rw [role] at worksOn
        cases worksOn
        exact absurd active (ok.chaining role).1.not_active
    | writer i old new odd copied =>
        rw [role] at worksOn
        cases worksOn
        exact lockedBy (ok.writer role).2.1
    | mover i old new p =>
        rw [role] at worksOn
        cases worksOn
        exact lockedBy (ok.mover role).2.1
    | deleter i img p =>
        rw [role] at worksOn
        cases worksOn
        cases active.symm.trans (ok.deleter role).1
    | retired i c =>
        rw [role] at worksOn
        cases worksOn
        cases active.symm.trans (ok.retired role)
  own i worksOn := by
    change (g t).role.slot = some i at worksOn
    rw [idle] at worksOn
    cases worksOn
  below := inv.roles.active idx active
  uncleared cleared emptied role := by
    change (g t).role = _ at role
    rw [idle] at role
    cases role

theorem claim (inv : CoreInv S s g) (held : (g t).slots idx = true)
    (active : (s.slot idx).state = .active) (idle : (g t).role = .idle)
    (unready : (g t).ready = none) :
    CoreInv S s (Function.update g t ((g t).become (.live idx))) := by
  refine inv.rerole (inv.mineActive held active idle) ?_ unready active ?_ ?_ ?_ ?_ ⟨active, held⟩ ?_
  · exact Role.stays_of_slot rfl
  · intro i old new copied clash
    cases clash
  · intro i old new copied clash
    rw [idle] at clash
    cases clash
  · rw [idle]
    rfl
  · intro i rec p clash
    cases clash
  · intro _ k
    rw [idle]
    rfl

theorem settled_chained (inv : CoreInv S s g)
    (settled : (g t).role.settled S.D S.linked idx) (linked : S.linked) (k : Nat) :
    (s.slot idx).home S.D k = (g t).role.chained S.D (s.slot idx) k := by
  unfold Role.chained Slot.home
  rcases settled with role | ⟨old, new, role⟩ | ⟨old, new, p, role, final⟩
  · simp only [role, Role.place]
  · have ok := (inv.ok t).writer role
    simp only [role, Role.place]
    rw [if_pos ok.1, (ok.2.2 linked).1, if_neg Bool.false_ne_true]
  · have ok := (inv.ok t).mover role
    simp only [role, Role.place]
    rw [if_pos ok.1, (ok.2.2 linked).1, final linked k]

theorem settled_active (inv : CoreInv S s g)
    (settled : (g t).role.settled S.D S.linked idx) :
    (s.slot idx).state = .active ∧ (g t).slots idx = true := by
  rcases settled with role | ⟨old, new, role⟩ | ⟨old, new, p, role, _⟩
  · exact (inv.ok t).live role
  · exact ⟨((inv.ok t).writer role).1, ((inv.ok t).writer role).2.1⟩
  · exact ⟨((inv.ok t).mover role).1, ((inv.ok t).mover role).2.1⟩

theorem settle (inv : CoreInv S s g) (settled : (g t).role.settled S.D S.linked idx)
    (unready : (g t).ready = none) {role' : Role n} (after : role' = .idle ∨ role' = .live idx) :
    CoreInv S s (Function.update g t ((g t).become role')) := by
  obtain ⟨active, held⟩ := inv.settled_active settled
  have worksOn : (g t).role.slot = some idx := by
    rcases settled with role | ⟨old, new, role⟩ | ⟨old, new, p, role, _⟩ <;> rw [role] <;> rfl
  refine inv.rerole (inv.mine worksOn) ?_ unready active ?_ ?_ ?_ ?_ ?_ ?_
  · rcases after with rfl | rfl
    · exact Role.stays_idle
    · exact Role.stays_of_slot rfl
  · rcases after with rfl | rfl <;> intro i old new copied clash <;> cases clash
  · rcases settled with role | ⟨old, new, role⟩ | ⟨old, new, p, role, _⟩ <;>
      intro i old new copied clash <;> rw [role] at clash <;> cases clash
  · rcases after with rfl | rfl <;>
      rcases settled with role | ⟨old, new, role⟩ | ⟨old, new, p, role, _⟩ <;> rw [role] <;> rfl
  · rcases after with rfl | rfl <;> intro i rec p clash <;> cases clash
  · rcases after with rfl | rfl
    · trivial
    · exact ⟨active, held⟩
  · intro linked k
    rw [← inv.settled_chained settled linked k]
    rcases after with rfl | rfl <;> rfl

theorem beginWrite (inv : CoreInv S s g) (live : (g t).role = .live idx)
    (unready : (g t).ready = none) {old new : Rec n}
    (current : S.linked → (s.slot idx).data = old) :
    CoreInv S s (Function.update g t ((g t).become (.writer idx old new false false))) := by
  have worksOn : (g t).role.slot = some idx := by rw [live]; rfl
  have ok := (inv.ok t).live live
  refine inv.rerole (inv.mine worksOn) ?_ unready ok.1 ?_ ?_ ?_ ?_ ?_ ?_
  · exact Role.stays_of_slot rfl
  · intro i old new copied clash
    cases clash
  · intro i old new copied clash
    rw [live] at clash
    cases clash
  · rw [live]
    rfl
  · intro i rec p clash
    cases clash
  · refine ⟨ok.1, ok.2, fun linked => ⟨current linked, fun _ => rfl, fun clash => ?_⟩⟩
    cases clash
  · intro linked k
    rw [live]
    unfold Role.chained Slot.home
    simp only [Role.place]
    rw [if_pos ok.1, current linked]

/-! ### Insert -/

theorem copyFresh (inv : CoreInv S s g) (fresh : (g t).role = .fresh idx)
    (unready : (g t).ready = none) (rec : Rec n) :
    CoreInv S (s.setSlot idx { s.slot idx with data := rec })
      (Function.update g t ((g t).become (.chaining idx rec fun _ => none))) := by
  have worksOn : (g t).role.slot = some idx := by rw [fresh]; rfl
  have mine := inv.mine worksOn
  have ok := (inv.ok t).fresh fresh
  have notActive := ok.1.not_active
  refine inv.ownSlot mine { s.slot idx with data := rec } (.chaining idx rec fun _ => none)
    s.records (Role.stays_of_slot rfl) unready (Or.inl worksOn) (fun now => absurd now ok.1.not_deleting)
    ?_ ?_ ?_ (fun unused => Or.inl unused) ?_ ?_ ?_
  · change (s.slot idx).seq % 2 = 1 ↔ _
    rw [inv.parityOwn mine, fresh]
    constructor <;> rintro ⟨old, new, copied, clash⟩ <;> cases clash
  · rintro (⟨img, p, clash⟩ | ⟨c, clash⟩) <;> cases clash
  · unfold RoleOk
    simp only [Ghost.become, Function.update_self]
    exact ⟨ok.1, ok.2, fun _ => ⟨trivial, fun k b clash => by cases clash⟩⟩
  · intro _ k
    rw [fresh]
    rfl
  · unfold Role.weight
    simp only [fresh, if_neg notActive, Role.pending]
  · refine inv.uniqueShrink mine (Role.stays_of_slot rfl) ?_
    rintro k a _ (⟨active, _⟩ | ⟨p, same, chained⟩)
    · exact absurd active notActive
    · cases same
      exact absurd rfl chained

theorem dirtyFresh (inv : CoreInv S s g) (loose : ¬ S.linked) (fresh : (g t).role = .fresh idx)
    (unready : (g t).ready = none) (image : Rec n) :
    CoreInv S (s.setSlot idx { s.slot idx with data := image })
      (Function.update g t ((g t).become (.fresh idx))) := by
  have worksOn : (g t).role.slot = some idx := by rw [fresh]; rfl
  have mine := inv.mine worksOn
  have ok := (inv.ok t).fresh fresh
  have notActive := ok.1.not_active
  refine inv.ownSlot mine { s.slot idx with data := image } (.fresh idx)
    s.records (Role.stays_of_slot rfl) unready (Or.inl worksOn) (fun now => absurd now ok.1.not_deleting)
    ?_ ?_ ?_ (fun unused => Or.inl unused) (fun linked => absurd linked loose) ?_
    (fun distinct => absurd (S.distinct_linked distinct) loose)
  · change (s.slot idx).seq % 2 = 1 ↔ _
    rw [inv.parityOwn mine, fresh]
  · rintro (⟨img, p, clash⟩ | ⟨c, clash⟩) <;> cases clash
  · unfold RoleOk
    simp only [Ghost.become, Function.update_self]
    exact ok
  · unfold Role.weight
    simp only [fresh, if_neg notActive, Role.pending]

/-- A slot with its new image, chained as far as `p` says. -/
def Inserting (S : Setting n) (role : Role n) (idx : Nat) (rec : Rec n) (p : Nat → Option Nat) :
    Prop :=
  role = .chaining idx rec p ∨ (¬ S.linked ∧ role = .fresh idx)

theorem Inserting.slot {role : Role n} {rec : Rec n} {p : Nat → Option Nat}
    (inserting : Inserting S role idx rec p) : role.slot = some idx := by
  rcases inserting with now | ⟨_, now⟩ <;> rw [now] <;> rfl

theorem publish (inv : CoreInv S s g) {rec : Rec n} {p : Nat → Option Nat}
    (inserting : Inserting S (g t).role idx rec p) (unready : (g t).ready = none)
    (final : S.linked → ∀ k, p k = homeOf S.D rec k) :
    CoreInv S (s.setSlot idx { s.slot idx with state := .active })
      (Function.update g t ((g t).become .published)) := by
  have mine := inv.mine inserting.slot
  have unused : (s.slot idx).state.unused ∧ (g t).mutex.isSome = true := by
    rcases inserting with now | ⟨_, now⟩
    · exact ⟨((inv.ok t).chaining now).1, ((inv.ok t).chaining now).2.1⟩
    · exact (inv.ok t).fresh now
  have chaining : S.linked → (g t).role = .chaining idx rec p := fun linked => by
    rcases inserting with now | ⟨loose, _⟩
    · exact now
    · exact absurd linked loose
  have image : S.linked → (s.slot idx).data = rec := fun linked =>
    (((inv.ok t).chaining (chaining linked)).2.2 linked).1
  refine inv.ownSlot mine { s.slot idx with state := .active } .published s.records
    Role.stays_published unready (Or.inl inserting.slot) (fun now => by cases now) ?_ ?_ unused.2
    (fun _ => Or.inr unused.2) ?_ ?_ ?_
  · change (s.slot idx).seq % 2 = 1 ↔ _
    rw [inv.parityOwn mine]
    constructor
    · rintro ⟨old, new, copied, clash⟩
      rcases inserting with now | ⟨_, now⟩ <;> rw [now] at clash <;> cases clash
    · rintro ⟨old, new, copied, clash⟩
      cases clash
  · rintro (⟨img, p, clash⟩ | ⟨c, clash⟩) <;> cases clash
  · intro linked k
    rw [chaining linked]
    change homeOf S.D (s.slot idx).data k = p k
    rw [image linked, final linked k]
  · unfold Role.weight
    rw [if_neg unused.1.not_active]
    rcases inserting with now | ⟨_, now⟩ <;> rw [now] <;> simp [Role.pending]
  · intro distinct
    have linked := S.distinct_linked distinct
    refine inv.uniqueShrink mine Role.stays_published ?_ distinct
    rintro k a valid (⟨_, same⟩ | ⟨p', clash, _⟩)
    · refine Or.inr ⟨p, ?_, ?_⟩
      · have same : (s.slot idx).data = a := same
        rw [chaining linked, ← image linked, same]
      · rw [final linked k]
        unfold homeOf
        rw [if_pos valid]
        exact Option.some_ne_none _
    · cases clash

/-- The row is counted after it has become visible; by then the slot is no longer this
thread's. -/
theorem countPublished (inv : CoreInv S s g) (role : (g t).role = .published)
    (unready : (g t).ready = none) :
    CoreInv S { s with records := s.records + 1 }
      (Function.update g t ((g t).become .idle)) := by
  have slotless : (g t).role.slot = none := by rw [role]; rfl
  have emptied : ∀ k b, Emptied (Function.update (rolesOf g) t .idle) k b ↔
      Emptied (rolesOf g) k b := fun k b => Emptied.keep
    (fun c e clash => by
      change (g t).role = _ at clash
      rw [role] at clash
      cases clash)
    (fun c e clash => by cases clash)
  refine inv.slotless slotless rfl unready trivial (fun c e clash => by cases clash)
    (fun _ chain place chainInv k b i => by rw [chainInv.members, emptied]) ?_
    (fun _ c e clash => by cases clash)
  intro uncleared
  have before := inv.count fun u c e now => by
    have other : u ≠ t := by
      rintro rfl
      change (g u).role = _ at now
      rw [role] at now
      cases now
    exact uncleared u c e (by rw [Function.update_of_ne other]; exact now)
  have held := (inv.ok t).published role
  have pending : uncounted (Function.update (rolesOf g) t .idle) =
      uncounted (rolesOf g) + Role.pending .idle - (g t).role.pending :=
    uncounted_update fun _ u other => (inv.mutexRoles held other).1
  have same : {i | Counted s.slot (Function.update (rolesOf g) t .idle) i} =
      {i | Counted s.slot (rolesOf g) i} := by
    ext i
    exact counted_slotless slotless rfl
  rw [same, pending, role]
  change s.records + 1 + (uncounted (rolesOf g) + 0 - 1) = _
  omega

/-! ### Update -/

/-- The first increment of the sequence counter: from here on the locks of the changed keys
are needed. -/
theorem startWrite (inv : CoreInv S s g) {old new : Rec n}
    (role : (g t).role = .writer idx old new false false) (unready : (g t).ready = none)
    (held : S.linked → ∀ k ∈ changedKeys S.D old new,
      ((g t).known k (fmCoreKeyBucket (S.D.keydef k) old)).isSome = true ∧
      ((g t).known k (fmCoreKeyBucket (S.D.keydef k) new)).isSome = true) :
    CoreInv S (s.setSlot idx { s.slot idx with seq := (s.slot idx).seq + 1 })
      (Function.update g t ((g t).become (.writer idx old new true false))) := by
  have worksOn : (g t).role.slot = some idx := by rw [role]; rfl
  have mine := inv.mine worksOn
  have ok := (inv.ok t).writer role
  refine inv.ownSlot mine { s.slot idx with seq := (s.slot idx).seq + 1 }
    (.writer idx old new true false) s.records (Role.stays_of_slot rfl) unready (Or.inl worksOn)
    (fun now => by cases ok.1.symm.trans now) ?_ ?_ ?_ (fun unused => Or.inl unused) ?_ ?_ ?_
  · change ((s.slot idx).seq + 1) % 2 = 1 ↔ _
    rw [seq_flip, inv.parityOwn mine, role]
    refine iff_of_true ?_ ⟨old, new, false, rfl⟩
    rintro ⟨old', new', copied, clash⟩
    cases clash
  · rintro (⟨img, p, clash⟩ | ⟨c, clash⟩) <;> cases clash
  · unfold RoleOk
    simp only [Ghost.become, Function.update_self]
    exact ⟨ok.1, ok.2.1, fun linked =>
      ⟨(ok.2.2 linked).1, fun clash => (by cases clash), fun _ => held linked⟩⟩
  · intro _ k
    rw [role]
    rfl
  · rw [role]
    unfold Role.weight
    rw [if_pos ok.1]
    simp only [Role.pending]
  · refine inv.uniqueShrink mine (Role.stays_of_slot rfl) ?_
    rintro k a _ (live | ⟨p, clash, _⟩)
    · exact Or.inl live
    · cases clash

theorem copyWrite (inv : CoreInv S s g) {old new : Rec n}
    (role : (g t).role = .writer idx old new true false) (unready : (g t).ready = none)
    (clean : S.distinct → ∀ k ∈ changedKeys S.D old new, (g t).Checked S.D k new idx)
    (own : S.distinct → ∀ k rec self, (g t).clean k = some (rec, self) → self = idx)
    (unpassed : S.distinct → (g t).passed = none) :
    CoreInv S (s.setSlot idx { s.slot idx with data := new })
      (Function.update g t ((g t).become (.writer idx old new true true))) := by
  have worksOn : (g t).role.slot = some idx := by rw [role]; rfl
  have mine := inv.mine worksOn
  have ok := (inv.ok t).writer role
  have stays : (Role.writer idx old new true true).Stays idx := Role.stays_of_slot rfl
  refine inv.ownSlot mine { s.slot idx with data := new } (.writer idx old new true true)
    s.records stays unready (Or.inl worksOn) (fun now => by cases ok.1.symm.trans now) ?_ ?_ ?_
    (fun unused => Or.inl unused) ?_ ?_ ?_
  · change (s.slot idx).seq % 2 = 1 ↔ _
    rw [inv.parityOwn mine, role]
    exact iff_of_true ⟨old, new, false, rfl⟩ ⟨old, new, true, rfl⟩
  · rintro (⟨img, p, clash⟩ | ⟨c, clash⟩) <;> cases clash
  · unfold RoleOk
    simp only [Ghost.become, Function.update_self]
    exact ⟨ok.1, ok.2.1, fun linked =>
      ⟨(if_pos trivial).symm, fun clash => (by cases clash), fun _ => (ok.2.2 linked).2.2 rfl⟩⟩
  · intro _ k
    rw [role]
    rfl
  · rw [role]
    unfold Role.weight
    rw [if_pos ok.1]
    simp only [Role.pending]
  · intro distinct
    have image := ((ok.2.2 (S.distinct_linked distinct)).1)
    rw [if_neg Bool.false_ne_true] at image
    refine inv.uniqueGain distinct new (own distinct) ?_ ?_ ?_
    · intro k rec self items found
      rw [unpassed distinct] at found
      cases found
    · intro i k a valid occupied
      by_cases here : i = idx
      · subst here
        rw [occupies_own (mine.update stays), Function.update_self,
          Function.update_self] at occupied
        rcases occupied with ⟨_, same⟩ | ⟨p, clash, _⟩
        · refine Or.inr ⟨rfl, same.symm, ?_⟩
          by_cases changed : (S.D.keydef k).ops.cmpRecRec old new = 0
          · exact Or.inl ⟨old, changed, Or.inl ⟨ok.1, image⟩⟩
          · exact Or.inr (clean distinct k (mem_changedKeys.mpr ⟨valid, changed⟩))
        · cases clash
      · exact Or.inl ((occupies_other mine stays here).mp occupied)
    · intro u c e
      by_cases same : u = t
      · rw [same, Function.update_self]
        exact stays.uncleared c e
      · rw [Function.update_of_ne same]
        exact (inv.unique distinct).1.uncleared u c e

theorem dirtyWrite (inv : CoreInv S s g) (loose : ¬ S.linked) {old new : Rec n} {copied : Bool}
    (role : (g t).role = .writer idx old new true copied) (unready : (g t).ready = none)
    (image : Rec n) :
    CoreInv S (s.setSlot idx { s.slot idx with data := image })
      (Function.update g t ((g t).become (.writer idx old new true copied))) := by
  have worksOn : (g t).role.slot = some idx := by rw [role]; rfl
  have mine := inv.mine worksOn
  have ok := (inv.ok t).writer role
  refine inv.ownSlot mine { s.slot idx with data := image } (.writer idx old new true copied)
    s.records (Role.stays_of_slot rfl) unready (Or.inl worksOn)
    (fun now => by cases ok.1.symm.trans now) ?_ ?_ ?_ (fun unused => Or.inl unused)
    (fun linked => absurd linked loose) ?_
    (fun distinct => absurd (S.distinct_linked distinct) loose)
  · change (s.slot idx).seq % 2 = 1 ↔ _
    rw [inv.parityOwn mine, role]
  · rintro (⟨img, p, clash⟩ | ⟨c, clash⟩) <;> cases clash
  · unfold RoleOk
    simp only [Ghost.become, Function.update_self]
    exact ⟨ok.1, ok.2.1, fun linked => absurd linked loose⟩
  · rw [role]
    unfold Role.weight
    rw [if_pos ok.1]

theorem endWrite (inv : CoreInv S s g) {old new : Rec n} {copied : Bool}
    (role : (g t).role = .writer idx old new true copied) (unready : (g t).ready = none)
    (done : S.linked → copied = true) :
    CoreInv S (s.setSlot idx { s.slot idx with seq := (s.slot idx).seq + 1 })
      (Function.update g t ((g t).become (.mover idx old new (homeOf S.D old)))) := by
  have worksOn : (g t).role.slot = some idx := by rw [role]; rfl
  have mine := inv.mine worksOn
  have ok := (inv.ok t).writer role
  refine inv.ownSlot mine { s.slot idx with seq := (s.slot idx).seq + 1 }
    (.mover idx old new (homeOf S.D old)) s.records (Role.stays_of_slot rfl) unready (Or.inl worksOn)
    (fun now => by cases ok.1.symm.trans now) ?_ ?_ ?_ (fun unused => Or.inl unused) ?_ ?_ ?_
  · change ((s.slot idx).seq + 1) % 2 = 1 ↔ _
    rw [seq_flip, inv.parityOwn mine, role]
    refine iff_of_false (fun even => even ⟨old, new, copied, rfl⟩) ?_
    rintro ⟨old', new', copied, clash⟩
    cases clash
  · rintro (⟨img, p, clash⟩ | ⟨c, clash⟩) <;> cases clash
  · unfold RoleOk
    simp only [Ghost.become, Function.update_self]
    refine ⟨ok.1, ok.2.1, fun linked => ?_⟩
    obtain ⟨image, _, held⟩ := ok.2.2 linked
    rw [if_pos (done linked)] at image
    refine ⟨image, fun k b placed => ?_, fun k valid => ?_⟩
    · unfold homeOf at placed
      split at placed
      · rename_i valid
        exact ⟨valid, Or.inr (Option.some.inj placed).symm⟩
      · cases placed
    · by_cases changed : (S.D.keydef k).ops.cmpRecRec old new = 0
      · refine Or.inl ?_
        unfold homeOf fmCoreKeyBucket
        rw [if_pos valid, S.hashes linked k valid old new changed]
      · exact Or.inr (held rfl k (mem_changedKeys.mpr ⟨valid, changed⟩))
  · intro _ k
    rw [role]
    rfl
  · rw [role]
    unfold Role.weight
    rw [if_pos ok.1]
    simp only [Role.pending]
  · refine inv.uniqueShrink mine (Role.stays_of_slot rfl) ?_
    rintro k a _ (live | ⟨p, clash, _⟩)
    · exact Or.inl live
    · cases clash

/-! ### Delete -/

theorem flip (inv : CoreInv S s g) (live : (g t).role = .live idx)
    (unready : (g t).ready = none)
    (uncleared : ∀ u cleared emptied, (g u).role ≠ .clearer cleared emptied) :
    CoreInv S (s.setSlot idx { s.slot idx with state := .deleting })
      (Function.update g t ((g t).become
        (.deleter idx (s.slot idx).data (homeOf S.D (s.slot idx).data)))) := by
  have worksOn : (g t).role.slot = some idx := by rw [live]; rfl
  have mine := inv.mine worksOn
  have ok := (inv.ok t).live live
  refine inv.ownSlot mine { s.slot idx with state := .deleting }
    (.deleter idx (s.slot idx).data (homeOf S.D (s.slot idx).data)) s.records
    (Role.stays_of_slot rfl) unready (Or.inl worksOn) (fun _ => ⟨_, _, rfl⟩) ?_
    (fun _ => uncleared) ?_ ?_ ?_ ?_ ?_
  · change (s.slot idx).seq % 2 = 1 ↔ _
    rw [inv.parityOwn mine, live]
    constructor <;> rintro ⟨old, new, copied, clash⟩ <;> cases clash
  · unfold RoleOk
    simp only [Ghost.become, Function.update_self]
    refine ⟨trivial, fun _ => ⟨trivial, fun k b placed => ?_⟩⟩
    unfold homeOf at placed
    split at placed
    · exact ⟨‹_›, (Option.some.inj placed).symm⟩
    · cases placed
  · intro unused
    exact absurd ok.1 unused.not_active
  · intro _ k
    rw [live]
    change homeOf S.D (s.slot idx).data k = (s.slot idx).home S.D k
    unfold Slot.home
    rw [if_pos ok.1]
  · rw [live]
    unfold Role.weight
    rw [if_pos ok.1]
    simp [Role.pending]
  · refine inv.uniqueShrink mine (Role.stays_of_slot rfl) ?_
    rintro k a _ (⟨clash, _⟩ | ⟨p, clash, _⟩) <;> cases clash

theorem retire (inv : CoreInv S s g) {img : Rec n} {p : Nat → Option Nat}
    (role : (g t).role = .deleter idx img p) (unready : (g t).ready = none)
    (unlinked : S.linked → ∀ k, p k = none) :
    CoreInv S (s.setSlot idx { s.slot idx with state := .deleted })
      (Function.update g t ((g t).become (.retired idx false))) := by
  have worksOn : (g t).role.slot = some idx := by rw [role]; rfl
  have mine := inv.mine worksOn
  have ok := (inv.ok t).deleter role
  refine inv.ownSlot mine { s.slot idx with state := .deleted } (.retired idx false) s.records
    (Role.stays_of_slot rfl) unready (Or.inl worksOn) (fun now => by cases now) ?_ ?_ ?_
    (fun _ => Or.inl (Or.inr rfl)) ?_ ?_ ?_
  · change (s.slot idx).seq % 2 = 1 ↔ _
    rw [inv.parityOwn mine, role]
    constructor <;> rintro ⟨old, new, copied, clash⟩ <;> cases clash
  · exact fun _ u c e clearing => (inv.roles.clearing u c e clearing t idx).1 img p role
  · unfold RoleOk
    simp only [Ghost.become, Function.update_self]
  · intro linked k
    rw [role]
    exact (unlinked linked k).symm
  · rw [role]
    unfold Role.weight
    rw [ok.1]
    simp [Role.pending]
  · refine inv.uniqueShrink mine (Role.stays_of_slot rfl) ?_
    rintro k a _ (⟨clash, _⟩ | ⟨p, clash, _⟩) <;> cases clash

theorem countRetired (inv : CoreInv S s g) (role : (g t).role = .retired idx false)
    (unready : (g t).ready = none) :
    CoreInv S { s with records := s.records + -1 }
      (Function.update g t ((g t).become (.retired idx true))) := by
  have worksOn : (g t).role.slot = some idx := by rw [role]; rfl
  have mine := inv.mine worksOn
  have ok := (inv.ok t).retired role
  have step := inv.ownSlot mine (s.slot idx) (.retired idx true)
    (s.records + -1) (Role.stays_of_slot rfl) unready (Or.inl worksOn)
    (fun now => by cases ok.symm.trans now)
    (by
      rw [inv.parityOwn mine, role]
      constructor <;> rintro ⟨old, new, copied, clash⟩ <;> cases clash)
    (fun _ u c e clearing => (inv.roles.clearing u c e clearing t idx).2 false role)
    (by
      unfold RoleOk
      simp only [Ghost.become, Function.update_self]
      exact ok)
    (fun unused => Or.inl unused)
    (by
      intro _ k
      rw [role]
      rfl)
    (by
      rw [role]
      unfold Role.weight
      rw [ok]
      simp [Role.pending])
    (inv.uniqueShrink mine (Role.stays_of_slot rfl) (by
      rintro k a _ (⟨active, _⟩ | ⟨p, clash, _⟩)
      · cases ok.symm.trans active
      · cases clash))
  rwa [Function.update_eq_self] at step

end CoreInv

end Fastmem
