/-
What happens to one slot in the course of a run.

`slot_move` says once what a step can do to an allocated slot; everything else
is derived from it. An image changes only under an odd sequence counter or in a
slot nobody has published. A slot that was ACTIVE holds an image of the same row
as long as its generation is not bumped: a delete bumps it before it gives the
slot away.
-/

import Fastmem.Concurrent.QuietSystems
import Fastmem.Concurrent.RowReads
import Fastmem.Concurrent.TidyPrograms
import Mathlib.Order.Interval.Finset.Nat

set_option autoImplicit false

namespace Fastmem

open ThreadSystem

variable {n : Nat}

/-- A delete has stored DELETED and still has the slot. -/
def Retiring (g : Nat → Ghost n) (idx : Nat) : Prop :=
  ∃ u counted, (g u).role = .retired idx counted

def Truncating (g : Nat → Ghost n) : Prop := ∃ u, (g u).Truncates

inductive SlotMove (g : Nat → Ghost n) (idx : Nat) (mark : Option Mark) (slot : Slot n) :
    Slot n → Prop
  | other (sameGen : mark ≠ some (.bumpGen idx)) (sameSeq : mark ≠ some (.bumpSeq idx)) :
      SlotMove g idx mark slot slot
  /-- An insert copies into a slot it has not published. -/
  | fill (data : Rec n) (sameGen : mark ≠ some (.bumpGen idx))
      (sameSeq : mark ≠ some (.bumpSeq idx)) (unused : slot.state.unused)
      (owned : ¬ Retiring g idx) : SlotMove g idx mark slot { slot with data := data }
  | write (data : Rec n) (sameGen : mark ≠ some (.bumpGen idx))
      (sameSeq : mark ≠ some (.bumpSeq idx)) (active : slot.state = .active)
      (odd : slot.seq % 2 = 1) : SlotMove g idx mark slot { slot with data := data }
  | bumpSeq (marked : mark = some (.bumpSeq idx)) (active : slot.state = .active) :
      SlotMove g idx mark slot { slot with seq := slot.seq + 1 }
  | publish (sameGen : mark ≠ some (.bumpGen idx)) (sameSeq : mark ≠ some (.bumpSeq idx))
      (unused : slot.state.unused) (owned : ¬ Retiring g idx) :
      SlotMove g idx mark slot { slot with state := .active }
  | flip (sameGen : mark ≠ some (.bumpGen idx)) (sameSeq : mark ≠ some (.bumpSeq idx))
      (active : slot.state = .active) (even : ¬ slot.seq % 2 = 1) :
      SlotMove g idx mark slot { slot with state := .deleting }
  | retire (sameGen : mark ≠ some (.bumpGen idx)) (sameSeq : mark ≠ some (.bumpSeq idx))
      (deleting : slot.state = .deleting) :
      SlotMove g idx mark slot { slot with state := .deleted }
  | wipe (sameGen : mark ≠ some (.bumpGen idx)) (sameSeq : mark ≠ some (.bumpSeq idx))
      (even : ¬ slot.seq % 2 = 1) (clearing : Truncating g) :
      SlotMove g idx mark slot { slot with state := .free }
  | bumpGen (marked : mark = some (.bumpGen idx)) (retired : slot.state = .deleted ∨ Truncating g) :
      SlotMove g idx mark slot { slot with gen := slot.gen + 1 }

namespace SlotMove

variable {g : Nat → Ghost n} {idx : Nat} {mark : Option Mark} {slot slot' : Slot n}

theorem gen_eq (step : SlotMove g idx mark slot slot') :
    slot'.gen = if mark = some (.bumpGen idx) then slot.gen + 1 else slot.gen := by
  cases step with
  | bumpGen marked => rw [if_pos marked]
  | bumpSeq marked =>
      rw [if_neg]
      rw [marked]
      exact fun clash => by cases clash
  | _ => rw [if_neg (by assumption)]

theorem seq_eq (step : SlotMove g idx mark slot slot') :
    slot'.seq = if mark = some (.bumpSeq idx) then slot.seq + 1 else slot.seq := by
  cases step with
  | bumpSeq marked => rw [if_pos marked]
  | bumpGen marked =>
      rw [if_neg]
      rw [marked]
      exact fun clash => by cases clash
  | _ => rw [if_neg (by assumption)]

end SlotMove

section Steps

variable {S : Setting n} {T : ThreadSystem (coreMachine n)} {R : T.Run} {i idx : Nat}
  {g : Nat → Ghost n}

/-- Nobody writes a slot of which another thread holds the lock or is the owner. -/
theorem CoreInv.even {s : Core n} (inv : CoreInv S s g)
    (unwritten : ∀ u old new copied, (g u).role ≠ .writer idx old new true copied) :
    ¬ (s.slot idx).seq % 2 = 1 := by
  intro odd
  obtain ⟨u, old, new, copied, role⟩ := (inv.roles.parity idx).mp odd
  exact unwritten u old new copied role

theorem act_move {s s' : Core n} {t : Nat} {ρ : Type} {action : Act n ρ} {result : ρ}
    (inv : CoreInv S s g) (permitted : Permits S (g t) action) (allocated : idx < s.slotCount)
    (ran : Act.exec t action s = some (result, s')) :
    SlotMove g idx (some (action.mark result)) (s.slot idx) (s'.slot idx) := by
  -- another slot's action leaves this slot alone
  have elsewhere : ∀ {j : Nat} {slot : Slot n}, idx ≠ j →
      action.mark result ≠ .bumpGen idx → action.mark result ≠ .bumpSeq idx →
      s'.slot = Function.update s.slot j slot →
      SlotMove g idx (some (action.mark result)) (s.slot idx)
        (s'.slot idx) := by
    intro j slot different sameGen sameSeq updated
    rw [updated, Function.update_of_ne different]
    exact .other (fun clash => sameGen (Option.some.inj clash))
      fun clash => sameSeq (Option.some.inj clash)
  have unretired : (g t).role.slot = some idx → (∀ counted, (g t).role ≠ .retired idx counted) →
      ¬ Retiring g idx := by
    rintro mine other ⟨u, counted, role⟩
    have same := inv.roles.exclusive u t idx (congrArg Role.slot role) mine
    rw [same] at role
    exact other counted role
  have stored : ∀ {data : Rec n}, action.mark result = .other →
      ((g t).role = .fresh idx ∨ ∃ old new copied, (g t).role = .writer idx old new true copied) →
      SlotMove g idx (some (action.mark result)) (s.slot idx)
        { s.slot idx with data := data } := by
    intro data unmarked owner
    rw [unmarked]
    rcases owner with role | ⟨old, new, copied, role⟩
    · exact .fill data (fun clash => by cases clash) (fun clash => by cases clash)
        ((inv.ok t).fresh role).1 (unretired (congrArg Role.slot role)
          fun counted clash => by cases role.symm.trans clash)
    · exact .write data (fun clash => by cases clash) (fun clash => by cases clash)
        ((inv.ok t).writer role).1 ((inv.roles.parity idx).mpr ⟨t, old, new, copied, role⟩)
  cases action with
  | storeData j rec =>
      cases ran
      by_cases here : idx = j
      · subst here
        change SlotMove _ _ _ _ (Function.update s.slot idx _ idx)
        rw [Function.update_self]
        exact stored rfl permitted
      · exact elsewhere here (fun clash => by cases clash) (fun clash => by cases clash) rfl
  | storeByte j at_ byte =>
      cases ran
      by_cases here : idx = j
      · subst here
        change SlotMove _ _ _ _ (Function.update s.slot idx _ idx)
        rw [Function.update_self]
        exact stored rfl permitted
      · exact elsewhere here (fun clash => by cases clash) (fun clash => by cases clash) rfl
  | bumpSeq j =>
      cases ran
      by_cases here : idx = j
      · subst here
        obtain ⟨old, new, odd, copied, role⟩ := permitted
        change SlotMove _ _ _ _ (Function.update s.slot idx _ idx)
        rw [Function.update_self]
        exact .bumpSeq rfl ((inv.ok t).writer role).1
      · refine elsewhere here (fun clash => by cases clash) (fun clash => here ?_) rfl
        cases clash
        rfl
  | bumpGen j =>
      cases ran
      by_cases here : idx = j
      · subst here
        change SlotMove _ _ _ _ (Function.update s.slot idx _ idx)
        rw [Function.update_self]
        refine .bumpGen rfl ?_
        rcases permitted with ⟨counted, role⟩ | ⟨⟨cleared, emptied, role⟩, _⟩
        · exact Or.inl ((inv.ok t).retired role)
        · exact Or.inr ⟨t, cleared, emptied, role⟩
      · refine elsewhere here (fun clash => here ?_) (fun clash => by cases clash) rfl
        cases clash
        rfl
  | storeState j state =>
      cases ran
      by_cases here : idx = j
      swap
      · exact elsewhere here (fun clash => by cases clash) (fun clash => by cases clash) rfl
      subst here
      change SlotMove _ _ _ _ (Function.update s.slot idx _ idx)
      rw [Function.update_self]
      cases state with
      | active =>
          obtain ⟨rec, p, inserting⟩ := permitted
          refine .publish (fun clash => by cases clash) (fun clash => by cases clash) ?_
            (unretired inserting.slot fun counted clash => ?_)
          · rcases inserting with now | ⟨_, now⟩
            · exact ((inv.ok t).chaining now).1
            · exact ((inv.ok t).fresh now).1
          · rcases inserting with now | ⟨_, now⟩
            · cases now.symm.trans clash
            · cases now.symm.trans clash
      | deleting =>
          have role : (g t).role = .live idx := permitted
          refine .flip (fun clash => by cases clash) (fun clash => by cases clash)
            ((inv.ok t).live role).1 (inv.even fun u old new copied writes => ?_)
          have same := inv.roles.exclusive u t idx (congrArg Role.slot writes)
            (congrArg Role.slot role)
          rw [same, role] at writes
          cases writes
      | deleted =>
          obtain ⟨img, p, role⟩ := permitted
          exact .retire (fun clash => by cases clash) (fun clash => by cases clash)
            ((inv.ok t).deleter role).1
      | free =>
          obtain ⟨⟨emptied, role⟩, held⟩ := permitted
          refine .wipe (fun clash => by cases clash) (fun clash => by cases clash)
            (inv.even fun u old new copied writes => ?_) ⟨t, idx, emptied, role⟩
          have mine := (inv.locks.tie (.wlock idx) t).mpr held
          have others := (inv.locks.tie (.wlock idx) u).mpr ((inv.ok u).writer writes).2.1
          rw [mine] at others
          cases others
          rw [role] at writes
          cases writes
  | initSlots c =>
      cases ran
      obtain ⟨v, held, isCount⟩ := permitted
      have beyond : ¬ idx / fmChunkSize = c := by
        rw [← isCount, ← inv.viewCount held]
        exact CoreInv.notInChunk allocated
      change SlotMove _ _ _ _ (if idx / fmChunkSize = c then _ else s.slot idx)
      rw [if_neg beyond]
      exact .other (fun clash => by cases clash) fun clash => by cases clash
  | lock l =>
      simp only [Act.exec] at ran
      split at ran
      · cases ran
        exact .other (fun clash => by cases clash) fun clash => by cases clash
      · cases ran
  | _ =>
      cases ran
      exact .other (fun clash => by cases clash) fun clash => by cases clash

theorem slot_move (explains : Explains S (R.cfg i) g) (bound : i < R.len)
    (allocated : idx < (R.st i).slotCount) :
    SlotMove g idx ((R.ev i).labelled Act.mark) ((R.st i).slot idx)
      ((R.st (i + 1)).slot idx) := by
  rcases R.acts bound with ⟨call, ρ, action, next, result, busy, event, ran, _⟩ | ⟨quiet, same⟩
  swap
  · have unlabelled : (R.ev i).labelled Act.mark = none := by
      cases event : R.ev i with
      | act action result => exact absurd event (quiet _ action result)
      | start call => rfl
      | unroll => rfl
      | finish call result => rfl
    rw [same, unlabelled]
    exact .other (fun clash => by cases clash) fun clash => by cases clash
  rw [event]
  exact act_move explains.inv (explains.permits busy) allocated ran

end Steps

/-! ### Counting steps -/

section Counting

variable {T : ThreadSystem (coreMachine n)} {R : T.Run} {a b : Nat} {mark : Mark}

instance (R : T.Run) (m : Nat) (mark : Mark) : Decidable (Marked R m mark) :=
  inferInstanceAs (Decidable (_ = _))

def markCount (R : T.Run) (mark : Mark) (a b : Nat) : Nat :=
  ((Finset.Ico a b).filter fun m => Marked R m mark).card

theorem markCount_succ (order : a ≤ b) : markCount R mark a (b + 1) =
    markCount R mark a b + if Marked R b mark then 1 else 0 := by
  unfold markCount
  rw [Nat.Ico_succ_right_eq_insert_Ico order, Finset.filter_insert]
  split
  · rw [Finset.card_insert_of_notMem]
    simp
  · rfl

theorem markCount_self : markCount R mark a a = 0 := by
  simp [markCount]

theorem markCount_zero (none : markCount R mark a b = 0) {m : Nat} (lower : a ≤ m)
    (upper : m < b) : ¬ Marked R m mark := by
  intro marked
  have empty := Finset.card_eq_zero.mp none
  have member : m ∈ (Finset.Ico a b).filter fun m => Marked R m mark :=
    Finset.mem_filter.mpr ⟨Finset.mem_Ico.mpr ⟨lower, upper⟩, marked⟩
  rw [empty] at member
  exact absurd member (Finset.notMem_empty m)

theorem markCount_mono {a' b' : Nat} (lower : a ≤ a') (upper : b' ≤ b) :
    markCount R mark a' b' ≤ markCount R mark a b :=
  Finset.card_le_card (Finset.filter_subset_filter _ (Finset.Ico_subset_Ico lower upper))

end Counting

/-! ### Runs without truncation -/

/-- A run of threads that keep to the protocol, run tidy code and do not truncate. -/
structure QuietRun (S : Setting n) {T : ThreadSystem (coreMachine n)} (R : T.Run) : Prop where
  explained : ∀ i, i ≤ R.len → ∃ g, Quietly S (R.cfg i) g
  mono : ∀ i j, i ≤ j → j ≤ R.len → (R.st i).slotCount ≤ (R.st j).slotCount
  tidy : ∀ i, i ≤ R.len → ∀ t call program, (R.cfg i).thread t = .busy call program →
    Tidy S.D program

theorem Obedient.quietRun {S : Setting n} {T : ThreadSystem (coreMachine n)}
    {Keeps : T.Loc → (Nat → Bool) → Nat → Prop} (obedient : Obedient S T Keeps) {R : T.Run}
    {garbage : Nat → Rec n} {heap : Heap} {kept : T.Loc}
    (starts : R.StartsIn (Core.fresh garbage heap) kept) (keeps : Keeps kept (fun _ => false) 0)
    (codes : ∀ t call kept, Tidy S.D (T.code t call kept)) : QuietRun S R where
  explained := quietRun_explained obedient starts keeps
  mono _ _ order bound := slotCount_mono obedient starts keeps order bound
  tidy := R.heeds starts codes

namespace QuietRun

variable {S : Setting n} {T : ThreadSystem (coreMachine n)} {R : T.Run} {idx : Nat}

theorem step (quiet : QuietRun S R) {m : Nat} (bound : m < R.len)
    (allocated : idx < (R.st m).slotCount) :
    ∃ g, Quietly S (R.cfg m) g ∧ SlotMove g idx ((R.ev m).labelled Act.mark)
      ((R.st m).slot idx) ((R.st (m + 1)).slot idx) := by
  obtain ⟨g, quietly⟩ := quiet.explained m (Nat.le_of_lt bound)
  exact ⟨g, quietly, slot_move quietly.toExplains bound allocated⟩

theorem not_truncating {m : Nat} {g : Nat → Ghost n} (quietly : Quietly S (R.cfg m) g) :
    ¬ Truncating g := by
  rintro ⟨u, truncates⟩
  exact quietly.untruncated u truncates

/-- A counter of a slot that one mark raises counts the steps with the mark, modulo 2^32. -/
theorem counter_eq (quiet : QuietRun S R) (counter : Slot n → UInt32) {mark : Mark}
    (counts : ∀ {g : Nat → Ghost n} {label : Option Mark} {slot slot' : Slot n},
      SlotMove g idx label slot slot' →
      counter slot' = if label = some mark then counter slot + 1 else counter slot)
    {a b : Nat} (order : a ≤ b) (bound : b ≤ R.len) (allocated : idx < (R.st a).slotCount) :
    counter ((R.st b).slot idx) =
      counter ((R.st a).slot idx) + UInt32.ofNat (markCount R mark a b) := by
  induction b, order using Nat.le_induction with
  | base =>
      rw [markCount_self]
      exact (UInt32.add_zero _).symm
  | succ b order ih =>
      have below : idx < (R.st b).slotCount :=
        Nat.lt_of_lt_of_le allocated (quiet.mono a b order (Nat.le_of_succ_le bound))
      obtain ⟨g, _, step⟩ := quiet.step bound below
      rw [markCount_succ order, counts step, ih (Nat.le_of_succ_le bound)]
      by_cases marked : Marked R b mark
      · rw [if_pos marked, if_pos (show _ = _ from marked), UInt32.ofNat_add, UInt32.add_assoc]
        rfl
      · rw [if_neg marked, if_neg (show ¬ _ = _ from marked), Nat.add_zero]

theorem counter_same (quiet : QuietRun S R) (counter : Slot n → UInt32) {mark : Mark}
    (counts : ∀ {g : Nat → Ghost n} {label : Option Mark} {slot slot' : Slot n},
      SlotMove g idx label slot slot' →
      counter slot' = if label = some mark then counter slot + 1 else counter slot)
    {a b : Nat} (order : a ≤ b) (bound : b ≤ R.len) (allocated : idx < (R.st a).slotCount)
    (few : markCount R mark a b < 2 ^ 32)
    (same : counter ((R.st b).slot idx) = counter ((R.st a).slot idx)) :
    markCount R mark a b = 0 := by
  rw [quiet.counter_eq counter counts order bound allocated] at same
  have asNat := congrArg UInt32.toNat same
  rw [UInt32.toNat_add, UInt32.toNat_ofNat_of_lt' few] at asNat
  have below := (counter ((R.st a).slot idx)).toNat_lt
  omega

/-! ### One row in a slot -/

/-- A row was ACTIVE in the slot and its delete, if any, is not past the bump of the
generation. -/
def Lives (R : T.Run) (idx m : Nat) : Prop :=
  ((R.st m).slot idx).state = .active ∨ ((R.st m).slot idx).state = .deleting ∨
    (((R.st m).slot idx).state = .deleted ∧ ∃ t call program,
      (R.cfg m).thread t = .busy call program ∧ BumpsNext idx program)

theorem Lives.allocated {m : Nat} (lives : Lives R idx m) (quiet : QuietRun S R)
    (bound : m ≤ R.len) : idx < (R.st m).slotCount := by
  obtain ⟨g, quietly⟩ := quiet.explained m bound
  by_contra beyond
  have free : ((R.st m).slot idx).state = .free :=
    quietly.inv.roles.unallocated idx (Nat.not_lt.mp beyond)
  rcases lives with active | deleting | ⟨deleted, _⟩
  · cases free.symm.trans active
  · cases free.symm.trans deleting
  · cases free.symm.trans deleted

theorem retire_action {s s' : Core n} {t : Nat} {ρ : Type} {action : Act n ρ} {result : ρ}
    {α : Type} {next : ρ → CoreProg n α} (tidy : action.Tidy S.D next)
    (ran : Act.exec t action s = some (result, s')) (deleting : (s.slot idx).state = .deleting)
    (deleted : (s'.slot idx).state = .deleted) : BumpsNext idx (next result) := by
  -- an update of another field keeps the state
  have kept : ∀ {j : Nat} {slot : Slot n}, slot.state = (s.slot j).state →
      (Function.update s.slot j slot idx).state ≠ .deleted := by
    intro j slot same now
    by_cases here : idx = j
    · subst here
      rw [Function.update_self, same, deleting] at now
      cases now
    · rw [Function.update_of_ne here, deleting] at now
      cases now
  cases action with
  | storeState j state =>
      cases ran
      change (Function.update s.slot j _ idx).state = .deleted at deleted
      by_cases here : idx = j
      · subst here
        rw [Function.update_self] at deleted
        change state = .deleted at deleted
        subst deleted
        exact tidy
      · rw [Function.update_of_ne here, deleting] at deleted
        cases deleted
  | storeData j rec =>
      cases ran
      exact absurd deleted (kept rfl)
  | storeByte j at_ byte =>
      cases ran
      exact absurd deleted (kept rfl)
  | bumpSeq j =>
      cases ran
      exact absurd deleted (kept rfl)
  | bumpGen j =>
      cases ran
      exact absurd deleted (kept rfl)
  | initSlots c =>
      cases ran
      change (if idx / fmChunkSize = c then (⟨.free, 0, 0, (s.slot idx).data⟩ : Slot n)
        else s.slot idx).state = .deleted at deleted
      split at deleted
      · cases deleted
      · rw [deleting] at deleted
        cases deleted
  | lock l =>
      simp only [Act.exec] at ran
      split at ran
      · cases ran
        cases deleting.symm.trans deleted
      · cases ran
  | _ =>
      cases ran
      cases deleting.symm.trans deleted

theorem retire_bumps (quiet : QuietRun S R) {m : Nat} (bound : m < R.len)
    (deleting : ((R.st m).slot idx).state = .deleting)
    (deleted : ((R.st (m + 1)).slot idx).state = .deleted) :
    ∃ t call program, (R.cfg (m + 1)).thread t = .busy call program ∧ BumpsNext idx program := by
  rcases R.acts bound with ⟨call, ρ, action, next, result, busy, _, ran, after⟩ | ⟨_, same⟩
  · have rule := (quiet.tidy m (Nat.le_of_lt bound) _ _ _ busy).1
    exact ⟨R.tid m, call, next result, after, retire_action rule ran deleting deleted⟩
  · rw [same, deleting] at deleted
    cases deleted

theorem bumping_retires {m t : Nat} {call : T.Call} {program : CoreProg n (T.Res × T.Loc)}
    {g : Nat → Ghost n} (quietly : Quietly S (R.cfg m) g)
    (busy : (R.cfg m).thread t = .busy call program) (bumps : BumpsNext idx program) :
    Retiring g idx := by
  cases program with
  | ret value => exact bumps.elim
  | loop body start next => exact bumps.elim
  | act action next =>
      have permitted := quietly.permits busy
      cases action with
      | bumpGen j =>
          cases (show j = idx from bumps)
          rcases permitted with ⟨counted, role⟩ | ⟨⟨cleared, emptied, role⟩, _⟩
          · exact ⟨t, counted, role⟩
          · exact absurd ⟨cleared, emptied, role⟩ (quietly.untruncated t)
      | _ => exact bumps.elim

theorem bumping_waits {m t : Nat} {call : T.Call} {program : CoreProg n (T.Res × T.Loc)}
    (bound : m < R.len) (unbumped : ¬ Marked R m (.bumpGen idx))
    (busy : (R.cfg m).thread t = .busy call program) (bumps : BumpsNext idx program) :
    (R.cfg (m + 1)).thread t = .busy call program := by
  by_cases own : t = R.tid m
  · subst own
    exfalso
    apply unbumped
    cases program with
    | ret value => exact bumps.elim
    | loop body start next => exact bumps.elim
    | act action next =>
        cases action with
        | bumpGen j =>
            cases (show j = idx from bumps)
            obtain ⟨result, event⟩ := R.event_of_busy bound busy
            rw [Marked, event]
            rfl
        | _ => exact bumps.elim
  · exact ((R.step m bound).others own).trans busy

theorem Lives.retiring {m : Nat} {g : Nat → Ghost n} (lives : Lives R idx m)
    (quietly : Quietly S (R.cfg m) g) (unused : ((R.st m).slot idx).state.unused) :
    Retiring g idx := by
  rcases lives with active | deleting | ⟨_, t, call, program, busy, next⟩
  · exact absurd active unused.not_active
  · exact absurd deleting unused.not_deleting
  · exact bumping_retires quietly busy next

theorem Lives.step {m : Nat} (lives : Lives R idx m) (quiet : QuietRun S R) (bound : m < R.len)
    (unbumped : ¬ Marked R m (.bumpGen idx)) :
    Lives R idx (m + 1) ∧ (((R.st (m + 1)).slot idx).state = .active ∨
      (((R.st (m + 1)).slot idx).data = ((R.st m).slot idx).data ∧
        ((R.st (m + 1)).slot idx).seq = ((R.st m).slot idx).seq)) := by
  obtain ⟨g, quietly, step⟩ := quiet.step bound (lives.allocated quiet (Nat.le_of_lt bound))
  have bumps : ((R.st m).slot idx).state = .deleting →
      ((R.st (m + 1)).slot idx).state = .deleted → _ := quiet.retire_bumps bound
  unfold Lives
  generalize (R.st (m + 1)).slot idx = slot' at step bumps ⊢
  cases step with
  | other sameGen sameSeq =>
      refine ⟨?_, Or.inr ⟨rfl, rfl⟩⟩
      rcases lives with active | deleting | ⟨deleted, t, call, program, busy, next⟩
      · exact Or.inl active
      · exact Or.inr (Or.inl deleting)
      · exact Or.inr (Or.inr ⟨deleted, t, call, program, bumping_waits bound unbumped busy next,
          next⟩)
  | fill data sameGen sameSeq unused owned => exact absurd (lives.retiring quietly unused) owned
  | write data sameGen sameSeq active odd => exact ⟨Or.inl active, Or.inl active⟩
  | bumpSeq marked active => exact ⟨Or.inl active, Or.inl active⟩
  | publish sameGen sameSeq unused owned => exact absurd (lives.retiring quietly unused) owned
  | flip sameGen sameSeq active even => exact ⟨Or.inr (Or.inl rfl), Or.inr ⟨rfl, rfl⟩⟩
  | retire sameGen sameSeq deleting =>
      exact ⟨Or.inr (Or.inr ⟨rfl, bumps deleting rfl⟩), Or.inr ⟨rfl, rfl⟩⟩
  | wipe sameGen sameSeq even clearing => exact absurd clearing (not_truncating quietly)
  | bumpGen marked retired => exact absurd marked unbumped

/-- As long as the generation is not bumped, the slot holds an image the row had while it was
ACTIVE. -/
theorem image_active (quiet : QuietRun S R) {a m : Nat} (order : a ≤ m) (bound : m ≤ R.len)
    (active : ((R.st a).slot idx).state = .active)
    (unbumped : ∀ k, a ≤ k → k < m → ¬ Marked R k (.bumpGen idx)) :
    Lives R idx m ∧ ∃ m', a ≤ m' ∧ m' ≤ m ∧ ((R.st m').slot idx).state = .active ∧
      ((R.st m').slot idx).data = ((R.st m).slot idx).data ∧
      ((R.st m').slot idx).seq = ((R.st m).slot idx).seq := by
  induction m, order using Nat.le_induction with
  | base => exact ⟨Or.inl active, a, Nat.le_refl a, Nat.le_refl a, active, rfl, rfl⟩
  | succ m order ih =>
      obtain ⟨lives, m', lower, upper, wasActive, data, seq⟩ :=
        ih (Nat.le_of_succ_le bound) fun k lower upper => unbumped k lower (by omega)
      obtain ⟨lives', still⟩ := lives.step quiet bound (unbumped m order (Nat.lt_succ_self m))
      refine ⟨lives', ?_⟩
      rcases still with isActive | ⟨sameData, sameSeq⟩
      · exact ⟨m + 1, by omega, Nat.le_refl _, isActive, rfl, rfl⟩
      · exact ⟨m', lower, by omega, wasActive, data.trans sameData.symm, seq.trans sameSeq.symm⟩

theorem image_same (quiet : QuietRun S R) {c e : Nat} (order : c ≤ e) (bound : e ≤ R.len)
    (lives : ∀ m, c ≤ m → m < e → Lives R idx m) (even : ¬ ((R.st c).slot idx).seq % 2 = 1)
    (unmarked : ∀ m, c ≤ m → m < e → ¬ Marked R m (.bumpSeq idx)) :
    ((R.st e).slot idx).data = ((R.st c).slot idx).data ∧
      ((R.st e).slot idx).seq = ((R.st c).slot idx).seq := by
  induction e, order using Nat.le_induction with
  | base => exact ⟨rfl, rfl⟩
  | succ e order ih =>
      obtain ⟨data, seq⟩ := ih (Nat.le_of_succ_le bound)
        (fun m lower upper => lives m lower (by omega))
        (fun m lower upper => unmarked m lower (by omega))
      have alive := lives e order (Nat.lt_succ_self e)
      have still := unmarked e order (Nat.lt_succ_self e)
      obtain ⟨g, quietly, step⟩ := quiet.step bound (alive.allocated quiet (Nat.le_of_succ_le bound))
      rw [← data, ← seq]
      rw [← seq] at even
      have sameSeq := step.seq_eq
      rw [if_neg (show ¬ _ = _ from still)] at sameSeq
      refine ⟨?_, sameSeq⟩
      generalize (R.st (e + 1)).slot idx = slot' at step
      cases step with
      | fill data sameGen sameSeq unused owned =>
          exact absurd (alive.retiring quietly unused) owned
      | write data sameGen sameSeq active odd => exact absurd odd even
      | _ => rfl

structure Holds (gran : Gran) (R : T.Run) (idx : Nat) (image : Rec n) (m : Nat) : Prop where
  active : ((R.st m).slot idx).state = .active
  data : ((R.st m).slot idx).data = image
  complete : gran = .bytewise → ¬ ((R.st m).slot idx).seq % 2 = 1

/-- A read whose last round no bump of the generation falls into returned an image the row had
while it was ACTIVE. -/
theorem round_image (quiet : QuietRun S R) {gran : Gran} {t a c e : Nat} {buf : Rec n}
    (round : LastRound gran R t idx buf a c e) (bound : e ≤ R.len)
    (unbumped : ∀ m, a ≤ m → m < e → ¬ Marked R m (.bumpGen idx))
    (few : gran = .bytewise → markCount R (.bumpSeq idx) c e < 2 ^ 32) :
    ∃ m, a ≤ m ∧ m ≤ e ∧ Holds gran R idx buf m := by
  obtain ⟨beforeC, beforeE⟩ := round.order
  have reach : ∀ m, a ≤ m → m ≤ e → _ := fun m lower upper =>
    quiet.image_active lower (upper.trans bound) round.active fun k from_ until_ =>
      unbumped k from_ (by omega)
  cases gran with
  | whole =>
      obtain ⟨m, lower, upper, image⟩ := round.whole rfl
      obtain ⟨_, m', lower', upper', active, data, _⟩ := reach m (by omega) (by omega)
      exact ⟨m', lower', by omega, active, data.trans image.symm, fun clash => by cases clash⟩
  | bytewise =>
      have allocated := (reach c (by omega) (by omega)).1.allocated quiet (by omega)
      have none := quiet.counter_same Slot.seq SlotMove.seq_eq (Nat.le_of_lt beforeE)
        bound allocated (few rfl) round.same
      -- nothing is stored between the two loads of the counter
      have stays : ∀ m, c ≤ m → m ≤ e →
          ((R.st m).slot idx).data = ((R.st c).slot idx).data := by
        intro m lower upper
        exact (quiet.image_same lower (upper.trans bound)
          (fun k from_ until_ => (reach k (by omega) (by omega)).1) round.even
          fun k from_ until_ => markCount_zero none from_ (by omega)).1
      have image : buf = ((R.st c).slot idx).data := by
        funext x
        obtain ⟨m, lower, upper, byte⟩ := round.bytes x
        rw [byte, stays m (by omega) (by omega)]
      obtain ⟨_, m', lower', upper', active, data, seq⟩ := reach c (by omega) (by omega)
      refine ⟨m', lower', by omega, active, data.trans image.symm, fun _ => ?_⟩
      rw [seq]
      exact round.even

end QuietRun

end Fastmem
