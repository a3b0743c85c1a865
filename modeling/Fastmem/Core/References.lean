/-
References to rows: a slot number with the generation it had.

Over a whole run of calls the generation of a slot counts how often a row left
it, modulo 2^32. A slot that takes a row again has been left since, so while
the count stays below 2^32 no two inserts yield the same pair, and a reference
is honoured exactly until its row is deleted or cleared.
-/

import Fastmem.Core.SlotLedger

set_option autoImplicit false

namespace Fastmem

open Prog (perform iterate forEach foldEach)
open Machine

variable {n : Nat}

namespace CallStep

def yields (step : CallStep n) : Option (Nat × UInt32) :=
  match step.call, step.result with
  | .insertRow _, .ok idx => some (idx, (step.after.slot idx).gen)
  | _, _ => none

def ends (idx : Nat) (step : CallStep n) : Bool :=
  match step.call, step.result with
  | .deleteRow i _, .ok _ | .deleteRowLocked i _, .ok _ => i = idx
  | .clear, _ => true
  | _, _ => false

def bumps (idx : Nat) (step : CallStep n) : Bool :=
  step.ends idx && idx < step.before.slotCount

end CallStep

def bumpsOf (steps : List (CallStep n)) (idx : Nat) : Nat := steps.countP (CallStep.bumps idx)

/-! ### One call, one slot -/

/-- All a call can do to slot `i`. -/
structure SlotStep (step : CallStep n) (i : Nat) : Prop where
  stays : step.bumps i = false → (step.before.slot i).state = .active →
    (step.after.slot i).state = .active
  leaves : step.bumps i = true → (step.after.slot i).state ≠ .active
  enters : (step.after.slot i).state = .active →
    (step.before.slot i).state = .active ∨ ∃ g, step.yields = some (i, g)
  gen : (step.after.slot i).gen = (step.before.slot i).gen + (if step.bumps i then 1 else 0) ∨
    step.before.slotCount ≤ i ∧ (step.after.slot i).gen = 0
  seq : (step.before.slot i).seq % 2 = 0 → (step.after.slot i).seq % 2 = 0
  yielded : ∀ g, step.yields = some (i, g) → (step.before.slot i).state ≠ .active ∧
    (step.after.slot i).state = .active ∧ (step.after.slot i).gen = g

section Steps

variable {t : Nat} {s s' : Core n} {D : ShareDef n} {gran : Gran} {L : Ledger}
  {call : SerialCall n} {result : call.Res} {i : Nat}

theorem SlotStep.neutral (notEnded : (CallStep.mk s call result s').ends i = false)
    (notMade : (CallStep.mk s call result s').yields = none)
    (state : (s'.slot i).state = (s.slot i).state) (gen : (s'.slot i).gen = (s.slot i).gen)
    (seq : (s.slot i).seq % 2 = 0 → (s'.slot i).seq % 2 = 0) :
    SlotStep ⟨s, call, result, s'⟩ i := by
  have notBumped : (CallStep.mk s call result s').bumps i = false := by
    simp [CallStep.bumps, notEnded]
  refine ⟨fun _ active => state.trans active, ?_, fun active => Or.inl (state.symm.trans active),
    Or.inl ?_, seq, ?_⟩
  · intro bumped
    rw [notBumped] at bumped
    cases bumped
  · simpa [notBumped] using gen
  · intro g made
    rw [notMade] at made
    cases made

theorem UpdateFrame.slot {idx : Nat} {new : Rec n} {result : Except Err Unit}
    (framed : UpdateFrame s idx new result s') (i : Nat) :
    (s'.slot i).state = (s.slot i).state ∧ (s'.slot i).gen = (s.slot i).gen ∧
      ((s.slot i).seq % 2 = 0 → (s'.slot i).seq % 2 = 0) := by
  cases result with
  | error e =>
      rw [show s' = s from framed]
      exact ⟨rfl, rfl, id⟩
  | ok _ =>
      obtain ⟨cell, rfl, _⟩ := framed
      by_cases here : i = idx
      · subst here
        simp only [Core.setSlot, Function.update_self]
        exact ⟨rfl, rfl, even_add_two⟩
      · simp [Core.setSlot, here]

theorem DeleteFrame.slotStep {idx : Nat} {g : UInt32} {outcome : Except Err Unit}
    (framed : DeleteFrame s idx g outcome s') (below : idx < s.slotCount)
    (made : (CallStep.mk s call result s').yields = none)
    (ended : (CallStep.mk s call result s').ends i =
      match outcome with
      | .ok _ => decide (idx = i)
      | .error _ => false) :
    SlotStep ⟨s, call, result, s'⟩ i := by
  cases outcome with
  | error e =>
      obtain ⟨_, _, rfl⟩ := framed
      exact SlotStep.neutral ended made rfl rfl id
  | ok _ =>
      obtain ⟨_, cell, _, after⟩ := framed
      have slots : s'.slot = Function.update s.slot idx (s.slot idx).retired :=
        congrArg Core.slot after
      by_cases here : idx = i
      · subst here
        have bumped : (CallStep.mk s call result s').bumps idx = true := by
          simp only [CallStep.bumps, ended, decide_true, Bool.true_and, decide_eq_true_eq]
          exact below
        refine ⟨?_, ?_, ?_, Or.inl ?_, ?_, ?_⟩
        · intro notBumped
          rw [bumped] at notBumped
          cases notBumped
        · simp [slots, Slot.retired]
        · simp [slots, Slot.retired]
        · simp [bumped, slots, Slot.retired]
        · simp [slots, Slot.retired]
        · intro g impossible
          rw [made] at impossible
          cases impossible
      · have other : i ≠ idx := fun same => here same.symm
        refine SlotStep.neutral (by simp [ended, here]) made ?_ ?_ ?_ <;> simp [slots, other]

theorem insert_slot {rec : Rec n} {outcome : Except Err Nat} (books : Books s L)
    (sound : L.Sound D.maxRecords none) (quiet : Quiet s)
    (ran : Runs t (fmCoreInsertRow D gran rec) s outcome s') (i : Nat) :
    ∃ slot : Slot n, (slot = s.slot i ∨
        s.slotCount ≤ i ∧ slot = ⟨.free, 0, 0, (s.slot i).data⟩) ∧
      (outcome = .ok i ∧ (s.slot i).state ≠ .active ∧
          s'.slot i = { slot.withData rec with state := .active } ∨
        outcome ≠ .ok i ∧ (∃ data, s'.slot i = slot.withData data) ∧
          (slot.state = .active → s'.slot i = slot)) := by
  obtain ⟨slot, mid, _, slots, framed, taken⟩ := insert_books books sound quiet ran
  rw [← books.total] at slots
  refine ⟨mid.slot i, slots i, ?_⟩
  cases slot with
  | none =>
      obtain ⟨rfl, rfl⟩ := framed
      exact Or.inr ⟨by simp, ⟨_, rfl⟩, fun _ => rfl⟩
  | some idx =>
      obtain ⟨held, took, books'⟩ := taken
      obtain ⟨below, dead⟩ := (sound.take took).aside idx rfl
      have unused : (mid.slot idx).state ≠ .active := fun active => by
        rw [(books'.live idx).mp active] at dead
        cases dead
      obtain ⟨cell, _, ⟨⟨errkey, rfl⟩, rfl⟩ | ⟨rfl, rfl⟩⟩ := framed
      · refine Or.inr ⟨by simp, ?_, ?_⟩
        · by_cases here : i = idx
          · subst here
            exact ⟨rec, by simp [Core.setSlot]⟩
          · exact ⟨(mid.slot i).data, by simp [Core.setSlot, here, Slot.withData]⟩
        · intro active
          have other : i ≠ idx := fun same => unused (same ▸ active)
          simp [Core.setSlot, other]
      · by_cases here : i = idx
        · subst here
          refine Or.inl ⟨rfl, ?_, by simp [Core.setSlot]⟩
          rcases slots i with same | ⟨above, reset⟩
          · rw [← same]
            exact unused
          · intro active
            have alive := sound.below i ((books.live i).mp active)
            rw [← books.total] at alive
            omega
        · refine Or.inr ⟨?_, ⟨(mid.slot i).data, by simp [Core.setSlot, here, Slot.withData]⟩,
            fun _ => by simp [Core.setSlot, here]⟩
          intro same
          exact here (Except.ok.inj same).symm

theorem insert_slotStep {rec : Rec n} {outcome : Except Err Nat} (books : Books s L)
    (sound : L.Sound D.maxRecords none) (quiet : Quiet s)
    (ran : Runs t (fmCoreInsertRow D gran rec) s outcome s') (i : Nat) :
    SlotStep ⟨s, .insertRow rec, outcome, s'⟩ i := by
  have notBumped : (CallStep.mk s (.insertRow rec) outcome s').bumps i = false := by
    cases outcome <;> rfl
  have yields : ∀ {g}, (CallStep.mk s (.insertRow rec) outcome s').yields = some (i, g) ↔
      outcome = .ok i ∧ (s'.slot i).gen = g := by
    intro g
    cases outcome with
    | error e => simp [CallStep.yields]
    | ok idx =>
        simp only [CallStep.yields, Option.some.injEq, Prod.mk.injEq, Except.ok.injEq]
        constructor
        · rintro ⟨rfl, same⟩
          exact ⟨rfl, same⟩
        · rintro ⟨rfl, same⟩
          exact ⟨rfl, same⟩
  obtain ⟨slot, prepared, outcomes⟩ := insert_slot books sound quiet ran i
  have gen : (s'.slot i).gen = slot.gen := by
    rcases outcomes with ⟨_, _, after⟩ | ⟨_, ⟨data, after⟩, _⟩
    · rw [after]
      rfl
    · rw [after]
      rfl
  have seq : (s'.slot i).seq = slot.seq := by
    rcases outcomes with ⟨_, _, after⟩ | ⟨_, ⟨data, after⟩, _⟩
    · rw [after]
      rfl
    · rw [after]
      rfl
  refine ⟨?_, ?_, ?_, ?_, ?_, ?_⟩
  · intro _ active
    rcases outcomes with ⟨_, unused, _⟩ | ⟨_, _, same⟩
    · exact absurd active unused
    · rcases prepared with rfl | ⟨above, _⟩
      · rw [same active]
        exact active
      · have alive := sound.below i ((books.live i).mp active)
        rw [← books.total] at alive
        change s.slotCount ≤ i at above
        omega
  · intro bumped
    rw [notBumped] at bumped
    cases bumped
  · intro active
    rcases outcomes with ⟨accepted, _⟩ | ⟨_, ⟨data, after⟩, _⟩
    · exact Or.inr ⟨_, yields.mpr ⟨accepted, rfl⟩⟩
    · have stateAfter : (s'.slot i).state = slot.state := by rw [after]; rfl
      rcases prepared with rfl | ⟨_, reset⟩
      · exact Or.inl (stateAfter.symm.trans active)
      · rw [reset] at stateAfter
        rw [stateAfter] at active
        cases active
  · rw [notBumped]
    rcases prepared with rfl | ⟨above, reset⟩
    · exact Or.inl (by simpa using gen)
    · exact Or.inr ⟨above, by rw [gen, reset]⟩
  · intro even
    change (s'.slot i).seq % 2 = 0
    rw [seq]
    rcases prepared with rfl | ⟨_, reset⟩
    · exact even
    · rw [reset]
      rfl
  · intro g made
    obtain ⟨accepted, gen⟩ := yields.mp made
    rcases outcomes with ⟨_, unused, after⟩ | ⟨refused, _⟩
    · refine ⟨unused, ?_, gen⟩
      change (s'.slot i).state = .active
      rw [after]
    · exact absurd accepted refused

theorem call_slotStep (books : Books s L) (sound : L.Sound D.maxRecords none) (quiet : Quiet s)
    (inRange : call.InRange D s) (ran : Runs t (call.program D gran) s result s') (i : Nat) :
    SlotStep ⟨s, call, result, s'⟩ i := by
  have bucketsFree : ∀ idx k b,
      (s.setOwner (.wlock idx) (some t)).owner (.bucket k b) = none := fun idx k b =>
    (owner_setOwner_of_ne (by simp)).trans (quiet _)
  cases call with
  | insertRow rec => exact insert_slotStep books sound quiet ran i
  | updateRow idx g old new =>
      obtain ⟨state, gen, seq⟩ := (updateRow_inv quiet ran).2.slot i
      exact SlotStep.neutral rfl rfl state gen seq
  | updateRowLocked idx g old new =>
      obtain ⟨free, mid, inner, rfl⟩ := withRowLock_inv ran
      have framed := (updateRowLocked_inv (bucketsFree idx) inner).2.underLock free
      obtain ⟨state, gen, seq⟩ := framed.slot i
      exact SlotStep.neutral rfl rfl state gen seq
  | deleteRow idx g =>
      refine (deleteRow_inv ran).slotStep inRange rfl ?_
      cases result <;> rfl
  | deleteRowLocked idx g =>
      obtain ⟨free, mid, inner, rfl⟩ := withRowLock_inv ran
      refine ((deleteRowLocked_inv inner).underLock free).slotStep inRange rfl ?_
      cases result <;> rfl
  | clear =>
      obtain ⟨cell, _, after⟩ := clear_inv (fun i => quiet _) ran
      have slots : s'.slot i = if i < s.slotCount then (s.slot i).cleared else s.slot i := by
        rw [after]
      by_cases below : i < s.slotCount
      · rw [if_pos below] at slots
        have bumped : (CallStep.mk s .clear result s').bumps i = true := by
          simpa [CallStep.bumps, CallStep.ends] using below
        refine ⟨?_, ?_, ?_, Or.inl ?_, ?_, ?_⟩
        · intro notBumped
          rw [bumped] at notBumped
          cases notBumped
        · simp [slots, Slot.cleared]
        · simp [slots, Slot.cleared]
        · simp [bumped, slots, Slot.cleared]
        · simp [slots, Slot.cleared]
        · intro g impossible
          cases impossible
      · rw [if_neg below] at slots
        have notBumped : (CallStep.mk s .clear result s').bumps i = false := by
          simpa [CallStep.bumps, CallStep.ends] using below
        refine ⟨?_, ?_, ?_, Or.inl ?_, ?_, ?_⟩
        · simp [slots]
        · intro bumped
          rw [notBumped] at bumped
          cases bumped
        · simp only [slots]
          exact Or.inl
        · simp [notBumped, slots]
        · simp [slots]
        · intro g impossible
          cases impossible
  | readRow idx g =>
      obtain rfl := reads_unchanged (readRow_reads idx true g) ran
      exact SlotStep.neutral rfl rfl rfl rfl id
  | find key packed =>
      obtain rfl := find_inv ran
      exact SlotStep.neutral rfl rfl rfl rfl id
  | scan =>
      obtain rfl := reads_unchanged scanPass_reads ran
      exact SlotStep.neutral rfl rfl rfl rfl id

end Steps

/-! ### Whole runs -/

theorem bumpsOf_snoc (steps : List (CallStep n)) (step : CallStep n) (i : Nat) :
    bumpsOf (steps ++ [step]) i = bumpsOf steps i + if step.bumps i then 1 else 0 := by
  simp [bumpsOf, List.countP_append, List.countP_singleton]

theorem yields_snoc (steps : List (CallStep n)) (step : CallStep n) :
    (steps ++ [step]).filterMap CallStep.yields =
      steps.filterMap CallStep.yields ++ step.yields.toList := by
  rw [List.filterMap_append]
  cases made : step.yields <;> simp [made]

theorem bumpsOf_append (earlier later : List (CallStep n)) (i : Nat) :
    bumpsOf (earlier ++ later) i = bumpsOf earlier i + bumpsOf later i :=
  List.countP_append

theorem Ledger.Entry.total_le {limit : Nat} {L L' : Ledger} {call : SerialCall n}
    {result : call.Res} (entry : L.Entry limit call result L') : L.total ≤ L'.total := by
  have taken_le : ∀ {idx held}, L.take limit = some (idx, held) → L.total ≤ held.total := by
    intro idx held taken
    unfold Ledger.take at taken
    split at taken
    · cases taken
      exact Nat.le_refl _
    · split at taken
      · cases taken
      · cases taken
        exact Nat.le_add_right ..
  unfold Ledger.Entry at entry
  split at entry
  · obtain ⟨held, taken, rfl⟩ := entry
    exact (taken_le taken : L.total ≤ held.total)
  · obtain ⟨idx, held, taken, rfl⟩ := entry
    exact (taken_le taken : L.total ≤ held.total)
  · obtain ⟨_, rfl⟩ := entry
    exact Nat.le_refl _
  · obtain ⟨_, rfl⟩ := entry
    exact Nat.le_refl _
  · subst entry
    exact Nat.le_refl _
  · subst entry
    exact Nat.le_refl _

section Runs

variable {D : ShareDef n} {gran : Gran} {garbage : Nat → Rec n} {heap : Heap}
  {steps earlier later : List (CallStep n)} {s u : Core n}

theorem CallRun.append (first : CallRun D gran (Core.fresh garbage heap) earlier u)
    (second : CallRun D gran u later s) :
    CallRun D gran (Core.fresh garbage heap) (earlier ++ later) s := by
  induction second with
  | nil =>
      rw [List.append_nil]
      exact first
  | snoc _ inRange ran ih =>
      rw [← List.append_assoc]
      exact ih.snoc inRange ran

structure Aged (steps : List (CallStep n)) (s : Core n) : Prop where
  gen : ∀ i, (s.slot i).gen = UInt32.ofNat (bumpsOf steps i)
  seq : ∀ i, (s.slot i).seq % 2 = 0
  unborn : ∀ i, s.slotCount ≤ i → bumpsOf steps i = 0

theorem CallRun.aged (run : CallRun D gran (Core.fresh garbage heap) steps s) : Aged steps s := by
  induction run with
  | nil => exact ⟨fun _ => rfl, fun _ => rfl, fun _ _ => rfl⟩
  | @snoc steps s s' t call result before inRange ran ih =>
      obtain ⟨quiet, L, books, sound⟩ := before.books
      have slots := call_slotStep books sound quiet inRange ran
      obtain ⟨L', entry, books', _⟩ := call_books books sound quiet ran
      have grown : s.slotCount ≤ s'.slotCount := by
        rw [books.total, books'.total]
        exact entry.total_le
      have quietAbove : ∀ i, s.slotCount ≤ i →
          (CallStep.mk s call result s').bumps i = false := by
        intro i above
        have notBelow : ¬ i < s.slotCount := Nat.not_lt.mpr above
        simp [CallStep.bumps, notBelow]
      refine ⟨fun i => ?_, fun i => (slots i).seq (ih.seq i), fun i above => ?_⟩
      · rw [bumpsOf_snoc]
        rcases (slots i).gen with gen | ⟨above, gen⟩
        · change (s'.slot i).gen = (s.slot i).gen + _ at gen
          rw [gen, ih.gen i]
          split
          · exact (UInt32.ofNat_add _ 1).symm
          · simp
        · change (s'.slot i).gen = 0 at gen
          rw [gen, quietAbove i above, ih.unborn i above]
          rfl
      · rw [bumpsOf_snoc, quietAbove i (Nat.le_trans grown above),
          ih.unborn i (Nat.le_trans grown above)]
        rfl

theorem ofNat_inj {a b : Nat} (small : a < 2 ^ 32) (small' : b < 2 ^ 32)
    (same : UInt32.ofNat a = UInt32.ofNat b) : a = b := by
  have nat := congrArg UInt32.toNat same
  rw [UInt32.toNat_ofNat', UInt32.toNat_ofNat'] at nat
  omega

/-- Every reference yielded so far names a count of bumps already reached, and passed if its
slot holds no row. -/
theorem CallRun.yielded (run : CallRun D gran (Core.fresh garbage heap) steps s)
    (few : ∀ i, bumpsOf steps i < 2 ^ 32) :
    (steps.filterMap CallStep.yields).Nodup ∧
      ∀ i g, (i, g) ∈ steps.filterMap CallStep.yields → ∃ b, g = UInt32.ofNat b ∧
        b ≤ bumpsOf steps i ∧ ((s.slot i).state ≠ .active → b < bumpsOf steps i) := by
  induction run with
  | nil => exact ⟨List.nodup_nil, by simp⟩
  | @snoc steps s s' t call result before inRange ran ih =>
      have fewer : ∀ i, bumpsOf steps i < 2 ^ 32 := fun i => by
        have bound := few i
        rw [bumpsOf_snoc] at bound
        omega
      obtain ⟨distinct, known⟩ := ih fewer
      obtain ⟨quiet, L, books, sound⟩ := before.books
      have slots := call_slotStep books sound quiet inRange ran
      have aged := before.aged
      have aged' := (before.snoc inRange ran).aged
      rw [yields_snoc]
      refine ⟨?_, ?_⟩
      · refine List.nodup_append.mpr ⟨distinct, ?_, ?_⟩
        · cases CallStep.yields ⟨s, call, result, s'⟩ <;> simp
        · rintro ⟨i, g⟩ old ⟨i', g'⟩ new same
          cases same
          have made : CallStep.yields ⟨s, call, result, s'⟩ = some (i, g) := by
            simpa using new
          obtain ⟨unused, active, gen⟩ := (slots i).yielded g made
          obtain ⟨b, rfl, _, passed⟩ := known i g old
          have notBumped : (CallStep.mk s call result s').bumps i ≠ true := fun bumped =>
            (slots i).leaves bumped active
          have reached := aged'.gen i
          rw [bumpsOf_snoc, if_neg notBumped, Nat.add_zero] at reached
          have equal := ofNat_inj (Nat.lt_trans (passed unused) (fewer i)) (fewer i)
            (gen.symm.trans reached)
          have less := passed unused
          omega
      · intro i g member
        rw [bumpsOf_snoc]
        rcases List.mem_append.mp member with old | new
        · obtain ⟨b, rfl, reached, passed⟩ := known i g old
          refine ⟨b, rfl, by omega, fun unused => ?_⟩
          by_cases bumped : (CallStep.mk s call result s').bumps i = true
          · rw [if_pos bumped]
            omega
          · rw [if_neg bumped, Nat.add_zero]
            refine passed fun active => unused ?_
            exact (slots i).stays (Bool.eq_false_of_not_eq_true bumped) active
        · have made : CallStep.yields ⟨s, call, result, s'⟩ = some (i, g) := by
            simpa using new
          obtain ⟨_, active, gen⟩ := (slots i).yielded g made
          refine ⟨_, gen.symm.trans (aged'.gen i), ?_, fun unused => absurd active unused⟩
          rw [bumpsOf_snoc]

/-- A row that was live in slot `idx` is live until a call ends it, and from then on its slot
has another generation. -/
theorem CallRun.followed {idx : Nat} {g : UInt32}
    (first : CallRun D gran (Core.fresh garbage heap) earlier u)
    (second : CallRun D gran u later s) (captured : liveAt u idx g) :
    idx < s.slotCount ∧
      ((∀ step ∈ later, step.ends idx = false) → liveAt s idx g) ∧
      ((∃ step ∈ later, step.ends idx = true) → 0 < bumpsOf later idx) := by
  induction second with
  | nil =>
      obtain ⟨_, L, books, sound⟩ := first.books
      refine ⟨?_, fun _ => captured, by simp⟩
      rw [books.total]
      exact sound.below idx ((books.live idx).mp captured.1)
  | @snoc later s s' t call result before inRange ran ih =>
      obtain ⟨below, living, ended⟩ := ih
      obtain ⟨quiet, L, books, sound⟩ := (first.append before).books
      have slots := call_slotStep books sound quiet inRange ran idx
      obtain ⟨L', entry, books', _⟩ := call_books books sound quiet ran
      have bumps : (CallStep.mk s call result s').bumps idx =
          (CallStep.mk s call result s').ends idx := by
        simp [CallStep.bumps, below]
      refine ⟨?_, fun quietSteps => ?_, ?_⟩
      · have grown := entry.total_le
        rw [← books.total, ← books'.total] at grown
        omega
      · have live := living fun step member => quietSteps step (List.mem_append_left _ member)
        have notBumped := bumps.trans
          (quietSteps _ (List.mem_append_right _ (List.mem_singleton_self _)))
        refine ⟨slots.stays notBumped live.1, ?_⟩
        rcases slots.gen with gen | ⟨above, _⟩
        · rw [notBumped] at gen
          exact (by simpa using gen : (s'.slot idx).gen = (s.slot idx).gen).trans live.2
        · exact absurd below (Nat.not_lt.mpr above)
      · rintro ⟨step, member, ends⟩
        rw [bumpsOf_snoc]
        rcases List.mem_append.mp member with old | new
        · have positive := ended ⟨step, old, ends⟩
          omega
        · rw [List.mem_singleton.mp new] at ends
          rw [if_pos (bumps.trans ends)]
          omega

/-- The reference is honoured: read, update and delete find the row, and nothing else. -/
structure Honoured (D : ShareDef n) (gran : Gran) (s : Core n) (idx : Nat) (g : UInt32)
    (t : Nat) : Prop where
  read : Runs t (fmCoreReadRow gran idx true g) s (.ok (s.slot idx).data) s
  update : ∀ old new result s',
    Runs t (withRowLock idx (fmCoreUpdateRowLocked D gran idx g old new)) s result s' →
      result = .ok () ∧ s'.slot = Function.update s.slot idx ((s.slot idx).rewritten new) ∨
        (∃ errkey, result = .error (.dupKey errkey)) ∧ s' = s
  delete : ∀ result s', Runs t (fmCoreDeleteRow D gran idx g) s result s' →
    result = .ok () ∧ s'.slot = Function.update s.slot idx (s.slot idx).retired

structure Refused (D : ShareDef n) (gran : Gran) (s : Core n) (idx : Nat) (g : UInt32)
    (t : Nat) : Prop where
  read : Runs t (fmCoreReadRow gran idx true g) s (.error .deleted) s
  update : ∀ old new, Runs t (withRowLock idx (fmCoreUpdateRowLocked D gran idx g old new)) s
    (.error .deleted) s
  delete : Runs t (fmCoreDeleteRow D gran idx g) s (.error .deleted) s

theorem honoured_of_live {idx : Nat} {g : UInt32} (t : Nat) (quiet : Quiet s)
    (even : (s.slot idx).seq % 2 = 0) (live : liveAt s idx g) : Honoured D gran s idx g t where
  read := by
    have outcome : readOutcome s idx true g = .ok (s.slot idx).data :=
      if_pos ⟨live.1, fun _ => live.2⟩
    rw [← outcome]
    exact readRow_runs even true g
  update := by
    intro old new result s' ran
    obtain ⟨free, mid, inner, rfl⟩ := withRowLock_inv ran
    obtain ⟨outcome, framed⟩ := updateRowLocked_inv
      (fun k b => (owner_setOwner_of_ne (by simp)).trans (quiet (.bucket k b))) inner
    have framed := framed.underLock free
    rcases outcome with ⟨stale, _⟩ | ⟨_, rfl | ⟨errkey, rfl⟩⟩
    · exact absurd live stale
    · obtain ⟨cell, after, _⟩ := framed
      exact Or.inl ⟨rfl, congrArg Core.slot after⟩
    · exact Or.inr ⟨⟨errkey, rfl⟩, framed⟩
  delete := by
    intro result s' ran
    have framed := deleteRow_inv ran
    cases result with
    | ok _ =>
        obtain ⟨_, cell, _, after⟩ := framed
        exact ⟨rfl, congrArg Core.slot after⟩
    | error e => exact absurd live framed.2.1

theorem refused_of_stale {idx : Nat} {g : UInt32} (t : Nat) (quiet : Quiet s)
    (even : (s.slot idx).seq % 2 = 0) (stale : ¬ liveAt s idx g) : Refused D gran s idx g t where
  read := by
    have outcome : readOutcome s idx true g = .error .deleted :=
      if_neg fun both => stale ⟨both.1, both.2 rfl⟩
    rw [← outcome]
    exact readRow_runs even true g
  update := by
    intro old new
    have staleStill : ¬ liveAt (s.setOwner (.wlock idx) (some t)) idx g := stale
    have refused : Runs t (fmCoreUpdateRowLocked D gran idx g old new)
        (s.setOwner (.wlock idx) (some t)) (.error .deleted)
        (s.setOwner (.wlock idx) (some t)) :=
      runs_bind (slotStale_refuses staleStill) (runs_pure _ _)
    refine runs_perform_bind (exec_lock (quiet _)) (runs_bind refused ?_)
    refine runs_perform_bind rfl ?_
    rw [setOwner_release (quiet _)]
    exact runs_pure _ s
  delete := by
    have staleStill : ¬ liveAt (s.setOwner (.wlock idx) (some t)) idx g := stale
    refine runs_perform_bind (exec_lock (quiet _)) ?_
    refine runs_bind (slotStale_refuses staleStill) (runs_perform_bind rfl ?_)
    rw [setOwner_release (quiet _)]
    exact runs_pure _ s

theorem CallRun.rep (run : CallRun D gran (Core.fresh garbage heap) steps s)
    (hashes : HashesAgree D) (allowed : ∀ step ∈ steps, step.call.Allowed D step.before) :
    Rep D s none := by
  induction run with
  | nil => exact Rep.fresh D garbage heap
  | @snoc steps s s' t call result before _ ran ih =>
      have rep := ih fun step member => allowed step (List.mem_append_left _ member)
      have here := allowed _ (List.mem_append_right _ (List.mem_singleton_self _))
      obtain ⟨_, _, ran', rep', _⟩ :=
        call_runs (t := t) gran hashes rep before.books.1 call here
      obtain ⟨_, rfl⟩ := ran.deterministic ran'
      exact rep'

end Runs

/-- Inserts of one run yield different references. A reference taken at any moment is honoured
while no call has deleted its row or cleared the table, and refused ever after. Where every
update was given its row's image, honoured calls return. -/
theorem callRun_references (D : ShareDef n) (gran : Gran) (garbage : Nat → Rec n) (heap : Heap)
    (earlier later : List (CallStep n)) (u s : Core n)
    (first : CallRun D gran (Core.fresh garbage heap) earlier u)
    (second : CallRun D gran u later s)
    (few : ∀ i, bumpsOf (earlier ++ later) i < 2 ^ 32) :
    ((earlier ++ later).filterMap CallStep.yields).Nodup ∧
    ∀ idx g t, liveAt u idx g →
      ((∀ step ∈ later, step.ends idx = false) → Honoured D gran s idx g t ∧
        (HashesAgree D → (∀ step ∈ earlier ++ later, step.call.Allowed D step.before) →
          (∀ new, ∃ result s', Runs t (withRowLock idx
            (fmCoreUpdateRowLocked D gran idx g (s.slot idx).data new)) s result s') ∧
          ∃ s', Runs t (fmCoreDeleteRow D gran idx g) s (.ok ()) s')) ∧
      ((∃ step ∈ later, step.ends idx = true) → Refused D gran s idx g t) := by
  have run := first.append second
  have aged := run.aged
  have quiet := run.books.1
  refine ⟨(run.yielded few).1, fun idx g t captured => ?_⟩
  obtain ⟨below, living, ended⟩ := first.followed second captured
  refine ⟨fun quietSteps => ?_, fun someEnd => ?_⟩
  · have live := living quietSteps
    have honoured : Honoured D gran s idx g t := honoured_of_live t quiet (aged.seq idx) live
    refine ⟨honoured, fun hashes allowed => ?_⟩
    have rep := run.rep hashes allowed
    refine ⟨fun new => ?_, ?_⟩
    · obtain ⟨result, s', ran, _⟩ := call_runs (t := t) gran hashes rep quiet
        (.updateRowLocked idx g (s.slot idx).data new) ⟨below, fun _ _ => rfl⟩
      exact ⟨result, s', ran⟩
    · obtain ⟨result, s', ran, _⟩ := call_runs (t := t) gran hashes rep quiet
        (.deleteRow idx g) below
      obtain ⟨rfl, _⟩ := honoured.delete result s' ran
      exact ⟨s', ran⟩
  · refine refused_of_stale t quiet (aged.seq idx) fun live => ?_
    have gone := ended someEnd
    have total := few idx
    rw [bumpsOf_append] at total
    have same := captured.2.symm.trans (first.aged.gen idx)
    rw [← live.2, aged.gen idx, bumpsOf_append] at same
    have equal := ofNat_inj (by omega) (by omega) same
    omega

/-- The reference of a row that was cleared away is refused after the slot took a new row. -/
theorem callRun_references_byteTable : ∃ earlier later u s idx,
    CallRun byteTable .whole byteStart earlier u ∧ CallRun byteTable .whole u later s ∧
      later.length = 2 ∧ liveAt u idx 0 ∧ Refused byteTable .whole s idx 0 0 := by
  let seven : SerialCall 1 := .insertRow fun _ => 7
  obtain ⟨idx, s₁, g, inserted, rep₁, quiet₁, row⟩ := byteTable_takesSeven
    (Rep.fresh byteTable _ _) (fun _ => rfl) rfl byteStart_room
  have ran₁ : Runs 0 (seven.program byteTable .whole) byteStart (.ok idx) s₁ := inserted
  obtain ⟨second, s₂, ran₂, rep₂, quiet₂, _⟩ := call_runs (t := 0) .whole byteTable_hashes rep₁
    quiet₁ .clear trivial
  obtain ⟨third, s₃, ran₃, _⟩ := call_runs (t := 0) .whole byteTable_hashes rep₂ quiet₂
    seven trivial
  have earlier : CallRun byteTable .whole byteStart ([] ++ [⟨byteStart, seven, .ok idx, s₁⟩]) s₁ :=
    CallRun.nil.snoc (show seven.InRange byteTable byteStart from trivial) ran₁
  have later : CallRun byteTable .whole s₁
      ([] ++ [⟨s₁, .clear, second, s₂⟩] ++ [⟨s₂, seven, third, s₃⟩]) s₃ :=
    (CallRun.nil.snoc (show SerialCall.clear.InRange byteTable s₁ from trivial) ran₂).snoc
      (show seven.InRange byteTable s₂ from trivial) ran₃
  have few : ∀ i, bumpsOf (([] ++ [⟨byteStart, seven, .ok idx, s₁⟩]) ++
      ([] ++ [⟨s₁, .clear, second, s₂⟩] ++ [⟨s₂, seven, third, s₃⟩])) i < 2 ^ 32 := by
    intro i
    refine Nat.lt_of_le_of_lt List.countP_le_length ?_
    change 3 < 2 ^ 32
    decide
  have live : liveAt s₁ idx 0 := by
    refine ⟨(rows_eq_some.mp row).1, ?_⟩
    rw [earlier.aged.gen idx]
    rfl
  refine ⟨_, _, s₁, s₃, idx, earlier, later, rfl, live, ?_⟩
  refine ((callRun_references byteTable .whole _ _ _ _ s₁ s₃ earlier later few).2 idx 0 0
    live).2 ⟨⟨s₁, .clear, second, s₂⟩, by simp, rfl⟩

end Fastmem
