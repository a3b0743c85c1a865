/-
The representation invariant of a share between two calls, and slot allocation.

`Rep D s spare` couples slot states and images, the chains of every key, the
freelist and the row counter. `spare` is a slot that was taken off the freelist
and is not published yet: inside an insert there is one, between calls there is
none.
-/

import Fastmem.Core.Placement
import Mathlib.Data.Finset.Card
import Mathlib.Data.Finset.Range

set_option autoImplicit false

namespace Fastmem

open Prog (perform iterate forEach foldEach)
open Machine

variable {n : Nat}

def homes (D : ShareDef n) (s : Core n) : Places := fun k i =>
  if k < D.keys ∧ (s.slot i).state = .active then
    some (fmCoreKeyBucket (D.keydef k) (s.slot i).data)
  else none

def activeSlots (s : Core n) : Finset Nat :=
  (Finset.range s.slotCount).filter fun i => (s.slot i).state = .active

theorem activeSlots_eq {s : Core n} {slots : Finset Nat} (counted : s.records = (activeSlots s).card)
    (records : s.records = slots.card) (live : slots ⊆ activeSlots s) : activeSlots s = slots := by
  refine (Finset.eq_of_subset_of_card_le live ?_).symm
  rw [Int.natCast_inj.mp (counted.symm.trans records)]

structure Rep (D : ShareDef n) (s : Core n) (spare : Option Nat) : Prop where
  placed : Placed s.cell (homes D s)
  freelist : ∃ free, FreeList s.cell free ∧
    (∀ i ∈ free, i < s.slotCount ∧ (s.slot i).state ≠ .active ∧ spare ≠ some i) ∧
    ∀ i, i < s.slotCount → i < D.maxRecords → (s.slot i).state ≠ .active → spare ≠ some i →
      i ∈ free
  allocated : ∀ i, (s.slot i).state = .active → i < s.slotCount
  spareSlot : ∀ i, spare = some i → i < s.slotCount ∧ (s.slot i).state ≠ .active
  counted : s.records = (activeSlots s).card
  settled : ∀ i, (s.slot i).seq % 2 = 0
  capped : s.chunkCnt ≤ D.chunkCap

def Quiet (s : Core n) : Prop := ∀ l, s.owner l = none

theorem Rep.withOwner {D : ShareDef n} {s : Core n} {spare : Option Nat}
    (rep : Rep D s spare) (owner : Lock → Option Nat) :
    Rep D { s with owner := owner } spare :=
  ⟨rep.placed, rep.freelist, rep.allocated, rep.spareSlot, rep.counted, rep.settled, rep.capped⟩

theorem Rep.fresh (D : ShareDef n) (garbage : Nat → Rec n) (heap : Heap) :
    Rep D (Core.fresh garbage heap) none where
  placed := by
    refine ⟨fun _ _ => [], ⟨fun _ _ => rfl, ?_⟩, ?_⟩
    · intro k b b' i impossible
      cases impossible
    · intro k b i
      simp [homes, Core.fresh]
  freelist := by
    refine ⟨[], rfl, ?_, ?_⟩
    · intro i impossible
      cases impossible
    · intro i below
      simp [Core.slotCount, Core.fresh] at below
  allocated := by
    intro i active
    cases active
  spareSlot := by
    intro i impossible
    cases impossible
  counted := by simp [activeSlots, Core.slotCount, Core.fresh]
  settled := by
    intro i
    rfl
  capped := Nat.zero_le _

/-! ### Growing a chunk -/

/-- The allocator grants the next requests. -/
def grants (outcome : Nat → Bool) : Nat → Nat → Bool
  | _, 0 => true
  | asked, requests + 1 => outcome asked && grants outcome (asked + 1) requests

/-- All that preparing the next chunk does to slots, cells and locks: it resets some of
those that belong to no chunk yet. -/
structure Prepared (total : Nat) (s s' : Core n) : Prop where
  chunkCnt : s'.chunkCnt = s.chunkCnt
  records : s'.records = s.records
  slot : ∀ i, s'.slot i = s.slot i ∨
    (total ≤ i ∧ s'.slot i = ⟨.free, 0, 0, (s.slot i).data⟩)
  head : ∀ k b, s'.cell (.head k b) = s.cell (.head k b)
  freeHead : s'.cell .freeHead = s.cell .freeHead
  next : ∀ k i, i < total → s'.cell (.next k i) = s.cell (.next k i)
  freeNext : ∀ i, i < total → s'.cell (.freeNext i) = s.cell (.freeNext i)
  owner : ∀ l, s'.owner l = s.owner l ∨ (∃ i, total ≤ i ∧ l = .wlock i ∧ s'.owner l = none)

namespace Prepared

variable {total : Nat} {s s' : Core n}

theorem trans {s'' : Core n} (first : Prepared total s s') (second : Prepared total s' s'') :
    Prepared total s s'' where
  chunkCnt := second.chunkCnt.trans first.chunkCnt
  records := second.records.trans first.records
  slot i := by
    rcases second.slot i with same | ⟨above, reset⟩
    · rw [same]
      exact first.slot i
    · refine Or.inr ⟨above, ?_⟩
      rw [reset]
      rcases first.slot i with same | ⟨_, reset⟩
      · rw [same]
      · rw [reset]
  head k b := (second.head k b).trans (first.head k b)
  freeHead := second.freeHead.trans first.freeHead
  next k i below := (second.next k i below).trans (first.next k i below)
  freeNext i below := (second.freeNext i below).trans (first.freeNext i below)
  owner l := by
    rcases second.owner l with same | reset
    · rw [same]
      exact first.owner l
    · exact Or.inr reset

theorem bookkeeping (total : Nat) (s : Core n) (chunk : Nat → Chunk) (heap : Heap) :
    Prepared total s { s with chunk := chunk, heap := heap } :=
  ⟨rfl, rfl, fun _ => Or.inl rfl, fun _ _ => rfl, rfl, fun _ _ _ => rfl, fun _ _ => rfl,
    fun _ => Or.inl rfl⟩

private theorem not_in_chunk {i c : Nat} (below : i < c * fmChunkSize) :
    ¬ i / fmChunkSize = c := by
  unfold fmChunkSize at *
  omega

private theorem in_chunk {i c : Nat} (inside : i / fmChunkSize = c) : c * fmChunkSize ≤ i := by
  unfold fmChunkSize at *
  omega

theorem initSlots (s : Core n) (c : Nat) : Prepared (c * fmChunkSize) s (s.initSlots c) where
  chunkCnt := rfl
  records := rfl
  slot i := by
    by_cases inside : i / fmChunkSize = c
    · exact Or.inr ⟨in_chunk inside, if_pos inside⟩
    · exact Or.inl (if_neg inside)
  head _ _ := rfl
  freeHead := rfl
  next _ _ _ := rfl
  freeNext i below := if_neg (not_in_chunk below)
  owner l := by
    cases l with
    | wlock i =>
        by_cases inside : i / fmChunkSize = c
        · exact Or.inr ⟨i, in_chunk inside, rfl, if_pos inside⟩
        · exact Or.inl (if_neg inside)
    | bucket k b => exact Or.inl rfl
    | structMutex => exact Or.inl rfl

theorem initKeyNext (s : Core n) (c k : Nat) :
    Prepared (c * fmChunkSize) s (s.initKeyNext c k) where
  chunkCnt := rfl
  records := rfl
  slot _ := Or.inl rfl
  head _ _ := rfl
  freeHead := rfl
  next _ _ below := if_neg fun inside => not_in_chunk below inside.2
  freeNext _ _ := rfl
  owner _ := Or.inl rfl

end Prepared

variable {t : Nat}

/-- The program returns this value and does nothing beyond preparing the next chunk. -/
def Prepares (t total : Nat) {α : Type} (program : CoreProg n α) (s : Core n) (result : α) :
    Prop :=
  ∃ s', Runs t program s result s' ∧ Prepared total s s'

namespace Prepares

variable {total : Nat} {s : Core n} {α ρ : Type}

theorem pure (value : α) (s : Core n) : Prepares t total (Pure.pure value) s value :=
  ⟨s, runs_pure value s, Prepared.bookkeeping total s s.chunk s.heap⟩

theorem step {action : Act n ρ} {f : ρ → CoreProg n α} {mid : Core n} {result : ρ} {value : α}
    (ran : Act.exec t action s = some (result, mid)) (prepared : Prepared total s mid)
    (rest : Prepares t total (f result) mid value) :
    Prepares t total (perform action >>= f) s value := by
  obtain ⟨s', ranRest, preparedRest⟩ := rest
  exact ⟨s', runs_perform_bind ran ranRest, prepared.trans preparedRest⟩

theorem note {action : Act n ρ} {f : ρ → CoreProg n α} {chunk : Nat → Chunk} {heap : Heap}
    {result : ρ} {value : α}
    (ran : Act.exec t action s = some (result, { s with chunk := chunk, heap := heap }))
    (rest : Prepares t total (f result) { s with chunk := chunk, heap := heap } value) :
    Prepares t total (perform action >>= f) s value :=
  step ran (Prepared.bookkeeping total s chunk heap) rest

theorem bind {β : Type} {program : CoreProg n β} {f : β → CoreProg n α} {result : β}
    {value : α} (first : Prepares t total program s result)
    (rest : ∀ mid, Prepares t total (f result) mid value) :
    Prepares t total (program >>= f) s value := by
  obtain ⟨mid, ran, prepared⟩ := first
  obtain ⟨s', ranRest, preparedRest⟩ := rest mid
  exact ⟨s', runs_bind ran ranRest, prepared.trans preparedRest⟩

theorem deallocs (items : List Nat) (s : Core n) :
    Prepares t total (forEach items fun _ => perform .dealloc) s () := by
  induction items generalizing s with
  | nil => exact pure () s
  | cons item rest ih => exact note rfl (ih _)

end Prepares

theorem growKeyNext_prepares (c keys left : Nat) (s : Core n) :
    Prepares t (c * fmChunkSize) (growKeyNext c keys left) s
      (grants s.heap.outcome s.heap.asked left) := by
  induction left generalizing s with
  | zero => exact Prepares.pure true s
  | succ left ih =>
      refine Prepares.note rfl (Prepares.note rfl ?_)
      by_cases granted : s.heap.outcome s.heap.asked = true
      · simp only [granted, if_true, grants, Bool.true_and]
        exact Prepares.step rfl (Prepared.initKeyNext _ c _) (ih _)
      · simp only [Bool.eq_false_of_not_eq_true granted, Bool.false_eq_true, if_false, grants,
          Bool.false_and]
        refine Prepares.bind (Prepares.deallocs _ _) fun mid => ?_
        exact Prepares.note rfl (Prepares.note rfl (Prepares.note rfl (Prepares.note rfl
          (Prepares.pure false _))))

def keyBlocks (D : ShareDef n) : Nat := if D.keys = 0 then 0 else D.keys + 1

variable {D : ShareDef n} {s : Core n}

theorem growChunkKeys_prepares (c : Nat) (s : Core n) :
    Prepares t (c * fmChunkSize) (growChunkKeys D c) s
      (grants s.heap.outcome s.heap.asked (keyBlocks D)) := by
  unfold growChunkKeys keyBlocks
  by_cases noKeys : D.keys = 0
  · simp only [noKeys, if_true, grants]
    exact Prepares.pure true s
  · simp only [noKeys, if_false, grants]
    refine Prepares.note rfl (Prepares.note rfl ?_)
    by_cases granted : s.heap.outcome s.heap.asked = true
    · simp only [granted, if_true, Bool.true_and]
      exact growKeyNext_prepares ..
    · simp only [Bool.eq_false_of_not_eq_true granted, Bool.false_eq_true, if_false,
        Bool.false_and]
      exact Prepares.note rfl (Prepares.note rfl (Prepares.pure false _))

theorem growChunk_runs (room : s.chunkCnt < D.chunkCap) :
    ∃ s', Prepared s.slotCount s s' ∧
      if grants s.heap.outcome s.heap.asked (keyBlocks D + 1) then
        Runs t (fmCoreGrowChunk D) s none { s' with chunkCnt := s.chunkCnt + 1 }
      else Runs t (fmCoreGrowChunk D) s (some .nomem) s' := by
  have notFull : ¬ D.chunkCap ≤ s.chunkCnt := Nat.not_le.mpr room
  by_cases granted : s.heap.outcome s.heap.asked = true
  · -- the slots are there; the key_next arrays decide
    obtain ⟨s', ran, prepared⟩ := growChunkKeys_prepares (t := t) (D := D) s.chunkCnt
      ((({ s with heap := ⟨s.heap.outcome, s.heap.asked + 1, s.heap.live + 1⟩ } :
        Core n).setChunk s.chunkCnt { s.chunk s.chunkCnt with slots := true }).initSlots
          s.chunkCnt)
    refine ⟨s', ((Prepared.bookkeeping _ s _ _).trans (Prepared.initSlots _ _)).trans prepared,
      ?_⟩
    have counted : (grants s.heap.outcome s.heap.asked (keyBlocks D + 1)) =
        grants s.heap.outcome (s.heap.asked + 1) (keyBlocks D) := by
      simp only [grants, granted, Bool.true_and]
    rw [counted]
    change Runs t _ _ (grants s.heap.outcome (s.heap.asked + 1) (keyBlocks D)) _ at ran
    by_cases complete : grants s.heap.outcome (s.heap.asked + 1) (keyBlocks D) = true
    · rw [if_pos complete]
      rw [complete] at ran
      refine runs_perform_bind rfl ?_
      rw [if_neg notFull]
      refine runs_perform_bind rfl (runs_perform_bind rfl ?_)
      simp only [granted, Bool.not_true, Bool.false_eq_true, if_false]
      refine runs_perform_bind rfl (runs_bind ran ?_)
      rw [if_pos rfl]
      exact runs_perform_bind rfl (runs_pure none _)
    · rw [if_neg complete]
      rw [Bool.eq_false_of_not_eq_true complete] at ran
      refine runs_perform_bind rfl ?_
      rw [if_neg notFull]
      refine runs_perform_bind rfl (runs_perform_bind rfl ?_)
      simp only [granted, Bool.not_true, Bool.false_eq_true, if_false]
      refine runs_perform_bind rfl (runs_bind ran ?_)
      exact runs_pure (some Err.nomem) _
  · have denied := Bool.eq_false_of_not_eq_true granted
    obtain ⟨s', ran, prepared⟩ : Prepares t s.slotCount (fmCoreGrowChunk D) s
        (some .nomem) := by
      refine Prepares.note rfl ?_
      rw [if_neg notFull]
      refine Prepares.note rfl (Prepares.note rfl ?_)
      simp only [denied, Bool.not_false, if_true]
      exact Prepares.pure _ _
    refine ⟨s', prepared, ?_⟩
    simp only [grants, denied, Bool.false_and, Bool.false_eq_true, if_false]
    exact ran

/-! ### Allocating a slot -/

def rows (s : Core n) (i : Nat) : Option (UInt32 × Rec n) :=
  if (s.slot i).state = .active then some ((s.slot i).gen, (s.slot i).data) else none

/-- A slot can be allocated: one is on the freelist, or the row limit leaves room for a
chunk and the allocator grants all its blocks. -/
def canAlloc (D : ShareDef n) (s : Core n) : Prop :=
  s.cell .freeHead ≠ none ∨ (s.slotCount < D.maxRecords ∧
    grants s.heap.outcome s.heap.asked (keyBlocks D + 1) = true)

namespace Prepared

variable {s' : Core n}

theorem state (prepared : Prepared s.slotCount s s')
    (allocated : ∀ i, (s.slot i).state = .active → i < s.slotCount) (i : Nat) :
    ((s'.slot i).state = .active ↔ (s.slot i).state = .active) ∧
      ((s.slot i).state = .active → s'.slot i = s.slot i) := by
  rcases prepared.slot i with same | ⟨above, reset⟩
  · rw [same]
    exact ⟨Iff.rfl, fun _ => rfl⟩
  · have inactive : ¬ (s.slot i).state = .active := fun active =>
      Nat.not_lt.mpr above (allocated i active)
    rw [reset]
    refine ⟨⟨fun impossible => ?_, fun active => absurd active inactive⟩,
      fun active => absurd active inactive⟩
    cases impossible

theorem homes_eq (prepared : Prepared s.slotCount s s')
    (allocated : ∀ i, (s.slot i).state = .active → i < s.slotCount) :
    homes D s' = homes D s := by
  funext k i
  obtain ⟨states, same⟩ := prepared.state allocated i
  unfold homes
  by_cases active : (s.slot i).state = .active
  · rw [same active]
  · simp [active, states]

theorem rows_eq (prepared : Prepared s.slotCount s s')
    (allocated : ∀ i, (s.slot i).state = .active → i < s.slotCount) : rows s' = rows s := by
  funext i
  obtain ⟨states, same⟩ := prepared.state allocated i
  unfold rows
  by_cases active : (s.slot i).state = .active
  · rw [same active]
  · simp [active, states]

theorem owner_eq (prepared : Prepared s.slotCount s s')
    (unlocked : ∀ i, s.owner (.wlock i) = none) : s'.owner = s.owner := by
  funext l
  rcases prepared.owner l with same | ⟨i, _, rfl, reset⟩
  · exact same
  · rw [reset, unlocked i]

theorem placed (prepared : Prepared s.slotCount s s') {place : Places}
    (below : ∀ k i, place k i ≠ none → i < s.slotCount) (holds : Placed s.cell place) :
    Placed s'.cell place := by
  obtain ⟨chain, chains, members⟩ := holds
  refine ⟨chain, ⟨fun k b => ?_, chains.disjoint⟩, members⟩
  refine (chains.threaded k b).frame (prepared.head k b) fun i member => prepared.next k i ?_
  apply below k i
  rw [(members k b i).mp member]
  exact Option.some_ne_none b

end Prepared

theorem Rep.home_below (rep : Rep D s none) (k i : Nat) (home : homes D s k i ≠ none) :
    i < s.slotCount := by
  unfold homes at home
  by_cases active : k < D.keys ∧ (s.slot i).state = .active
  · exact rep.allocated i active.2
  · rw [if_neg active] at home
    exact absurd rfl home

theorem Rep.prepared {s' : Core n} (rep : Rep D s none) (prepared : Prepared s.slotCount s s') :
    Rep D s' none := by
  have counts : s'.slotCount = s.slotCount := by
    unfold Core.slotCount
    rw [prepared.chunkCnt]
  have states := prepared.state rep.allocated
  constructor
  · rw [prepared.homes_eq rep.allocated]
    exact prepared.placed rep.home_below rep.placed
  · obtain ⟨free, freelist, inside, all⟩ := rep.freelist
    refine ⟨free, Threaded.frame freelist prepared.freeHead fun i member =>
      prepared.freeNext i (inside i member).1, ?_, ?_⟩
    · intro i member
      rw [counts, Ne, (states i).1]
      exact inside i member
    · intro i below limit inactive
      rw [counts] at below
      rw [Ne, (states i).1] at inactive
      exact all i below limit inactive
  · intro i active
    rw [counts]
    exact rep.allocated i ((states i).1.mp active)
  · intro i impossible
    cases impossible
  · have same : activeSlots s' = activeSlots s := by
      unfold activeSlots
      rw [counts]
      exact Finset.filter_congr fun i _ => (states i).1
    rw [prepared.records, same]
    exact rep.counted
  · intro i
    rcases prepared.slot i with same | ⟨_, reset⟩
    · rw [same]
      exact rep.settled i
    · rw [reset]
      rfl
  · rw [prepared.chunkCnt]
    exact rep.capped

private theorem popSlot {idx : Nat} (rep : Rep D s none) (head : s.cell .freeHead = some idx) :
    Rep D (s.setCell .freeHead (s.cell (.freeNext idx))) (some idx) := by
  obtain ⟨free, freelist, inside, all⟩ := rep.freelist
  cases free with
  | nil =>
      have clash : s.cell .freeHead = none := freelist
      rw [head] at clash
      cases clash
  | cons first rest =>
      have same : first = idx := Option.some.inj (freelist.1.symm.trans head)
      subst same
      have distinct := List.nodup_cons.mp (FreeList.nodup freelist)
      have whole : Threaded s.cell Cell.freeNext .freeHead ([] ++ first :: rest) := freelist
      have popped : FreeList (Function.update s.cell .freeHead (s.cell (.freeNext first))) rest :=
        whole.unlink freeNext_injective freeHead_outside
      refine ⟨rep.placed.same ⟨fun _ _ => ?_, fun _ _ => ?_⟩, ⟨rest, popped, ?_, ?_⟩,
        rep.allocated, ?_, rep.counted, rep.settled, rep.capped⟩
      · simp [Core.setCell]
      · simp [Core.setCell]
      · intro i member
        obtain ⟨below, inactive, _⟩ := inside i (List.mem_cons_of_mem first member)
        refine ⟨below, inactive, fun clash => distinct.1 ?_⟩
        rw [Option.some.inj clash]
        exact member
      · intro i below limit inactive other
        rcases List.mem_cons.mp (all i below limit inactive (by simp)) with rfl | member
        · exact absurd rfl other
        · exact member
      · intro i here
        cases here
        obtain ⟨below, inactive, _⟩ := inside first (List.mem_cons_self ..)
        exact ⟨below, inactive⟩

private theorem carveChunk {s' : Core n} {cell : Cell → Option Nat} (rep : Rep D s none)
    (prepared : Prepared s.slotCount s s') (empty : s.cell .freeHead = none)
    (room : s.slotCount < D.maxRecords) (sameChains : SameChains s'.cell cell)
    (freelist : FreeList cell (List.range' (s.slotCount + 1)
      (min (s.slotCount + fmChunkSize) D.maxRecords - (s.slotCount + 1)))) :
    Rep D { s' with chunkCnt := s.chunkCnt + 1, cell := cell } (some s.slotCount) := by
  have states := prepared.state rep.allocated
  have counts : ({ s' with chunkCnt := s.chunkCnt + 1, cell := cell } : Core n).slotCount =
      s.slotCount + fmChunkSize := by
    unfold Core.slotCount
    rw [Nat.add_one_mul]
  have inactiveAbove : ∀ i, s.slotCount ≤ i → (s'.slot i).state ≠ .active := by
    intro i above active
    exact Nat.not_lt.mpr above (rep.allocated i ((states i).1.mp active))
  constructor
  · have sameHomes : homes D { s' with chunkCnt := s.chunkCnt + 1, cell := cell } =
        homes D s := prepared.homes_eq rep.allocated
    rw [sameHomes]
    exact (prepared.placed rep.home_below rep.placed).same sameChains
  · refine ⟨_, freelist, ?_, ?_⟩
    · intro i member
      rw [List.mem_range'_1] at member
      rw [counts]
      refine ⟨by omega, inactiveAbove i (by omega), fun clash => ?_⟩
      cases clash
      omega
    · intro i below limit inactive other
      rw [counts] at below
      have different : i ≠ s.slotCount := fun same => other (congrArg some same.symm)
      rw [List.mem_range'_1]
      by_cases old : i < s.slotCount
      · obtain ⟨free, oldFree, _, all⟩ := rep.freelist
        have noneFree : free = [] := Threaded.unique oldFree empty
        have member := all i old limit (fun active => inactive ((states i).1.mpr active))
          (by simp)
        rw [noneFree] at member
        cases member
      · omega
  · intro i active
    rw [counts]
    have below := rep.allocated i ((states i).1.mp active)
    omega
  · intro i here
    cases here
    rw [counts]
    refine ⟨?_, inactiveAbove _ (Nat.le_refl _)⟩
    unfold fmChunkSize
    omega
  · have same : activeSlots { s' with chunkCnt := s.chunkCnt + 1, cell := cell } =
        activeSlots s := by
      unfold activeSlots
      rw [counts]
      ext i
      simp only [Finset.mem_filter, Finset.mem_range]
      rw [(states i).1]
      constructor
      · rintro ⟨_, active⟩
        exact ⟨rep.allocated i active, active⟩
      · rintro ⟨below, active⟩
        exact ⟨by omega, active⟩
    rw [same]
    exact prepared.records.trans rep.counted
  · intro i
    rcases prepared.slot i with same | ⟨_, reset⟩
    · exact (congrArg (fun slot => slot.seq % 2) same).trans (rep.settled i)
    · exact congrArg (fun slot => slot.seq % 2) reset
  · change s.chunkCnt + 1 ≤ D.chunkCap
    have capacity := D.chunkCap_eq
    unfold Core.slotCount fmChunkSize at room
    unfold fmChunkSize at capacity
    omega

theorem allocSlot_runs (rep : Rep D s none) (unlocked : ∀ i, s.owner (.wlock i) = none) :
    ∃ result s', Runs t (fmCoreAllocSlot D) s result s' ∧ rows s' = rows s ∧
      s'.owner = s.owner ∧ (result.isSome ↔ canAlloc D s) ∧ Rep D s' result := by
  cases head : s.cell .freeHead with
  | some idx =>
      refine ⟨some idx, _, ?_, ?_, ?_, ?_, popSlot rep head⟩
      · refine runs_perform_bind rfl ?_
        rw [head]
        exact runs_perform_bind rfl (runs_perform_bind rfl (runs_pure (some idx) _))
      · rfl
      · rfl
      · simp [canAlloc, head]
  | none =>
      have full : D.maxRecords ≤ s.slotCount ∨ s.slotCount < D.maxRecords := by omega
      rcases full with full | room
      · refine ⟨none, s, ?_, rfl, rfl, ?_, rep⟩
        · refine runs_perform_bind rfl ?_
          rw [head]
          refine runs_perform_bind rfl ?_
          change Runs t (if D.maxRecords ≤ s.slotCount then _ else _) _ _ _
          rw [if_pos full]
          exact runs_pure none s
        · simp [canAlloc, head, Nat.not_lt.mpr full]
      · have below : s.chunkCnt < D.chunkCap := by
          have capacity := D.chunkCap_eq
          unfold Core.slotCount fmChunkSize at room
          unfold fmChunkSize at capacity
          omega
        obtain ⟨s', prepared, grown⟩ := growChunk_runs (t := t) below
        by_cases granted : grants s.heap.outcome s.heap.asked (keyBlocks D + 1) = true
        · rw [if_pos granted] at grown
          have empty : FreeList s'.cell [] := prepared.freeHead.trans head
          obtain ⟨cell, freed, freelist, sameChains⟩ := freeSlots_freed (t := t)
            (List.range' (s.slotCount + 1)
              (min (s.slotCount + fmChunkSize) D.maxRecords - (s.slotCount + 1))).reverse
            { s' with chunkCnt := s.chunkCnt + 1 } empty (by simp [List.nodup_range']) (by simp)
          rw [List.reverse_reverse, List.append_nil] at freelist
          refine ⟨some s.slotCount, { s' with chunkCnt := s.chunkCnt + 1, cell := cell }, ?_,
            prepared.rows_eq rep.allocated, prepared.owner_eq unlocked, ?_,
            carveChunk rep prepared head room sameChains freelist⟩
          · refine runs_perform_bind rfl ?_
            rw [head]
            refine runs_perform_bind rfl ?_
            change Runs t (if D.maxRecords ≤ s.slotCount then _ else _) _ _ _
            rw [if_neg (Nat.not_le.mpr room)]
            refine runs_bind grown ?_
            rw [if_neg (by simp)]
            exact runs_bind freed (runs_pure _ _)
          · simp [canAlloc, room, granted]
        · rw [if_neg granted] at grown
          refine ⟨none, s', ?_, prepared.rows_eq rep.allocated, prepared.owner_eq unlocked, ?_,
            rep.prepared prepared⟩
          · refine runs_perform_bind rfl ?_
            rw [head]
            refine runs_perform_bind rfl ?_
            change Runs t (if D.maxRecords ≤ s.slotCount then _ else _) _ _ _
            rw [if_neg (Nat.not_le.mpr room)]
            refine runs_bind grown ?_
            rw [if_pos (by simp)]
            exact runs_pure none _
          · simp [canAlloc, head, granted]

end Fastmem
