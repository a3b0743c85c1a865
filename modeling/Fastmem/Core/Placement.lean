/-
Where each slot is chained, without the order inside the chains.

`Placed cell place` says that the chains are finite and that slot `i` is in the
chain of bucket `b` of key `k` exactly if `place k i = some b`. Linking and
unlinking a slot under the bucket lock changes one value of `place`; putting a
slot on the freelist changes none. These are the facts the writers need when
they run alone.
-/

import Fastmem.Core.SerialReads

set_option autoImplicit false

namespace Fastmem

open Prog (perform iterate forEach foldEach)
open Machine

variable {n : Nat}

abbrev Places := Nat → Nat → Option Nat

def setPlace (place : Places) (k i : Nat) (bucket : Option Nat) : Places :=
  fun k' i' => if k' = k ∧ i' = i then bucket else place k' i'

def Placed (cell : Cell → Option Nat) (place : Places) : Prop :=
  ∃ chain : ChainLists, Chains cell chain ∧ ∀ k b i, i ∈ chain k b ↔ place k i = some b

def SameFree (cell cell' : Cell → Option Nat) : Prop :=
  cell' .freeHead = cell .freeHead ∧ ∀ i, cell' (.freeNext i) = cell (.freeNext i)

def SameChains (cell cell' : Cell → Option Nat) : Prop :=
  (∀ k b, cell' (.head k b) = cell (.head k b)) ∧ ∀ k i, cell' (.next k i) = cell (.next k i)

theorem SameFree.refl (cell : Cell → Option Nat) : SameFree cell cell :=
  ⟨rfl, fun _ => rfl⟩

theorem SameFree.trans {first second third : Cell → Option Nat}
    (left : SameFree first second) (right : SameFree second third) : SameFree first third :=
  ⟨right.1.trans left.1, fun i => (right.2 i).trans (left.2 i)⟩

theorem SameChains.trans {first second third : Cell → Option Nat}
    (left : SameChains first second) (right : SameChains second third) :
    SameChains first third :=
  ⟨fun k b => (right.1 k b).trans (left.1 k b), fun k i => (right.2 k i).trans (left.2 k i)⟩

theorem FreeList.same {cell cell' : Cell → Option Nat} {free : List Nat}
    (freelist : FreeList cell free) (same : SameFree cell cell') : FreeList cell' free :=
  freelist.frame same.1 same.2

theorem Placed.same {cell cell' : Cell → Option Nat} {place : Places}
    (placed : Placed cell place) (same : SameChains cell cell') : Placed cell' place := by
  obtain ⟨chain, chains, members⟩ := placed
  exact ⟨chain, chains.frame same.1 same.2, members⟩

/-! ### Linking and unlinking -/

variable {t : Nat} {s : Core n} {place : Places} {k b i : Nat}

theorem chainLink_placed (placed : Placed s.cell place) (loose : place k i = none) :
    ∃ cell, Runs t (fmCoreChainLink k b i) s () { s with cell := cell } ∧
      Placed cell (setPlace place k i (some b)) ∧ SameFree s.cell cell := by
  obtain ⟨chain, chains, members⟩ := placed
  have outside : ∀ b, i ∉ chain k b := by
    intro b' member
    rw [members, loose] at member
    cases member
  refine ⟨_, chainLink_runs, ⟨setChain chain k b (i :: chain k b), ?_, ?_⟩, ?_⟩
  · have stored := chains.storeLoose outside (s.cell (.head k b))
    have pushed := stored.storeHead (b := b) outside
      (by simp [Function.update_of_ne])
    exact pushed
  · intro k' b' i'
    rw [mem_setChain, members, List.mem_cons, members]
    unfold setPlace
    by_cases here : k' = k ∧ i' = i
    · obtain ⟨rfl, rfl⟩ := here
      simp [loose, eq_comm]
    · rw [if_neg here]
      grind
  · constructor
    · simp [Core.setCell]
    · intro j
      simp [Core.setCell]

theorem chainUnlink_placed (placed : Placed s.cell place) (linked : place k i = some b) :
    ∃ cell, Runs t (fmCoreChainUnlink k b i) s (.ok ()) { s with cell := cell } ∧
      Placed cell (setPlace place k i none) ∧ SameFree s.cell cell := by
  obtain ⟨chain, chains, members⟩ := placed
  obtain ⟨before, after, split⟩ := List.append_of_mem ((members k b i).mpr linked)
  have distinct := chains.nodup k b
  rw [split] at distinct
  refine ⟨_, chainUnlink_runs chains split,
    ⟨setChain chain k b (before ++ after), chains.storeUnlink split, ?_⟩, ?_⟩
  · intro k' b' i'
    have inChain := members k b i'
    rw [split] at inChain
    rw [mem_setChain, members]
    unfold setPlace
    by_cases here : k' = k ∧ i' = i
    · obtain ⟨rfl, rfl⟩ := here
      have absent : i' ∉ before ++ after := by
        rw [List.nodup_append, List.nodup_cons] at distinct
        rw [List.mem_append]
        rintro (earlier | later)
        · exact distinct.2.2 i' earlier i' (List.mem_cons_self ..) rfl
        · exact distinct.2.1.1 later
      grind
    · rw [if_neg here]
      grind
  · have elsewhere : ∀ cell, cell = Cell.freeHead ∨ (∃ j, cell = Cell.freeNext j) →
        cell ≠ cellAfter (Cell.next k) (.head k b) before := by
      intro cell free clash
      cases before with
      | nil =>
          rcases free with rfl | ⟨j, rfl⟩ <;> cases clash
      | cons first rest =>
          obtain ⟨last, _, same⟩ := cellAfter_mem (Cell.next k) first rest
          change cell = cellAfter (Cell.next k) (Cell.next k first) rest at clash
          rw [same] at clash
          rcases free with rfl | ⟨j, rfl⟩ <;> cases clash
    exact ⟨Function.update_of_ne (elsewhere _ (Or.inl rfl)) ..,
      fun j => Function.update_of_ne (elsewhere _ (Or.inr ⟨j, rfl⟩)) ..⟩

/-! ### The freelist -/

theorem freeSlot_freed {free : List Nat} (freelist : FreeList s.cell free) (fresh : i ∉ free) :
    ∃ cell, Runs t (fmCoreFreeSlot i) s () { s with cell := cell } ∧
      FreeList cell (i :: free) ∧ SameChains s.cell cell := by
  refine ⟨_, freeSlot_runs, ?_, ?_⟩
  · exact Threaded.push freelist fresh freeNext_injective freeHead_outside
  · constructor <;> intros <;> simp [Core.setCell]

theorem freeSlots_freed {free : List Nat} (items : List Nat) (s : Core n)
    (freelist : FreeList s.cell free) (distinct : items.Nodup)
    (fresh : ∀ i ∈ items, i ∉ free) :
    ∃ cell, Runs t (forEach items fmCoreFreeSlot) s () { s with cell := cell } ∧
      FreeList cell (items.reverse ++ free) ∧ SameChains s.cell cell := by
  induction items generalizing s free with
  | nil => exact ⟨s.cell, runs_pure () s, freelist, fun _ _ => rfl, fun _ _ => rfl⟩
  | cons first rest ih =>
      rw [List.nodup_cons] at distinct
      obtain ⟨cell, freed, longer, sameChains⟩ :=
        freeSlot_freed (t := t) freelist (fresh first (List.mem_cons_self ..))
      obtain ⟨cell', freedRest, all, sameRest⟩ :=
        ih { s with cell := cell } longer distinct.2 (by
          intro i member inside
          rcases List.mem_cons.mp inside with rfl | inside
          · exact distinct.1 member
          · exact fresh i (List.mem_cons_of_mem first member) inside)
      refine ⟨cell', runs_bind freed freedRest, ?_, sameChains.trans sameRest⟩
      simpa using all

/-! ### Locks around a piece of code -/

theorem release_cell {l : Lock} {owner : Option Nat} {cell : Cell → Option Nat}
    (free : s.owner l = none) :
    ({ s.setOwner l owner with cell := cell } : Core n).setOwner l none =
      { s with cell := cell } :=
  setOwner_release (s := { s with cell := cell }) free

theorem runs_locked {α β : Type} {body : CoreProg n α} {l : Lock} {result : α}
    {cell : Cell → Option Nat} {rest : CoreProg n β} {final : Core n} {value : β}
    (free : s.owner l = none)
    (ran : Runs t body (s.setOwner l (some t)) result
      { s.setOwner l (some t) with cell := cell })
    (after : Runs t rest { s with cell := cell } value final) :
    Runs t (do perform (.lock l); let _ ← body; perform (.unlock l); rest) s value final := by
  refine runs_perform_bind (exec_lock free) (runs_bind ran (runs_perform_bind rfl ?_))
  rw [release_cell free]
  exact after

end Fastmem
