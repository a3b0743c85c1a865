/-
The hash chains of a share as lists.

All chains of one key share one link cell per slot, so a slot can only be in
one chain of a key at a time. `Chains` ties the link cells to a list for every
key and bucket and says that the lists of one key are disjoint; each single
store to a cell that the core performs changes the lists in a way a reader can
name.
-/

import Fastmem.Core.Operations
import Fastmem.LinkedCells

set_option autoImplicit false

namespace Fastmem

abbrev ChainLists := Nat → Nat → List Nat

def setChain (chain : ChainLists) (k b : Nat) (items : List Nat) : ChainLists :=
  fun k' b' => if k' = k ∧ b' = b then items else chain k' b'

section SetChain

variable {chain : ChainLists} {k b k' b' : Nat} {items : List Nat}

@[simp] theorem setChain_self : setChain chain k b items k b = items := by
  simp [setChain]

theorem setChain_of_key_ne (different : k' ≠ k) :
    setChain chain k b items k' b' = chain k' b' := by
  simp [setChain, different]

theorem setChain_of_bucket_ne (different : b' ≠ b) :
    setChain chain k b items k' b' = chain k' b' := by
  simp [setChain, different]

theorem mem_setChain {i : Nat} : i ∈ setChain chain k b items k' b' ↔
    (k' = k ∧ b' = b ∧ i ∈ items) ∨ (¬ (k' = k ∧ b' = b) ∧ i ∈ chain k' b') := by
  unfold setChain
  split
  · rename_i same
    simp [same]
  · rename_i different
    simp only [different, not_false_eq_true, true_and]
    constructor
    · exact Or.inr
    · rintro (⟨sameKey, sameBucket, _⟩ | member)
      · exact absurd ⟨sameKey, sameBucket⟩ different
      · exact member

end SetChain

structure Chains (cell : Cell → Option Nat) (chain : ChainLists) : Prop where
  threaded : ∀ k b, Threaded cell (Cell.next k) (.head k b) (chain k b)
  disjoint : ∀ k b b' i, i ∈ chain k b → i ∈ chain k b' → b = b'

theorem next_injective (k : Nat) : Function.Injective (Cell.next k) := by
  intro i j same
  cases same
  rfl

theorem head_outside (k b i : Nat) : Cell.head k b ≠ Cell.next k i := by
  intro clash
  cases clash

namespace Chains

variable {cell : Cell → Option Nat} {chain : ChainLists} {k b i : Nat}

theorem nodup (chains : Chains cell chain) (k b : Nat) : (chain k b).Nodup :=
  (chains.threaded k b).nodup

theorem frame {cell' : Cell → Option Nat} (chains : Chains cell chain)
    (heads : ∀ k b, cell' (.head k b) = cell (.head k b))
    (links : ∀ k i, cell' (.next k i) = cell (.next k i)) : Chains cell' chain :=
  ⟨fun k b => (chains.threaded k b).frame (heads k b) fun i _ => links k i, chains.disjoint⟩

theorem storeLoose (chains : Chains cell chain) (loose : ∀ b, i ∉ chain k b)
    (value : Option Nat) : Chains (Function.update cell (.next k i) value) chain := by
  refine ⟨fun k' b' => (chains.threaded k' b').store (by intro clash; cases clash) ?_,
    chains.disjoint⟩
  intro j member clash
  cases clash
  exact loose b' member

/-- The second store of a link: the head takes a slot whose link cell already
holds the old head. -/
theorem storeHead (chains : Chains cell chain) (loose : ∀ b, i ∉ chain k b)
    (linked : cell (.next k i) = cell (.head k b)) :
    Chains (Function.update cell (.head k b) (some i)) (setChain chain k b (i :: chain k b)) := by
  constructor
  · intro k' b'
    by_cases same : k' = k ∧ b' = b
    · obtain ⟨rfl, rfl⟩ := same
      rw [setChain_self]
      have pushed := (chains.threaded k' b').push (loose b') (next_injective k')
        (head_outside k' b')
      rwa [← linked, Function.update_eq_self] at pushed
    · have unchanged : setChain chain k b (i :: chain k b) k' b' = chain k' b' := by
        simp only [setChain, if_neg same]
      rw [unchanged]
      refine (chains.threaded k' b').store ?_ ?_
      · intro clash
        cases clash
        exact same ⟨rfl, rfl⟩
      · intro j _ clash
        cases clash
  · intro k' b₁ b₂ j first second
    rw [mem_setChain] at first second
    rcases first with ⟨rfl, rfl, first⟩ | ⟨notFirst, first⟩ <;>
      rcases second with ⟨sameKey, rfl, second⟩ | ⟨notSecond, second⟩
    · rfl
    · rcases List.mem_cons.mp first with rfl | first
      · exact absurd second (loose b₂)
      · exact chains.disjoint k' b₁ b₂ j first second
    · subst sameKey
      rcases List.mem_cons.mp second with rfl | second
      · exact absurd first (loose b₁)
      · exact chains.disjoint k' b₁ b₂ j first second
    · exact chains.disjoint k' b₁ b₂ j first second

theorem storeUnlink {before after : List Nat} (chains : Chains cell chain)
    (split : chain k b = before ++ i :: after) :
    Chains (Function.update cell (cellAfter (Cell.next k) (.head k b) before)
      (cell (.next k i))) (setChain chain k b (before ++ after)) := by
  have threaded := chains.threaded k b
  rw [split] at threaded
  have stored : cellAfter (Cell.next k) (.head k b) before = .head k b ∨
      ∃ last ∈ before, cellAfter (Cell.next k) (.head k b) before = .next k last := by
    cases before with
    | nil => exact Or.inl rfl
    | cons first rest => exact Or.inr (cellAfter_mem (Cell.next k) first rest)
  constructor
  · intro k' b'
    by_cases same : k' = k ∧ b' = b
    · obtain ⟨rfl, rfl⟩ := same
      rw [setChain_self]
      exact threaded.unlink (next_injective k') (head_outside k' b')
    · have unchanged : setChain chain k b (before ++ after) k' b' = chain k' b' := by
        simp only [setChain, if_neg same]
      rw [unchanged]
      refine (chains.threaded k' b').store ?_ ?_
      · intro clash
        rcases stored with atHead | ⟨last, _, atLast⟩
        · rw [atHead] at clash
          cases clash
          exact same ⟨rfl, rfl⟩
        · rw [atLast] at clash
          cases clash
      · intro j member clash
        rcases stored with atHead | ⟨last, inBefore, atLast⟩
        · rw [atHead] at clash
          cases clash
        · rw [atLast] at clash
          cases clash
          have inChain : j ∈ chain k b := by
            rw [split]
            exact List.mem_append_left _ inBefore
          exact same ⟨rfl, chains.disjoint k b' b j member inChain⟩
  · intro k' b₁ b₂ j first second
    have weaken : ∀ b', j ∈ setChain chain k b (before ++ after) k' b' → j ∈ chain k' b' := by
      intro b' member
      rw [mem_setChain] at member
      rcases member with ⟨rfl, rfl, member⟩ | ⟨_, member⟩
      · rw [split]
        rcases List.mem_append.mp member with earlier | later
        · exact List.mem_append_left _ earlier
        · exact List.mem_append_right _ (List.mem_cons_of_mem i later)
      · exact member
    exact chains.disjoint k' b₁ b₂ j (weaken b₁ first) (weaken b₂ second)

theorem storeEmpty (chains : Chains cell chain) (k b : Nat) :
    Chains (Function.update cell (.head k b) none) (setChain chain k b []) := by
  constructor
  · intro k' b'
    by_cases same : k' = k ∧ b' = b
    · obtain ⟨rfl, rfl⟩ := same
      rw [setChain_self]
      exact Function.update_self ..
    · have unchanged : setChain chain k b [] k' b' = chain k' b' := by
        simp only [setChain, if_neg same]
      rw [unchanged]
      refine (chains.threaded k' b').store ?_ ?_
      · intro clash
        cases clash
        exact same ⟨rfl, rfl⟩
      · intro j _ clash
        cases clash
  · intro k' b₁ b₂ j first second
    rw [mem_setChain] at first second
    rcases first with ⟨_, _, impossible⟩ | ⟨_, first⟩
    · cases impossible
    · rcases second with ⟨_, _, impossible⟩ | ⟨_, second⟩
      · cases impossible
      · exact chains.disjoint k' b₁ b₂ j first second

end Chains

/-! ### The freelist -/

def FreeList (cell : Cell → Option Nat) (items : List Nat) : Prop :=
  Threaded cell Cell.freeNext .freeHead items

theorem freeNext_injective : Function.Injective Cell.freeNext := by
  intro i j same
  cases same
  rfl

theorem freeHead_outside (i : Nat) : Cell.freeHead ≠ Cell.freeNext i := by
  intro clash
  cases clash

namespace FreeList

variable {cell : Cell → Option Nat} {items : List Nat}

theorem nodup (freelist : FreeList cell items) : items.Nodup := Threaded.nodup freelist

theorem frame {cell' : Cell → Option Nat} (freelist : FreeList cell items)
    (head : cell' .freeHead = cell .freeHead)
    (links : ∀ i, cell' (.freeNext i) = cell (.freeNext i)) : FreeList cell' items :=
  Threaded.frame freelist head fun i _ => links i

end FreeList

end Fastmem
