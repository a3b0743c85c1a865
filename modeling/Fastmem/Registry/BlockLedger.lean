/-
What becomes of the blocks that the allocator grants.

A call conserves blocks if those held and released after it are those held and
released before it, and those granted in between. Creation and growth of a core
(fm_core.h) do so whichever requests are refused: what a failing call has been
granted it has released again.
-/

import Fastmem.Registry.Creating
import Mathlib.Algebra.BigOperators.Group.Multiset.Basic
import Mathlib.Tactic.Abel

set_option autoImplicit false

namespace Fastmem

open Allocator

/-! ### The ledger -/

def blocksOf (pointers : List (Option Nat)) : Multiset Nat := (pointers.reduceOption : List Nat)

section Blocks

variable (pointers pointers' : List (Option Nat)) (block : Nat)

@[simp] theorem blocksOf_nil : blocksOf [] = 0 := rfl

@[simp] theorem blocksOf_some : blocksOf (some block :: pointers) = {block} + blocksOf pointers :=
  rfl

@[simp] theorem blocksOf_append : blocksOf (pointers ++ pointers') =
    blocksOf pointers + blocksOf pointers' := by
  unfold blocksOf
  rw [List.reduceOption_append, Multiset.coe_add]

@[simp] theorem blocksOf_granted (blocks : List Nat) : blocksOf (blocks.map some) = blocks := by
  induction blocks with
  | nil => rfl
  | cons block rest ih =>
      rw [List.map_cons, blocksOf_some, ih]
      rfl

end Blocks

/-- From `heap` to `heap'` the held blocks went from `before` to `after`. -/
structure Conserves (before after : Multiset Nat) (heap heap' : Allocator) : Prop where
  outcome : heap'.outcome = heap.outcome
  asked : heap.asked ≤ heap'.asked
  blocks : after + (heap'.freed : Multiset Nat) =
    before + heap.freed + grants heap.outcome heap.asked (heap'.asked - heap.asked)

namespace Conserves

variable {a b c : Multiset Nat} {heap heap' heap'' : Allocator}

theorem refl (a : Multiset Nat) (heap : Allocator) : Conserves a a heap heap := by
  refine ⟨rfl, Nat.le_refl _, ?_⟩
  rw [Nat.sub_self]
  exact (add_zero _).symm

theorem trans (first : Conserves a b heap heap') (second : Conserves b c heap' heap'') :
    Conserves a c heap heap'' := by
  have order := first.asked
  have order' := second.asked
  refine ⟨second.outcome.trans first.outcome, Nat.le_trans order order', ?_⟩
  have split : heap''.asked - heap.asked =
      heap'.asked - heap.asked + (heap''.asked - heap'.asked) := by omega
  have start : heap.asked + (heap'.asked - heap.asked) = heap'.asked := by omega
  rw [second.blocks, first.blocks, first.outcome, split, grants_add, start, ← Multiset.coe_add,
    add_assoc]

theorem frame (conserves : Conserves a b heap heap') (others : Multiset Nat) :
    Conserves (a + others) (b + others) heap heap' := by
  refine ⟨conserves.outcome, conserves.asked, ?_⟩
  rw [add_right_comm, conserves.blocks]
  abel

theorem alloc (heap : Allocator) : Conserves 0 (blocksOf [heap.alloc.1]) heap heap.alloc.2 := by
  refine ⟨rfl, Nat.le_succ _, ?_⟩
  have one : heap.alloc.2.asked - heap.asked = 1 := Nat.add_sub_cancel_left ..
  have granted : [heap.alloc.1].reduceOption = grants heap.outcome heap.asked 1 := by
    simp only [Allocator.alloc, Allocator.granted, grants, List.range'_one, List.filter_cons,
      List.filter_nil]
    cases heap.outcome heap.asked <;> rfl
  rw [one, blocksOf, granted, zero_add]
  exact add_comm _ _

theorem releaseAll (pointers : List (Option Nat)) (heap : Allocator) :
    Conserves (blocksOf pointers) 0 heap (heap.releaseAll pointers) := by
  rw [releaseAll_eq]
  refine ⟨rfl, Nat.le_refl _, ?_⟩
  have none : grants heap.outcome heap.asked (heap.asked - heap.asked) = [] := by
    rw [Nat.sub_self]
    rfl
  simp only [blocksOf, none, zero_add, Multiset.coe_nil, add_zero, ← Multiset.coe_add,
    Multiset.coe_reverse]

end Conserves

/-! ### A new core -/

def CoreArrays.blocks (core : CoreArrays) : Multiset Nat := blocksOf core.pointers

theorem fmCoreInitShare_conserves (keys : Nat) (heap : Allocator) :
    Conserves 0 (CoreArrays.fmCoreInitShare keys heap).1.blocks heap
      (CoreArrays.fmCoreInitShare keys heap).2 := by
  have built := CoreArrays.fmCoreInitShare_initialised keys heap
  refine ⟨built.outcome, built.asked, ?_⟩
  have perm : (CoreArrays.fmCoreInitShare keys heap).1.pointers.reduceOption.Perm
      (grants heap.outcome heap.asked
        ((CoreArrays.fmCoreInitShare keys heap).2.asked - heap.asked)) := by
    by_cases freeable : (CoreArrays.fmCoreInitShare keys heap).1.Freeable
    · exact built.pointers freeable
    · -- the array of the keys was refused, or already the array of the chunks
      cases chunks : heap.outcome heap.asked with
      | false =>
          simp only [CoreArrays.fmCoreInitShare, Allocator.alloc, granted, chunks,
            Bool.false_eq_true, if_false, CoreArrays.keyless, CoreArrays.pointers, chunkPointers,
            Nat.add_sub_cancel_left, grants, List.range'_one, List.filter_cons, List.filter_nil]
          exact List.Perm.refl _
      | true =>
          have refused : keys ≠ 0 ∧ heap.outcome (heap.asked + 1) = false := by
            rw [built.freeable, chunks] at freeable
            simpa using freeable
          have two : heap.asked + 1 + 1 - heap.asked = 1 + 1 := by omega
          simp only [CoreArrays.fmCoreInitShare, Allocator.alloc, granted, chunks, if_true,
            if_neg refused.1, refused.2, Bool.false_eq_true, if_false, CoreArrays.keyless,
            CoreArrays.pointers, chunkPointers, two, grants, List.range'_succ, List.range'_zero,
            List.filter_cons, List.filter_nil]
          exact List.Perm.refl _
  rw [built.freed, zero_add, add_comm]
  exact congrArg _ (Multiset.coe_eq_coe.mpr perm)

/-! ### fm_core_grow_chunk -/

/-- The loop over the keys: the arrays granted up to the first refusal, and whether there was
none. -/
def growCells : Nat → Allocator → List Nat × Bool × Allocator
  | 0, heap => ([], true, heap)
  | keys + 1, heap =>
      let (cells, heap) := heap.alloc
      match cells with
      | none => ([], false, heap)
      | some block =>
          let (rest, complete, heap) := growCells keys heap
          (block :: rest, complete, heap)

/-- The arrays of a new chunk; where one is refused those before it are released. -/
def newChunk (keys : Nat) (heap : Allocator) : Option ChunkArrays × Allocator :=
  let (slots, heap) := heap.alloc
  match slots with
  | none => (none, heap)
  | some slots =>
      if keys = 0 then (some ⟨some slots, none⟩, heap)
      else
        let (keyNext, heap) := heap.alloc
        match keyNext with
        | none => (none, heap.release (some slots))
        | some keyNext =>
            let (cells, complete, heap) := growCells keys heap
            if complete then (some ⟨some slots, some (keyNext, cells.map some)⟩, heap)
            else (none, heap.releaseAll (cells.map some ++ [some keyNext, some slots]))

theorem growCells_conserves (keys : Nat) (heap : Allocator) :
    Conserves 0 ((growCells keys heap).1 : List Nat) heap (growCells keys heap).2.2 := by
  induction keys generalizing heap with
  | zero => exact .refl 0 heap
  | succ keys ih =>
      have first := Conserves.alloc heap
      unfold growCells
      generalize heap.alloc = request at first
      obtain ⟨cells, heap'⟩ := request
      cases cells with
      | none => exact first
      | some block =>
          have rest := (ih heap').frame {block}
          rw [zero_add, add_comm] at rest
          exact first.trans rest

def ChunkArrays.blocks (chunk : ChunkArrays) : Multiset Nat := blocksOf chunk.pointers

theorem newChunk_conserves (keys : Nat) (heap : Allocator) :
    Conserves 0 ((newChunk keys heap).1.elim 0 ChunkArrays.blocks) heap (newChunk keys heap).2 := by
  have first := Conserves.alloc heap
  unfold newChunk
  generalize heap.alloc = request at first
  obtain ⟨slots, heap₁⟩ := request
  cases slots with
  | none => exact first
  | some slots =>
      dsimp only
      split
      · exact first
      · have second := (Conserves.alloc heap₁).frame {slots}
        generalize heap₁.alloc = request at second
        obtain ⟨keyNext, heap₂⟩ := request
        cases keyNext with
        | none =>
            have given : Conserves {slots} 0 heap₂ (heap₂.release (some slots)) :=
              Conserves.releaseAll [some slots] heap₂
            change Conserves (0 + {slots}) (0 + {slots}) heap₁ heap₂ at second
            rw [zero_add] at second
            exact first.trans (second.trans given)
        | some keyNext =>
            have third := (growCells_conserves keys heap₂).frame ({keyNext} + {slots})
            rw [zero_add] at second third
            have acquired := first.trans (second.trans third)
            generalize growCells keys heap₂ = grown at acquired
            obtain ⟨cells, complete, heap₃⟩ := grown
            dsimp only at acquired ⊢
            cases complete with
            | true =>
                have chunk : ChunkArrays.blocks ⟨some slots, some (keyNext, cells.map some)⟩ =
                    cells + ({keyNext} + {slots}) := by
                  simp only [ChunkArrays.blocks, ChunkArrays.pointers, blocksOf_some,
                    blocksOf_append, blocksOf_granted, blocksOf_nil]
                  abel
                rw [if_pos rfl, Option.elim_some, chunk]
                exact acquired
            | false =>
                have given := Conserves.releaseAll (cells.map some ++ [some keyNext, some slots]) heap₃
                simp only [blocksOf_some, blocksOf_append, blocksOf_granted, blocksOf_nil,
                  add_zero] at given
                exact acquired.trans given

/-- `chunkCap` is the number of entries of `chunks`; `none` is an access to an array that is not
there. -/
def CoreArrays.fmCoreGrowChunk (chunkCap : Nat) (core : CoreArrays) (heap : Allocator) :
    Option (CoreArrays × Allocator) :=
  match core.chunks with
  | none => none
  | some (block, chunks) =>
      if chunkCap ≤ chunks.length then some (core, heap)
      else
        match newChunk core.keys heap with
        | (none, heap) => some (core, heap)
        | (some chunk, heap) => some ({ core with chunks := some (block, chunks ++ [chunk]) }, heap)

theorem fmCoreGrowChunk_conserves {chunkCap : Nat} {core core' : CoreArrays} {heap heap' : Allocator}
    (grown : core.fmCoreGrowChunk chunkCap heap = some (core', heap')) :
    Conserves core.blocks core'.blocks heap heap' := by
  unfold CoreArrays.fmCoreGrowChunk at grown
  split at grown
  · cases grown
  · rename_i block chunks array
    split at grown
    · cases grown
      exact .refl _ _
    · have new := (newChunk_conserves core.keys heap).frame core.blocks
      rw [zero_add] at new
      generalize newChunk core.keys heap = chunk at grown new
      obtain ⟨chunk, heap''⟩ := chunk
      cases chunk with
      | none =>
          cases grown
          rw [Option.elim_none, zero_add] at new
          exact new
      | some chunk =>
          cases grown
          have more : CoreArrays.blocks { core with chunks := some (block, chunks ++ [chunk]) } =
              chunk.blocks + core.blocks := by
            simp only [CoreArrays.blocks, CoreArrays.pointers, chunkPointers, array,
              List.flatMap_append, List.flatMap_singleton, blocksOf_append, ChunkArrays.blocks]
            abel
          rw [more]
          exact new

/-! ### Shares -/

def ShareBlock.blocks (share : ShareBlock) : Multiset Nat :=
  blocksOf (share.core.pointers ++ [share.nameBlock, some share.block])

theorem ShareBlock.blocks_eq (share : ShareBlock) :
    share.blocks = share.core.blocks + (blocksOf [share.nameBlock] + {share.block}) := by
  unfold ShareBlock.blocks CoreArrays.blocks
  rw [blocksOf_append, ← List.singleton_append, blocksOf_append]
  rfl

def shareBlocks (shares : List ShareBlock) : Multiset Nat := (shares.map ShareBlock.blocks).sum

@[simp] theorem shareBlocks_nil : shareBlocks [] = 0 := rfl

@[simp] theorem shareBlocks_cons (share : ShareBlock) (shares : List ShareBlock) :
    shareBlocks (share :: shares) = share.blocks + shareBlocks shares := by
  simp only [shareBlocks, List.map_cons, List.sum_cons]

@[simp] theorem shareBlocks_append (shares others : List ShareBlock) :
    shareBlocks (shares ++ others) = shareBlocks shares + shareBlocks others := by
  simp only [shareBlocks, List.map_append, List.sum_append]

theorem shareBlocks_map {change : ShareBlock → ShareBlock}
    (same : ∀ share, (change share).blocks = share.blocks) (shares : List ShareBlock) :
    shareBlocks (shares.map change) = shareBlocks shares := by
  unfold shareBlocks
  rw [List.map_map]
  exact congrArg _ (List.map_congr_left fun share _ => same share)

theorem shareBlocks_eraseP {shares : List ShareBlock} {kind : ShareBlock → Bool}
    {share : ShareBlock} (found : shares.find? kind = some share) :
    share.blocks + shareBlocks (shares.eraseP kind) = shareBlocks shares := by
  induction shares with
  | nil => cases found
  | cons first rest ih =>
      by_cases here : kind first = true
      · rw [List.find?_cons_of_pos here] at found
        obtain rfl : first = share := Option.some.inj found
        rw [List.eraseP_cons_of_pos here, shareBlocks_cons]
      · rw [List.find?_cons_of_neg here] at found
        rw [List.eraseP_cons_of_neg here, shareBlocks_cons, shareBlocks_cons, ← ih found]
        abel

theorem ShareBlock.block_mem (share : ShareBlock) : share.block ∈ share.blocks := by
  rw [blocks_eq, Multiset.mem_add, Multiset.mem_add]
  exact Or.inr (Or.inr (Multiset.mem_singleton_self _))

theorem block_mem_shareBlocks {shares : List ShareBlock} {share : ShareBlock}
    (member : share ∈ shares) : share.block ∈ shareBlocks shares := by
  induction shares with
  | nil => cases member
  | cons first rest ih =>
      rw [shareBlocks_cons, Multiset.mem_add]
      cases List.mem_cons.mp member with
      | inl same => exact Or.inl (same ▸ first.block_mem)
      | inr later => exact Or.inr (ih later)

theorem shareBlocks_distinct {shares : List ShareBlock} (once : (shareBlocks shares).Nodup) :
    (shares.map ShareBlock.block).Nodup := by
  induction shares with
  | nil => exact List.nodup_nil
  | cons first rest ih =>
      rw [shareBlocks_cons, Multiset.nodup_add] at once
      rw [List.map_cons, List.nodup_cons]
      refine ⟨fun again => ?_, ih once.2.1⟩
      obtain ⟨other, member, same⟩ := List.mem_map.mp again
      exact Multiset.disjoint_left.mp once.2.2 first.block_mem (same ▸ block_mem_shareBlocks member)

theorem find_of_mem {shares : List ShareBlock} (distinct : (shares.map ShareBlock.block).Nodup)
    {share : ShareBlock} (member : share ∈ shares) :
    shares.find? (fun other => other.block == share.block) = some share := by
  induction shares with
  | nil => cases member
  | cons first rest ih =>
      rw [List.map_cons, List.nodup_cons] at distinct
      cases List.mem_cons.mp member with
      | inl same =>
          subst same
          exact List.find?_cons_of_pos (beq_self_eq_true _)
      | inr later =>
          have other : ¬ (first.block == share.block) = true := by
            intro clash
            exact distinct.1 (eq_of_beq clash ▸ List.mem_map_of_mem later)
          simp only [List.find?_cons, other]
          exact ih distinct.2 later

theorem shareBlocks_change {shares : List ShareBlock}
    (distinct : (shares.map ShareBlock.block).Nodup) {share : ShareBlock} (member : share ∈ shares)
    (change : ShareBlock → ShareBlock) :
    ∃ others, shareBlocks shares = share.blocks + others ∧
      shareBlocks (shares.map fun other =>
        if other.block = share.block then change other else other) =
          (change share).blocks + others := by
  obtain ⟨before, after, rfl⟩ := List.append_of_mem member
  rw [List.map_append, List.map_cons, List.nodup_middle, List.nodup_cons] at distinct
  have kept : ∀ other ∈ before ++ after, other.block ≠ share.block := by
    intro other there same
    refine distinct.1 ?_
    rw [← List.map_append, ← same]
    exact List.mem_map_of_mem there
  have unchanged : ∀ part : List ShareBlock, (∀ other ∈ part, other.block ≠ share.block) →
      part.map (fun other => if other.block = share.block then change other else other) = part := by
    intro part apart
    refine (List.map_congr_left fun other there => ?_).trans (List.map_id part)
    exact if_neg (apart other there)
  refine ⟨shareBlocks before + shareBlocks after, ?_, ?_⟩
  · rw [shareBlocks_append, shareBlocks_cons]
    abel
  · rw [List.map_append, List.map_cons, if_pos rfl,
      unchanged before fun other there => kept other (List.mem_append_left _ there),
      unchanged after fun other there => kept other (List.mem_append_right _ there),
      shareBlocks_append, shareBlocks_cons]
    abel

/-! ### fm_free and fm_create -/

theorem Allocator.alloc_block {heap : Allocator} {block : Nat} (granted : heap.alloc.1 = some block) :
    block = heap.asked := by
  simp only [alloc, Allocator.granted] at granted
  split at granted
  · exact (Option.some.inj granted).symm
  · cases granted

namespace ShareMemory

variable {memory after : ShareMemory} {share : ShareBlock} {q : CreateRequest}
  {result : CreateResult}

theorem free_inv (external : share.internal = false) (freed : memory.free share = some after) :
    after.shares = memory.shares.eraseP (fun other => other.block == share.block) ∧
      Conserves share.blocks 0 memory.heap after.heap := by
  by_cases freeable : share.core.Freeable
  · simp only [free, external, Bool.false_eq_true, if_false, fmCoreFreeShare_freeable freeable,
      Option.some.injEq, releaseAll_append] at freed
    subst freed
    exact ⟨rfl, Conserves.releaseAll _ _⟩
  · rw [free_broken freeable] at freed
    cases freed

theorem fail_inv (unnamed : share.nameBlock = none)
    (failed : memory.fail q.internalTable (some share) = some result) :
    result.res = none ∧ result.memory.shares = memory.shares ∧
      Conserves share.blocks 0 memory.heap result.memory.heap := by
  by_cases freeable : share.core.Freeable
  · rw [fail_freeable memory q.internalTable freeable unnamed] at failed
    cases failed
    refine ⟨rfl, unlock_shares memory q.internalTable, ?_⟩
    have same : share.blocks = blocksOf (share.core.pointers ++ [some share.block]) := by
      rw [share.blocks_eq, unnamed, blocksOf_append]
      rfl
    rw [same]
    exact Conserves.releaseAll _ _
  · rw [fail_broken memory q.internalTable freeable] at failed
    cases failed

theorem build_inv (external : q.internalTable = false) (made : memory.build q = some result) :
    (result.res = none ∧ result.memory.shares = memory.shares ∧
      Conserves 0 0 memory.heap result.memory.heap) ∨
    ∃ share heap, share.block = memory.heap.asked ∧ share.block < heap.asked ∧
      share.name = q.name ∧ share.openCount = 0 ∧ share.internal = false ∧
      Conserves 0 share.blocks memory.heap heap ∧
      result = finish { memory with heap := heap, shares := share :: memory.shares } q true share := by
  have first := Conserves.alloc memory.heap
  have place : ∀ block, memory.heap.alloc.1 = some block → block = memory.heap.asked :=
    fun block granted => alloc_block granted
  have past : memory.heap.asked < memory.heap.alloc.2.asked := Nat.lt_succ_self _
  unfold build at made
  generalize memory.heap.alloc = request at first place past made
  obtain ⟨block, heap₁⟩ := request
  cases block with
  | none =>
      cases made
      refine Or.inl ⟨rfl, unlock_shares _ q.internalTable, ?_⟩
      rw [unlock_heap]
      exact first
  | some block =>
      dsimp only at made
      have second := (fmCoreInitShare_conserves q.keys heap₁).frame {block}
      generalize CoreArrays.fmCoreInitShare q.keys heap₁ = built at second made
      obtain ⟨core, heap₂⟩ := built
      rw [zero_add] at second
      have acquired := first.trans second
      dsimp only at made acquired
      have unnamed : ShareBlock.blocks ⟨block, q.name, none, 0, q.internalTable, core⟩ =
          core.blocks + {block} := ShareBlock.blocks_eq _
      split at made
      · obtain ⟨none, kept, given⟩ := fail_inv rfl made
        rw [unnamed] at given
        exact Or.inl ⟨none, kept, acquired.trans given⟩
      · have third := (Conserves.alloc heap₂).frame (core.blocks + {block})
        generalize heap₂.alloc = request at third made
        obtain ⟨copy, heap₃⟩ := request
        rw [zero_add] at third
        have complete := acquired.trans third
        cases copy with
        | none =>
            obtain ⟨none, kept, given⟩ := fail_inv rfl made
            rw [unnamed] at given
            change Conserves 0 (0 + (core.blocks + {block})) memory.heap heap₃ at complete
            rw [zero_add] at complete
            exact Or.inl ⟨none, kept, complete.trans given⟩
        | some copy =>
            have named : ShareBlock.blocks ⟨block, q.name, some copy, 0, q.internalTable, core⟩ =
                blocksOf [some copy] + (core.blocks + {block}) := by
              rw [ShareBlock.blocks_eq]
              abel
            refine Or.inr ⟨⟨block, q.name, some copy, 0, q.internalTable, core⟩, heap₃,
              place block rfl, ?_, rfl, rfl, external, ?_, ?_⟩
            · rw [place block rfl]
              exact Nat.lt_of_lt_of_le past (Nat.le_trans second.asked third.asked)
            · rw [named]
              exact complete
            · simp only [external, Bool.false_eq_true, if_false, Option.some.injEq] at made ⊢
              exact made.symm

theorem finish_shares (created : Bool) (external : q.internalTable = false)
    (distinct : (memory.shares.map ShareBlock.block).Nodup) (member : share ∈ memory.shares) :
    (memory.finish q created share).memory.shares =
      if q.pinShare = true then
        memory.shares.map fun other => if other.block = share.block then
          { other with openCount := other.openCount + 1 } else other
      else memory.shares := by
  have only : ∀ other ∈ memory.shares, other.block = share.block → other = share :=
    fun other there same => List.inj_on_of_nodup_map distinct there member same
  unfold finish
  rw [external, if_neg Bool.false_ne_true]
  cases q.pinShare with
  | false =>
      refine (List.map_congr_left fun other there => ?_).trans (List.map_id _)
      simp only [Bool.false_eq_true, if_false]
      split
      · rename_i here
        exact (only other there here).symm
      · rfl
  | true =>
      refine List.map_congr_left fun other there => ?_
      simp only [if_true]
      split
      · rename_i here
        rw [only other there here]
      · rfl

end ShareMemory

end Fastmem
