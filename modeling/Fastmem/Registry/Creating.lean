/-
The memory of a new share (fm_create.cc, fm_core.h).

fm_create asks for the block of the share, fm_core_init_share for the arrays of
the core, and fm_create again for a copy of the name. Each request can be
refused. fm_core_init_share reports nothing, its caller looks at one of the
arrays, and fm_core_free_share goes through the keys whether or not their array
is there. An access to an array that was not allocated ends the call with `none`.
-/

import Mathlib.Data.List.Nodup
import Mathlib.Data.List.ReduceOption

set_option autoImplicit false

namespace Fastmem

/-! ### The allocator -/

/-- Request number `n` is granted when `outcome n`, and its block is then called `n`. `freed`
holds the released blocks, the latest first. -/
structure Allocator where
  outcome : Nat → Bool
  asked : Nat
  freed : List Nat

namespace Allocator

def granted (outcome : Nat → Bool) (block : Nat) : Option Nat :=
  if outcome block then some block else none

def alloc (heap : Allocator) : Option Nat × Allocator :=
  (granted heap.outcome heap.asked, { heap with asked := heap.asked + 1 })

/-- `if (p) dealloc(p)`. -/
def release (heap : Allocator) : Option Nat → Allocator
  | none => heap
  | some block => { heap with freed := block :: heap.freed }

def releaseAll (heap : Allocator) (pointers : List (Option Nat)) : Allocator :=
  pointers.foldl release heap

end Allocator

/-! ### fm_core_init_share, fm_core_free_share, fm_key_ops_init -/

/-- The arrays of an FM_KEY_CORE. -/
structure KeyArrays where
  head : Option Nat
  locks : Option Nat
  unique : Bool
  deriving DecidableEq, Repr

/-- The arrays of an FM_CHUNK. -/
structure ChunkArrays where
  slots : Option Nat
  keyNext : Option (Nat × List (Option Nat))
  deriving DecidableEq, Repr

/-- The arrays of an FM_SHARE_CORE. Of `chunks` the entries below `chunk_cnt` are kept. -/
structure CoreArrays where
  keys : Nat
  chunks : Option (Nat × List ChunkArrays)
  keydef : Option (Nat × List KeyArrays)
  keydef_length : ∀ block entries, keydef = some (block, entries) → entries.length = keys

/-- One round of the loop over the keys; a failure leads to the next round. -/
def initKey (heap : Allocator) : KeyArrays × Allocator :=
  let (head, heap) := heap.alloc
  let (locks, heap) := heap.alloc
  (⟨head, locks, false⟩, heap)

def initKeys : Nat → Allocator → List KeyArrays × Allocator
  | 0, heap => ([], heap)
  | keys + 1, heap =>
      let (key, heap) := initKey heap
      let (rest, heap) := initKeys keys heap
      (key :: rest, heap)

theorem initKeys_length (keys : Nat) (heap : Allocator) :
    (initKeys keys heap).1.length = keys := by
  induction keys generalizing heap with
  | zero =>
      simp only [initKeys, List.length_nil]
  | succ keys ih =>
      simp only [initKeys, List.length_cons, ih]

def CoreArrays.keyless (keys : Nat) (chunks : Option (Nat × List ChunkArrays)) : CoreArrays where
  keys := keys
  chunks := chunks
  keydef := none
  keydef_length := by intro block entries impossible; cases impossible

theorem keydef_length_of_initKeys {keys block : Nat} {heap : Allocator} :
    ∀ place entries, some (block, (initKeys keys heap).1) = some (place, entries) →
      entries.length = keys := by
  intro place entries same
  rw [Option.some_inj, Prod.mk.injEq] at same
  rw [← same.2]
  exact initKeys_length keys heap

def CoreArrays.fmCoreInitShare (keys : Nat) (heap : Allocator) : CoreArrays × Allocator :=
  let (chunks, heap) := heap.alloc
  match chunks with
  | none => (.keyless keys none, heap)
  | some chunks =>
      if keys = 0 then (.keyless keys (some (chunks, [])), heap)
      else
        let (keydef, heap) := heap.alloc
        match keydef with
        | none => (.keyless keys (some (chunks, [])), heap)
        | some keydef =>
            (⟨keys, some (chunks, []), some (keydef, (initKeys keys heap).1),
              keydef_length_of_initKeys⟩, (initKeys keys heap).2)

def ChunkArrays.pointers (chunk : ChunkArrays) : List (Option Nat) :=
  chunk.slots ::
    match chunk.keyNext with
    | none => []
    | some (block, cells) => cells ++ [some block]

def chunkPointers : Option (Nat × List ChunkArrays) → List (Option Nat)
  | none => []
  | some (block, chunks) => chunks.flatMap ChunkArrays.pointers ++ [some block]

def keyPointers (entries : List KeyArrays) : List (Option Nat) :=
  entries.flatMap fun key => [key.head, key.locks]

def fmCoreFreeShare (core : CoreArrays) (heap : Allocator) : Option Allocator :=
  let heap := heap.releaseAll (chunkPointers core.chunks)
  match core.keydef with
  | none => if core.keys = 0 then some heap else none
  | some (block, entries) => some (heap.releaseAll (keyPointers entries ++ [some block]))

/-- `noSame` is the HA_NOSAME flag of each key. -/
def fmKeyOpsInit (noSame : Nat → Bool) (core : CoreArrays) : Option (List KeyArrays) :=
  match core.keydef with
  | none => if core.keys = 0 then some [] else none
  | some (_, entries) =>
      some (entries.mapIdx fun k key => { key with unique := noSame k })

/-! ### fm_create -/

structure ShareBlock where
  block : Nat
  name : String
  nameBlock : Option Nat
  openCount : Nat
  internal : Bool
  core : CoreArrays

/-- `locked` is THR_LOCK_fastmem, `shares` the list of registered shares. -/
structure ShareMemory where
  heap : Allocator
  locked : Bool
  shares : List ShareBlock

structure CreateRequest where
  name : String
  keys : Nat
  internalTable : Bool
  pinShare : Bool
  deriving DecidableEq, Repr

/-- `res` is the share of a return of 0, and `none` for a return of 1. -/
structure CreateResult where
  memory : ShareMemory
  createdNewShare : Bool
  res : Option ShareBlock

namespace ShareMemory

def find (memory : ShareMemory) (name : String) : Option ShareBlock :=
  memory.shares.find? fun share => share.name == name

/-- fm_share_list_remove. -/
def remove (memory : ShareMemory) (block : Nat) : ShareMemory :=
  { memory with shares := memory.shares.eraseP fun share => share.block == block }

/-- fm_free. -/
def free (memory : ShareMemory) (share : ShareBlock) : Option ShareMemory :=
  let memory := if share.internal then memory else memory.remove share.block
  match fmCoreFreeShare share.core memory.heap with
  | none => none
  | some heap =>
      some { memory with heap := heap.releaseAll [share.nameBlock, some share.block] }

/-- The share in use under this name, after an unused one was freed. -/
def claim (memory : ShareMemory) (name : String) : Option (ShareMemory × Option ShareBlock) :=
  match memory.find name with
  | none => some (memory, none)
  | some share =>
      if share.openCount = 0 then (memory.free share).map fun memory => (memory, none)
      else some (memory, some share)

def unlock (memory : ShareMemory) (internalTable : Bool) : ShareMemory :=
  if internalTable then memory else { memory with locked := false }

/-- The label `err` of fm_create, with the share where its block was granted. -/
def fail (memory : ShareMemory) (internalTable : Bool) :
    Option ShareBlock → Option CreateResult
  | none => some ⟨memory.unlock internalTable, true, none⟩
  | some share =>
      let memory := memory.unlock internalTable
      match fmCoreFreeShare share.core (memory.heap.release share.nameBlock) with
      | none => none
      | some heap => some ⟨{ memory with heap := heap.release (some share.block) }, true, none⟩

def finish (memory : ShareMemory) (q : CreateRequest) (createdNewShare : Bool)
    (share : ShareBlock) : CreateResult :=
  if q.internalTable then ⟨memory, createdNewShare, some share⟩
  else
    let pinned :=
      if q.pinShare then { share with openCount := share.openCount + 1 } else share
    let shares := memory.shares.map fun other =>
      if other.block = share.block then pinned else other
    ⟨{ memory with shares := shares, locked := false }, createdNewShare, some pinned⟩

/-- The branch `!share`. -/
def build (memory : ShareMemory) (q : CreateRequest) : Option CreateResult :=
  let (block, heap) := memory.heap.alloc
  match block with
  | none => { memory with heap := heap }.fail q.internalTable none
  | some block =>
      let (core, heap) := CoreArrays.fmCoreInitShare q.keys heap
      let share : ShareBlock := ⟨block, q.name, none, 0, q.internalTable, core⟩
      if core.chunks.isNone then
        { memory with heap := heap }.fail q.internalTable (some share)
      else
        let (copy, heap) := heap.alloc
        match copy with
        | none => { memory with heap := heap }.fail q.internalTable (some share)
        | some copy =>
            let share := { share with nameBlock := some copy }
            let shares := if q.internalTable then memory.shares else share :: memory.shares
            some (finish { memory with heap := heap, shares := shares } q true share)

def proceed (q : CreateRequest) : ShareMemory × Option ShareBlock → Option CreateResult
  | (memory, some share) => some (finish memory q false share)
  | (memory, none) => memory.build q

/-- fm_create; `none` is an access to an array that is not allocated. -/
def fmCreate (memory : ShareMemory) (q : CreateRequest) : Option CreateResult :=
  if q.internalTable then memory.build q
  else ({ memory with locked := true }.claim q.name).bind (proceed q)

end ShareMemory

/-! ### All or nothing -/

structure CoreArrays.Whole (core : CoreArrays) : Prop where
  chunks : core.chunks.isSome
  keydef : core.keys ≠ 0 → core.keydef.isSome
  arrays : ∀ block entries, core.keydef = some (block, entries) →
    ∀ key ∈ entries, key.head.isSome ∧ key.locks.isSome

structure Settled (memory : ShareMemory) (q : CreateRequest) (result : CreateResult) : Prop where
  unlocked : q.internalTable = false → result.memory.locked = false
  untouched : q.internalTable = true → result.memory.locked = memory.locked
  whole : ∀ share, result.res = some share →
    share.core.Whole ∧ ∀ noSame, (fmKeyOpsInit noSame share.core).isSome
  released : result.res = none → ∀ block, memory.heap.asked ≤ block →
    block < result.memory.heap.asked → memory.heap.outcome block = true →
    result.memory.heap.freed.count block = 1
  unlisted : result.res = none → ∀ share ∈ result.memory.shares, share ∈ memory.shares

/-- The call returns, and then with a whole share or with nothing left behind. -/
def AllOrNothing (memory : ShareMemory) (q : CreateRequest) : Prop :=
  ∃ result, memory.fmCreate q = some result ∧ Settled memory q result

/-- fm_core_free_share finds an array for its keys. -/
def CoreArrays.Freeable (core : CoreArrays) : Prop := core.keys = 0 ∨ core.keydef.isSome = true

/-- The pattern of outcomes from request `asked` on is one that a new share of `keys` keys
copes with: the block is refused, or there are no keys, or the two outer arrays are granted
and, where the name is granted too, so is every array of a key. -/
def Copes (outcome : Nat → Bool) (asked keys : Nat) : Prop :=
  outcome asked = false ∨ keys = 0 ∨
    outcome (asked + 1) = true ∧ outcome (asked + 2) = true ∧
      (outcome (asked + 3 + 2 * keys) = false ∨
        ∀ n < 2 * keys, outcome (asked + 3 + n) = true)

def ShareMemory.named (memory : ShareMemory) (q : CreateRequest) : Option ShareBlock :=
  if q.internalTable then none else memory.find q.name

/-- A share in use is whole. Without one, a share that is not in use can be freed and the new
share copes with the outcomes. -/
structure Supplied (memory : ShareMemory) (q : CreateRequest) : Prop where
  used : ∀ share, memory.named q = some share → share.openCount ≠ 0 → share.core.Whole
  unused : ∀ share, memory.named q = some share → share.openCount = 0 → share.core.Freeable
  copes : (∀ share, memory.named q = some share → share.openCount = 0) →
    Copes memory.heap.outcome memory.heap.asked q.keys

/-! ### What is released -/

namespace Allocator

variable (heap : Allocator)

theorem releaseAll_append (first second : List (Option Nat)) :
    (heap.releaseAll first).releaseAll second = heap.releaseAll (first ++ second) := by
  simp only [releaseAll, List.foldl_append]

theorem release_cases (pointer : Option Nat) :
    heap.release pointer = { heap with freed := pointer.toList ++ heap.freed } := by
  cases pointer with
  | none =>
      simp only [release, Option.toList_none, List.nil_append]
  | some block =>
      simp only [release, Option.toList_some, List.singleton_append]

theorem releaseAll_eq (pointers : List (Option Nat)) :
    heap.releaseAll pointers =
      { heap with freed := pointers.reduceOption.reverse ++ heap.freed } := by
  induction pointers generalizing heap with
  | nil =>
      simp only [releaseAll, List.foldl_nil, List.reduceOption_nil, List.reverse_nil,
        List.nil_append]
  | cons pointer rest ih =>
      have unfolded : heap.releaseAll (pointer :: rest) = (heap.release pointer).releaseAll rest :=
        rfl
      rw [unfolded, ih, release_cases]
      cases pointer with
      | none =>
          simp only [Option.toList_none, List.nil_append, List.reduceOption_cons_of_none]
      | some block =>
          simp only [Option.toList_some, List.singleton_append, List.reduceOption_cons_of_some,
            List.reverse_cons, List.append_assoc]

end Allocator

def CoreArrays.pointers (core : CoreArrays) : List (Option Nat) :=
  chunkPointers core.chunks ++
    match core.keydef with
    | none => []
    | some (block, entries) => keyPointers entries ++ [some block]

theorem fmCoreFreeShare_freeable {core : CoreArrays} (freeable : core.Freeable)
    (heap : Allocator) :
    fmCoreFreeShare core heap = some (heap.releaseAll core.pointers) := by
  cases array : core.keydef with
  | none =>
      have noKeys : core.keys = 0 := by
        cases freeable with
        | inl noKeys => exact noKeys
        | inr present =>
            rw [array] at present
            cases present
      simp only [fmCoreFreeShare, CoreArrays.pointers, array, noKeys, if_pos, List.append_nil]
  | some keydef =>
      simp only [fmCoreFreeShare, CoreArrays.pointers, array, Allocator.releaseAll_append]

theorem fmCoreFreeShare_broken {core : CoreArrays} (broken : ¬ core.Freeable)
    (heap : Allocator) : fmCoreFreeShare core heap = none := by
  unfold CoreArrays.Freeable at broken
  cases array : core.keydef with
  | none =>
      have someKeys : core.keys ≠ 0 := fun noKeys => broken (.inl noKeys)
      simp only [fmCoreFreeShare, array, if_neg someKeys]
  | some keydef =>
      rw [array] at broken
      exact absurd (.inr rfl) broken

/-! ### What is allocated -/

def Allocator.requests (outcome : Nat → Bool) (asked count : Nat) : List (Option Nat) :=
  (List.range' asked count).map (Allocator.granted outcome)

theorem Allocator.granted_isSome (outcome : Nat → Bool) (block : Nat) :
    (granted outcome block).isSome = outcome block := by
  unfold granted
  cases outcome block with
  | false => simp only [Bool.false_eq_true, if_false, Option.isSome_none]
  | true => simp only [if_true, Option.isSome_some]

theorem initKeys_heap (keys : Nat) (heap : Allocator) :
    (initKeys keys heap).2 = { heap with asked := heap.asked + 2 * keys } := by
  induction keys generalizing heap with
  | zero =>
      simp only [initKeys, Nat.mul_zero, Nat.add_zero]
  | succ keys ih =>
      simp only [initKeys, initKey, Allocator.alloc, ih]
      congr 1
      omega

theorem initKeys_pointers (keys : Nat) (heap : Allocator) :
    keyPointers (initKeys keys heap).1 =
      Allocator.requests heap.outcome heap.asked (2 * keys) := by
  induction keys generalizing heap with
  | zero =>
      simp only [initKeys, keyPointers, Allocator.requests, List.flatMap_nil, Nat.mul_zero,
        List.range'_zero, List.map_nil]
  | succ keys ih =>
      have rest := ih (initKey heap).2
      have two : 2 * (keys + 1) = 2 * keys + 1 + 1 := by omega
      unfold keyPointers at rest
      simp only [initKeys, keyPointers, List.flatMap_cons, rest, two, Allocator.requests,
        List.range'_succ, List.map_cons]
      simp only [initKey, Allocator.alloc, List.cons_append, List.nil_append]

theorem initKeys_whole (keys : Nat) (heap : Allocator) :
    (∀ key ∈ (initKeys keys heap).1, key.head.isSome ∧ key.locks.isSome) ↔
      ∀ n < 2 * keys, heap.outcome (heap.asked + n) = true := by
  have pointers : (∀ key ∈ (initKeys keys heap).1, key.head.isSome ∧ key.locks.isSome) ↔
      ∀ pointer ∈ keyPointers (initKeys keys heap).1, pointer.isSome := by
    unfold keyPointers
    simp only [List.mem_flatMap, List.mem_cons, List.not_mem_nil, or_false]
    constructor
    · intro arrays pointer ⟨key, member, which⟩
      cases which with
      | inl head => rw [head]; exact (arrays key member).1
      | inr locks => rw [locks]; exact (arrays key member).2
    · intro present key member
      exact ⟨present key.head ⟨key, member, .inl rfl⟩, present key.locks ⟨key, member, .inr rfl⟩⟩
  rw [pointers, initKeys_pointers]
  simp only [Allocator.requests, List.mem_map, List.mem_range'_1]
  constructor
  · intro present n below
    have one := present _ ⟨heap.asked + n, ⟨by omega, by omega⟩, rfl⟩
    rwa [Allocator.granted_isSome] at one
  · intro granted pointer ⟨block, bounds, which⟩
    have one := granted (block - heap.asked) (by omega)
    rw [← which, Allocator.granted_isSome]
    rwa [Nat.add_sub_cancel' bounds.1] at one

/-- The blocks that `count` requests bring. -/
def Allocator.grants (outcome : Nat → Bool) (asked count : Nat) : List Nat :=
  (List.range' asked count).filter outcome

theorem Allocator.requests_grants (outcome : Nat → Bool) (asked count : Nat) :
    (requests outcome asked count).reduceOption = grants outcome asked count := by
  unfold requests grants
  induction List.range' asked count with
  | nil =>
      simp only [List.map_nil, List.reduceOption_nil, List.filter_nil]
  | cons block rest ih =>
      cases granted : outcome block with
      | false =>
          have absent : Allocator.granted outcome block = none := by
            simp only [Allocator.granted, granted, Bool.false_eq_true, if_false]
          rw [List.map_cons, absent, List.reduceOption_cons_of_none, ih,
            List.filter_cons_of_neg (by simp only [granted, Bool.false_eq_true, not_false_eq_true])]
      | true =>
          have present : Allocator.granted outcome block = some block := by
            simp only [Allocator.granted, granted, if_true]
          rw [List.map_cons, present, List.reduceOption_cons_of_some, ih,
            List.filter_cons_of_pos granted]

theorem Allocator.mem_grants {outcome : Nat → Bool} {asked count block : Nat} :
    block ∈ grants outcome asked count ↔
      (asked ≤ block ∧ block < asked + count) ∧ outcome block = true := by
  unfold grants
  rw [List.mem_filter, List.mem_range'_1]

theorem Allocator.grants_nodup (outcome : Nat → Bool) (asked count : Nat) :
    (grants outcome asked count).Nodup :=
  List.Nodup.filter outcome List.nodup_range'

/-- fm_core_init_share, with `asked` the number of its first request. -/
structure Initialised (keys : Nat) (heap : Allocator) (core : CoreArrays) (after : Allocator) :
    Prop where
  outcome : after.outcome = heap.outcome
  freed : after.freed = heap.freed
  asked : heap.asked ≤ after.asked
  chunks : core.chunks.isSome = heap.outcome heap.asked
  freeable : core.Freeable ↔
    keys = 0 ∨ heap.outcome heap.asked = true ∧ heap.outcome (heap.asked + 1) = true
  whole : core.Whole ↔ heap.outcome heap.asked = true ∧
    (keys = 0 ∨ heap.outcome (heap.asked + 1) = true ∧
      ∀ n < 2 * keys, heap.outcome (heap.asked + 2 + n) = true)
  keyed : keys ≠ 0 → core.Freeable → after.asked = heap.asked + 2 + 2 * keys
  pointers : core.Freeable → core.pointers.reduceOption.Perm
    (Allocator.grants heap.outcome heap.asked (after.asked - heap.asked))

theorem keyless_whole (keys : Nat) (chunks : Option (Nat × List ChunkArrays)) :
    (CoreArrays.keyless keys chunks).Whole ↔ chunks.isSome = true ∧ keys = 0 := by
  constructor
  · intro whole
    constructor
    · exact whole.chunks
    · apply Classical.byContradiction
      intro someKeys
      cases whole.keydef someKeys
  · intro ⟨present, noKeys⟩
    constructor
    · exact present
    · intro someKeys
      exact absurd noKeys someKeys
    · intro block entries impossible
      cases impossible

theorem keyless_freeable (keys : Nat) (chunks : Option (Nat × List ChunkArrays)) :
    (CoreArrays.keyless keys chunks).Freeable ↔ keys = 0 := by
  simp only [CoreArrays.Freeable, CoreArrays.keyless, Option.isSome_none, Bool.false_eq_true,
    or_false]

theorem CoreArrays.fmCoreInitShare_refused {keys : Nat} {heap : Allocator}
    (refused : heap.outcome heap.asked = false) :
    Initialised keys heap (CoreArrays.fmCoreInitShare keys heap).1
      (CoreArrays.fmCoreInitShare keys heap).2 := by
  have result : CoreArrays.fmCoreInitShare keys heap =
      (.keyless keys none, { heap with asked := heap.asked + 1 }) := by
    simp only [CoreArrays.fmCoreInitShare, Allocator.alloc, Allocator.granted, refused,
      Bool.false_eq_true,
      if_false]
  rw [result]
  constructor
  · exact rfl
  · exact rfl
  · exact Nat.le_succ heap.asked
  · rw [refused]
    exact rfl
  · rw [keyless_freeable, refused]
    simp only [Bool.false_eq_true, false_and, or_false]
  · rw [keyless_whole, refused]
    simp only [Option.isSome_none, Bool.false_eq_true, false_and]
  · intro someKeys freeable
    exact absurd ((keyless_freeable keys none).mp freeable) someKeys
  · intro _
    simp only [CoreArrays.keyless, CoreArrays.pointers, chunkPointers, List.append_nil,
      List.reduceOption_nil, Allocator.grants, Nat.add_sub_cancel_left, List.range'_one,
      List.filter_cons, refused, Bool.false_eq_true, if_false, List.filter_nil, List.Perm.refl]

theorem CoreArrays.fmCoreInitShare_noKeys {heap : Allocator} (granted : heap.outcome heap.asked = true) :
    Initialised 0 heap (CoreArrays.fmCoreInitShare 0 heap).1 (CoreArrays.fmCoreInitShare 0 heap).2 := by
  have result : CoreArrays.fmCoreInitShare 0 heap =
      (.keyless 0 (some (heap.asked, [])), { heap with asked := heap.asked + 1 }) := by
    simp only [CoreArrays.fmCoreInitShare, Allocator.alloc, Allocator.granted, granted, if_true]
  rw [result]
  constructor
  · exact rfl
  · exact rfl
  · exact Nat.le_succ heap.asked
  · rw [granted]
    exact rfl
  · simp only [keyless_freeable, true_or]
  · rw [keyless_whole, granted]
    simp only [Option.isSome_some, true_and, true_or]
  · intro someKeys
    exact absurd rfl someKeys
  · intro _
    simp only [CoreArrays.keyless, CoreArrays.pointers, chunkPointers, List.flatMap_nil,
      List.nil_append, List.append_nil, List.reduceOption_cons_of_some, List.reduceOption_nil,
      Allocator.grants, Nat.add_sub_cancel_left, List.range'_one, List.filter_cons, granted,
      if_true, List.filter_nil, List.Perm.refl]

theorem CoreArrays.fmCoreInitShare_noKeydef {keys : Nat} {heap : Allocator} (someKeys : keys ≠ 0)
    (granted : heap.outcome heap.asked = true)
    (refused : heap.outcome (heap.asked + 1) = false) :
    Initialised keys heap (CoreArrays.fmCoreInitShare keys heap).1
      (CoreArrays.fmCoreInitShare keys heap).2 := by
  have result : CoreArrays.fmCoreInitShare keys heap =
      (.keyless keys (some (heap.asked, [])), { heap with asked := heap.asked + 1 + 1 }) := by
    simp only [CoreArrays.fmCoreInitShare, Allocator.alloc, Allocator.granted, granted, refused, if_true,
      Bool.false_eq_true, if_false, if_neg someKeys]
  rw [result]
  constructor
  · exact rfl
  · exact rfl
  · exact Nat.le_add_right heap.asked 2
  · rw [granted]
    exact rfl
  · rw [keyless_freeable, refused]
    simp only [Bool.false_eq_true, and_false, or_false]
  · rw [keyless_whole, granted, refused]
    simp only [Option.isSome_some, true_and, Bool.false_eq_true, false_and, or_false]
  · intro _ freeable
    exact absurd ((keyless_freeable keys _).mp freeable) someKeys
  · intro freeable
    exact absurd ((keyless_freeable keys _).mp freeable) someKeys

theorem grants_add (outcome : Nat → Bool) (asked first second : Nat) :
    Allocator.grants outcome asked (first + second) =
      Allocator.grants outcome asked first ++
        Allocator.grants outcome (asked + first) second := by
  unfold Allocator.grants
  rw [← List.range'_append_1, List.filter_append]

theorem CoreArrays.fmCoreInitShare_keyed {keys : Nat} {heap : Allocator} (someKeys : keys ≠ 0)
    (chunks : heap.outcome heap.asked = true)
    (keydef : heap.outcome (heap.asked + 1) = true) :
    Initialised keys heap (CoreArrays.fmCoreInitShare keys heap).1
      (CoreArrays.fmCoreInitShare keys heap).2 := by
  have result : CoreArrays.fmCoreInitShare keys heap =
      (⟨keys, some (heap.asked, []),
          some (heap.asked + 1, (initKeys keys { heap with asked := heap.asked + 1 + 1 }).1),
          keydef_length_of_initKeys⟩,
        { heap with asked := heap.asked + 1 + 1 + 2 * keys }) := by
    simp only [CoreArrays.fmCoreInitShare, Allocator.alloc, Allocator.granted, chunks, keydef, if_true,
      if_neg someKeys, initKeys_heap]
  rw [result]
  constructor
  · exact rfl
  · exact rfl
  · exact Nat.le_trans (Nat.le_add_right heap.asked 2) (Nat.le_add_right _ _)
  · rw [chunks]
    exact rfl
  · simp only [CoreArrays.Freeable, Option.isSome_some, or_true, chunks, keydef, and_self]
  · rw [chunks, keydef]
    have arrays := initKeys_whole keys { heap with asked := heap.asked + 1 + 1 }
    constructor
    · intro whole
      exact ⟨rfl, .inr ⟨rfl, arrays.mp (whole.arrays _ _ rfl)⟩⟩
    · intro ⟨_, granted⟩
      constructor
      · exact rfl
      · exact fun _ => rfl
      · intro block entries same
        rw [Option.some_inj, Prod.mk.injEq] at same
        rw [← same.2]
        exact arrays.mpr (granted.resolve_left someKeys).2
  · exact fun _ _ => rfl
  · intro _
    have count : heap.asked + 1 + 1 + 2 * keys - heap.asked = 1 + 1 + 2 * keys := by omega
    have first : Allocator.grants heap.outcome heap.asked (1 + 1) =
        [heap.asked, heap.asked + 1] := by
      simp only [Allocator.grants, List.range'_succ, List.range'_zero, List.filter_cons, chunks,
        keydef, if_true, List.filter_nil]
    simp only [CoreArrays.pointers, chunkPointers, List.flatMap_nil, List.nil_append,
      initKeys_pointers, List.reduceOption_append, List.reduceOption_cons_of_some,
      List.reduceOption_nil, Allocator.requests_grants]
    rw [count, grants_add, first]
    exact List.Perm.append_left [heap.asked] List.perm_append_comm

theorem CoreArrays.fmCoreInitShare_initialised (keys : Nat) (heap : Allocator) :
    Initialised keys heap (CoreArrays.fmCoreInitShare keys heap).1
      (CoreArrays.fmCoreInitShare keys heap).2 := by
  cases chunks : heap.outcome heap.asked with
  | false => exact CoreArrays.fmCoreInitShare_refused chunks
  | true =>
      by_cases someKeys : keys = 0
      · rw [someKeys]
        exact CoreArrays.fmCoreInitShare_noKeys chunks
      · cases keydef : heap.outcome (heap.asked + 1) with
        | false => exact CoreArrays.fmCoreInitShare_noKeydef someKeys chunks keydef
        | true => exact CoreArrays.fmCoreInitShare_keyed someKeys chunks keydef

theorem Initialised.whole_of_named {keys : Nat} {heap after : Allocator} {core : CoreArrays}
    (built : Initialised keys heap core after) (chunks : core.chunks.isNone = false)
    (named : after.outcome after.asked = true)
    (arrays : keys = 0 ∨ heap.outcome heap.asked = true ∧
      heap.outcome (heap.asked + 1) = true ∧
        (heap.outcome (heap.asked + 2 + 2 * keys) = false ∨
          ∀ n < 2 * keys, heap.outcome (heap.asked + 2 + n) = true)) :
    core.Whole := by
  apply built.whole.mpr
  constructor
  · rw [← built.chunks, ← Option.not_isNone, chunks]
    exact rfl
  · by_cases noKeys : keys = 0
    · exact .inl noKeys
    · obtain ⟨outer, keydef, rest⟩ := arrays.resolve_left noKeys
      refine .inr ⟨keydef, rest.resolve_left ?_⟩
      rw [← built.keyed noKeys (built.freeable.mpr (.inr ⟨outer, keydef⟩)), ← built.outcome,
        named]
      exact Bool.noConfusion

/-! ### A new share -/

namespace ShareMemory

variable {memory : ShareMemory} {q : CreateRequest}

@[simp] theorem unlock_heap (memory : ShareMemory) (internalTable : Bool) :
    (memory.unlock internalTable).heap = memory.heap := by
  cases internalTable <;> rfl

@[simp] theorem unlock_shares (memory : ShareMemory) (internalTable : Bool) :
    (memory.unlock internalTable).shares = memory.shares := by
  cases internalTable <;> rfl

theorem fail_freeable (memory : ShareMemory) (internalTable : Bool) {share : ShareBlock}
    (freeable : share.core.Freeable) (unnamed : share.nameBlock = none) :
    memory.fail internalTable (some share) =
      some ⟨{ memory.unlock internalTable with
        heap := memory.heap.releaseAll (share.core.pointers ++ [some share.block]) },
        true, none⟩ := by
  simp only [fail, unnamed, Allocator.release, fmCoreFreeShare_freeable freeable, unlock_heap,
    Allocator.releaseAll, List.foldl_append, List.foldl_cons, List.foldl_nil]

theorem fail_broken (memory : ShareMemory) (internalTable : Bool) {share : ShareBlock}
    (broken : ¬ share.core.Freeable) : memory.fail internalTable (some share) = none := by
  simp only [fail, fmCoreFreeShare_broken broken]

/-- A failure that releases the blocks of its first `count` requests; the requests after
these were refused. -/
theorem settled_of_failure {result : CreateResult} {pointers : List (Option Nat)}
    (after : Allocator) (count : Nat)
    (fresh : ∀ block ∈ memory.heap.freed, block < memory.heap.asked)
    (failed : result.res = none)
    (lock : result.memory.locked = (memory.unlock q.internalTable).locked)
    (listed : result.memory.shares = memory.shares)
    (heap : result.memory.heap = after.releaseAll pointers)
    (freed : after.freed = memory.heap.freed)
    (perm : pointers.reduceOption.Perm
      (Allocator.grants memory.heap.outcome memory.heap.asked count))
    (refused : ∀ block, memory.heap.asked + count ≤ block → block < after.asked →
      memory.heap.outcome block = false) :
    Settled memory q result := by
  constructor
  · intro external
    simp only [lock, unlock, external, Bool.false_eq_true, if_false]
  · intro internal
    simp only [lock, unlock, internal, if_true]
  · intro share impossible
    rw [failed] at impossible
    cases impossible
  · intro _ block lower upper granted
    rw [heap, Allocator.releaseAll_eq] at upper ⊢
    have member : block ∈ Allocator.grants memory.heap.outcome memory.heap.asked count := by
      rw [Allocator.mem_grants]
      refine ⟨⟨lower, ?_⟩, granted⟩
      apply Nat.lt_of_not_le
      intro beyond
      rw [refused block beyond upper] at granted
      cases granted
    have old : memory.heap.freed.count block = 0 := by
      apply List.count_eq_zero.mpr
      intro released
      have below := fresh block released
      omega
    rw [List.count_append, List.count_reverse, perm.count_eq, freed, old,
      List.count_eq_one_of_mem (Allocator.grants_nodup _ _ _) member]
  · intro _ share member
    rwa [listed] at member

theorem build_refused (refused : memory.heap.outcome memory.heap.asked = false) :
    memory.build q = some ⟨{ memory with
      heap := { memory.heap with asked := memory.heap.asked + 1 } }.unlock q.internalTable,
      true, none⟩ := by
  simp only [build, Allocator.alloc, Allocator.granted, refused, Bool.false_eq_true, if_false,
    fail]

/-- What fm_create does with the core that it has built. -/
theorem build_granted (granted : memory.heap.outcome memory.heap.asked = true) :
    ∃ core after,
      Initialised q.keys ⟨memory.heap.outcome, memory.heap.asked + 1, memory.heap.freed⟩
        core after ∧
      memory.build q =
        if core.chunks.isNone then
          { memory with heap := after }.fail q.internalTable
            (some ⟨memory.heap.asked, q.name, none, 0, q.internalTable, core⟩)
        else if after.outcome after.asked then
          some (finish { memory with
              heap := { after with asked := after.asked + 1 }
              shares := if q.internalTable then memory.shares else
                ⟨memory.heap.asked, q.name, some after.asked, 0, q.internalTable, core⟩ ::
                  memory.shares } q true
            ⟨memory.heap.asked, q.name, some after.asked, 0, q.internalTable, core⟩)
        else
          { memory with heap := { after with asked := after.asked + 1 } }.fail q.internalTable
            (some ⟨memory.heap.asked, q.name, none, 0, q.internalTable, core⟩) := by
  refine ⟨_, _, CoreArrays.fmCoreInitShare_initialised q.keys _, ?_⟩
  simp only [build, Allocator.alloc, Allocator.granted, granted, if_true]
  generalize CoreArrays.fmCoreInitShare q.keys _ = built
  cases built.1.chunks.isNone with
  | true =>
      simp only [if_true]
  | false =>
      cases named : built.2.outcome built.2.asked with
      | true => simp only [Bool.false_eq_true, if_false, if_true]
      | false => simp only [Bool.false_eq_true, if_false]

theorem finish_res (memory : ShareMemory) (q : CreateRequest) (createdNewShare : Bool)
    (share : ShareBlock) :
    ∃ returned, (finish memory q createdNewShare share).res = some returned ∧
      returned.core = share.core := by
  unfold finish
  cases q.internalTable with
  | true => exact ⟨share, rfl, rfl⟩
  | false =>
      cases q.pinShare with
      | true => exact ⟨_, rfl, rfl⟩
      | false => exact ⟨share, rfl, rfl⟩

/-- The array that fm_key_ops_init goes through is one of those of a whole core. -/
theorem fmKeyOpsInit_whole {core : CoreArrays} (whole : core.Whole) (noSame : Nat → Bool) :
    (fmKeyOpsInit noSame core).isSome := by
  unfold fmKeyOpsInit
  cases array : core.keydef with
  | some keydef =>
      exact rfl
  | none =>
      have noKeys : core.keys = 0 := by
        apply Classical.byContradiction
        intro someKeys
        have present := whole.keydef someKeys
        rw [array] at present
        cases present
      simp only [noKeys, if_true, Option.isSome_some]

theorem finish_settled {before memory : ShareMemory} {createdNewShare : Bool}
    {share : ShareBlock} (lock : q.internalTable = true → memory.locked = before.locked)
    (whole : share.core.Whole) :
    Settled before q (finish memory q createdNewShare share) := by
  obtain ⟨returned, result, core⟩ := finish_res memory q createdNewShare share
  constructor
  · intro external
    simp only [finish, external, Bool.false_eq_true, if_false]
  · intro internal
    simpa only [finish, internal, if_true] using lock internal
  · intro other same
    rw [result, Option.some_inj] at same
    subst same
    rw [core]
    exact ⟨whole, fmKeyOpsInit_whole whole⟩
  · intro impossible
    rw [result] at impossible
    cases impossible
  · intro impossible
    rw [result] at impossible
    cases impossible

/-- The block of the share comes before those of its core, and is released after them. -/
theorem share_pointers {outcome : Nat → Bool} {asked count : Nat} {core : CoreArrays}
    (granted : outcome asked = true)
    (perm : core.pointers.reduceOption.Perm (Allocator.grants outcome (asked + 1) count)) :
    ((core.pointers ++ [some asked]).reduceOption).Perm
      (Allocator.grants outcome asked (count + 1)) := by
  have first : Allocator.grants outcome asked 1 = [asked] := by
    simp only [Allocator.grants, List.range'_one, List.filter_cons, granted, if_true,
      List.filter_nil]
  rw [Nat.add_comm count 1, grants_add, first, List.reduceOption_append,
    List.reduceOption_cons_of_some, List.reduceOption_nil]
  exact (perm.append_right [asked]).trans List.perm_append_comm

theorem fail_settled {core : CoreArrays} (after : Allocator) {count : Nat}
    (fresh : ∀ block ∈ memory.heap.freed, block < memory.heap.asked)
    (granted : memory.heap.outcome memory.heap.asked = true) (freeable : core.Freeable)
    (freed : after.freed = memory.heap.freed)
    (perm : core.pointers.reduceOption.Perm
      (Allocator.grants memory.heap.outcome (memory.heap.asked + 1) count))
    (refused : ∀ block, memory.heap.asked + 1 + count ≤ block → block < after.asked →
      memory.heap.outcome block = false) :
    ∃ result, { memory with heap := after }.fail q.internalTable
      (some ⟨memory.heap.asked, q.name, none, 0, q.internalTable, core⟩) = some result ∧
      Settled memory q result := by
  refine ⟨_, fail_freeable _ q.internalTable freeable rfl, ?_⟩
  apply settled_of_failure after (count + 1) fresh rfl _ (unlock_shares _ _) rfl freed
    (share_pointers granted perm)
  · intro block lower upper
    exact refused block (by omega) upper
  · unfold unlock
    cases q.internalTable <;> rfl

theorem build_refused_settles
    (fresh : ∀ block ∈ memory.heap.freed, block < memory.heap.asked)
    (refused : memory.heap.outcome memory.heap.asked = false) :
    ∃ result, memory.build q = some result ∧ Settled memory q result := by
  refine ⟨_, build_refused refused, ?_⟩
  have nothing : ([] : List (Option Nat)).reduceOption.Perm
      (Allocator.grants memory.heap.outcome memory.heap.asked 0) :=
    List.Perm.nil
  apply settled_of_failure ⟨memory.heap.outcome, memory.heap.asked + 1, memory.heap.freed⟩ 0
    fresh rfl _ (unlock_shares _ _) (unlock_heap _ _) rfl nothing
  · intro block lower upper
    have same : block = memory.heap.asked := by
      simp only at upper
      omega
    rw [same, refused]
  · unfold unlock
    cases q.internalTable <;> rfl

theorem build_settles (fresh : ∀ block ∈ memory.heap.freed, block < memory.heap.asked)
    (copes : Copes memory.heap.outcome memory.heap.asked q.keys) :
    ∃ result, memory.build q = some result ∧ Settled memory q result := by
  cases granted : memory.heap.outcome memory.heap.asked with
  | false => exact build_refused_settles fresh granted
  | true =>
      obtain ⟨core, after, built, result⟩ := build_granted (q := q) granted
      have arrays := copes.resolve_left (by simp only [granted, Bool.true_eq_false,
        not_false_eq_true])
      have freeable := built.freeable.mpr (arrays.imp_right fun outer => ⟨outer.1, outer.2.1⟩)
      have perm := built.pointers freeable
      have asked := built.asked
      have outcome := built.outcome
      simp only at asked perm outcome
      rw [result]
      cases chunks : core.chunks.isNone with
      | true =>
          rw [if_pos rfl]
          apply fail_settled after fresh granted freeable built.freed perm
          intro block lower upper
          omega
      | false =>
          rw [if_neg Bool.false_ne_true]
          cases copied : after.outcome after.asked with
          | true =>
              rw [if_pos rfl]
              exact ⟨_, rfl, finish_settled (fun _ => rfl)
                (built.whole_of_named chunks copied arrays)⟩
          | false =>
              rw [if_neg Bool.false_ne_true]
              apply fail_settled { after with asked := after.asked + 1 } fresh granted freeable
                built.freed perm
              intro block lower upper
              have same : block = after.asked := by
                simp only at upper
                omega
              rw [← outcome, same, copied]

/-- The other outcomes lead to an access of a missing array or to a share without one. -/
theorem build_unsettled {result : CreateResult}
    (fails : ¬ Copes memory.heap.outcome memory.heap.asked q.keys)
    (made : memory.build q = some result) :
    ∃ share, result.res = some share ∧ ¬ share.core.Whole := by
  unfold Copes at fails
  have granted : memory.heap.outcome memory.heap.asked = true := by
    apply Bool.of_not_eq_false
    exact fun refused => fails (.inl refused)
  have someKeys : q.keys ≠ 0 := fun noKeys => fails (.inr (.inl noKeys))
  obtain ⟨core, after, built, equation⟩ := build_granted (q := q) granted
  have outcome := built.outcome
  simp only at outcome
  have missing : after.outcome after.asked = false → ¬ core.Freeable := by
    intro refused freeable
    have outer := (built.freeable.mp freeable).resolve_left someKeys
    have last := built.keyed someKeys freeable
    rw [outcome, last] at refused
    exact fails (.inr (.inr ⟨outer.1, outer.2, .inl refused⟩))
  rw [equation] at made
  cases chunks : core.chunks.isNone with
  | true =>
      have broken : ¬ core.Freeable := by
        intro freeable
        have outer := ((built.freeable.mp freeable).resolve_left someKeys).1
        rw [← built.chunks, ← Option.not_isNone, chunks] at outer
        cases outer
      rw [chunks, if_pos rfl, fail_broken _ q.internalTable broken] at made
      cases made
  | false =>
      rw [chunks, if_neg Bool.false_ne_true] at made
      cases copied : after.outcome after.asked with
      | false =>
          rw [copied, if_neg Bool.false_ne_true,
            fail_broken _ q.internalTable (missing copied)] at made
          cases made
      | true =>
          rw [copied, if_pos rfl, Option.some_inj] at made
          rw [← made]
          obtain ⟨share, returned, same⟩ := finish_res { memory with
              heap := { after with asked := after.asked + 1 }
              shares := if q.internalTable then memory.shares else
                ⟨memory.heap.asked, q.name, some after.asked, 0, q.internalTable, core⟩ ::
                  memory.shares } q true
            ⟨memory.heap.asked, q.name, some after.asked, 0, q.internalTable, core⟩
          refine ⟨share, returned, ?_⟩
          rw [same]
          intro whole
          obtain ⟨outer, arrays⟩ := built.whole.mp whole
          obtain ⟨keydef, every⟩ := arrays.resolve_left someKeys
          exact fails (.inr (.inr ⟨outer, keydef, .inr every⟩))

/-! ### fm_create -/

/-- Allocations bring new blocks: what is released or registered was asked for before. -/
structure Fresh (memory : ShareMemory) : Prop where
  freed : ∀ block ∈ memory.heap.freed, block < memory.heap.asked
  held : ∀ share ∈ memory.shares,
    ∀ block, some block ∈ share.core.pointers ++ [share.nameBlock, some share.block] →
      block < memory.heap.asked

theorem free_freeable (memory : ShareMemory) {share : ShareBlock} (freeable : share.core.Freeable) :
    ∃ after, memory.free share = some after ∧
      after.heap = memory.heap.releaseAll
        (share.core.pointers ++ [share.nameBlock, some share.block]) ∧
      after.locked = memory.locked ∧ ∀ other ∈ after.shares, other ∈ memory.shares := by
  unfold free
  cases share.internal with
  | true =>
      rw [if_pos rfl]
      simp only [fmCoreFreeShare_freeable freeable]
      refine ⟨_, rfl, ?_, rfl, fun other member => member⟩
      rw [Allocator.releaseAll_append]
  | false =>
      rw [if_neg Bool.false_ne_true]
      simp only [fmCoreFreeShare_freeable freeable]
      refine ⟨_, rfl, ?_, rfl, fun other member => List.mem_of_mem_eraseP member⟩
      rw [Allocator.releaseAll_append]
      exact rfl

theorem free_broken {share : ShareBlock} (broken : ¬ share.core.Freeable) :
    memory.free share = none := by
  simp only [free, fmCoreFreeShare_broken broken]

theorem settled_of_freed {before memory : ShareMemory} {result : CreateResult}
    (settled : Settled memory q result) (asked : memory.heap.asked = before.heap.asked)
    (outcome : memory.heap.outcome = before.heap.outcome)
    (external : q.internalTable = false)
    (listed : ∀ share ∈ memory.shares, share ∈ before.shares) : Settled before q result := by
  constructor
  · exact settled.unlocked
  · intro internal
    rw [external] at internal
    cases internal
  · exact settled.whole
  · intro failed block
    rw [← asked, ← outcome]
    exact settled.released failed block
  · intro failed share member
    exact listed share (settled.unlisted failed share member)

/-- The branch `!share` settles the call exactly when the outcomes allow it. -/
theorem build_iff {before memory : ShareMemory}
    (fresh : ∀ block ∈ memory.heap.freed, block < memory.heap.asked)
    (transfer : ∀ result, Settled memory q result → Settled before q result) :
    (∃ result, memory.build q = some result ∧ Settled before q result) ↔
      Copes memory.heap.outcome memory.heap.asked q.keys := by
  constructor
  · intro ⟨result, made, settled⟩
    apply Classical.byContradiction
    intro fails
    obtain ⟨share, returned, broken⟩ := build_unsettled fails made
    exact broken (settled.whole share returned).1
  · intro copes
    obtain ⟨result, made, settled⟩ := build_settles (q := q) fresh copes
    exact ⟨result, made, transfer result settled⟩

theorem finish_iff {before memory : ShareMemory} {share : ShareBlock}
    (external : q.internalTable = false) :
    Settled before q (finish memory q false share) ↔ share.core.Whole := by
  constructor
  · intro settled
    obtain ⟨returned, result, same⟩ := finish_res memory q false share
    rw [← same]
    exact (settled.whole returned result).1
  · intro whole
    apply finish_settled _ whole
    intro internal
    rw [external] at internal
    cases internal

theorem supplied_of_unnamed (unnamed : memory.named q = none) :
    Supplied memory q ↔ Copes memory.heap.outcome memory.heap.asked q.keys := by
  constructor
  · intro supplied
    apply supplied.copes
    intro share impossible
    rw [unnamed] at impossible
    cases impossible
  · intro copes
    constructor
    · intro share impossible
      rw [unnamed] at impossible
      cases impossible
    · intro share impossible
      rw [unnamed] at impossible
      cases impossible
    · exact fun _ => copes

theorem supplied_of_unused {share : ShareBlock} (named : memory.named q = some share)
    (unused : share.openCount = 0) :
    Supplied memory q ↔
      share.core.Freeable ∧ Copes memory.heap.outcome memory.heap.asked q.keys := by
  have only : ∀ other, memory.named q = some other → other = share := by
    intro other same
    rw [named, Option.some_inj] at same
    exact same.symm
  constructor
  · intro supplied
    refine ⟨supplied.unused share named unused, supplied.copes ?_⟩
    intro other same
    rw [only other same, unused]
  · intro ⟨freeable, copes⟩
    constructor
    · intro other same used
      rw [only other same] at used
      exact absurd unused used
    · intro other same _
      rw [only other same]
      exact freeable
    · exact fun _ => copes

theorem supplied_of_used {share : ShareBlock} (named : memory.named q = some share)
    (used : share.openCount ≠ 0) : Supplied memory q ↔ share.core.Whole := by
  constructor
  · intro supplied
    exact supplied.used share named used
  · intro whole
    constructor
    · intro other same _
      rw [named, Option.some_inj] at same
      rwa [← same]
    · intro other same unused
      rw [named, Option.some_inj] at same
      rw [← same] at unused
      exact absurd unused used
    · intro every
      exact absurd (every share named) used

/-- The unused share gives its blocks back before the new one asks for its own. -/
theorem claimed_iff {share : ShareBlock} (fresh : Fresh memory)
    (external : q.internalTable = false) (member : share ∈ memory.shares) :
    (∃ result, (({ memory with locked := true }.free share).map fun memory =>
        (memory, none)).bind (proceed q) = some result ∧ Settled memory q result) ↔
      share.core.Freeable ∧ Copes memory.heap.outcome memory.heap.asked q.keys := by
  by_cases freeable : share.core.Freeable
  · obtain ⟨after, freed, heap, _, listed⟩ :=
      free_freeable { memory with locked := true } freeable
    rw [Allocator.releaseAll_eq] at heap
    have asked : after.heap.asked = memory.heap.asked := by rw [heap]
    have outcome : after.heap.outcome = memory.heap.outcome := by rw [heap]
    have below : ∀ block ∈ after.heap.freed, block < after.heap.asked := by
      rw [heap]
      intro block released
      simp only [List.mem_append, List.mem_reverse, List.reduceOption_mem_iff] at released
      cases released with
      | inl own => exact fresh.held share member block (List.mem_append.mpr own)
      | inr earlier => exact fresh.freed block earlier
    have transfer : ∀ result, Settled after q result → Settled memory q result :=
      fun _ settled => settled_of_freed settled asked outcome external listed
    simp only [freed, Option.map_some, Option.bind_some, proceed, freeable, true_and]
    rw [build_iff below transfer, asked, outcome]
  · rw [free_broken freeable]
    simp only [Option.map_none, Option.bind_none, freeable, false_and, iff_false]
    intro ⟨result, impossible, _⟩
    cases impossible

/-- Memory that runs out in fm_create is harmless exactly for these outcomes. -/
theorem allOrNothing_iff (memory : ShareMemory) (q : CreateRequest) (fresh : Fresh memory) :
    AllOrNothing memory q ↔ Supplied memory q := by
  unfold AllOrNothing fmCreate
  cases external : q.internalTable with
  | true =>
      have unnamed : memory.named q = none := by simp only [named, external, if_true]
      rw [if_pos rfl, supplied_of_unnamed unnamed]
      exact build_iff fresh.freed fun _ settled => settled
  | false =>
      have lookup : memory.named q = memory.find q.name := by
        simp only [named, external, Bool.false_eq_true, if_false]
      have search : { memory with locked := true }.find q.name = memory.find q.name := rfl
      rw [if_neg Bool.false_ne_true]
      unfold claim
      rw [search]
      cases found : memory.find q.name with
      | none =>
          rw [supplied_of_unnamed (lookup.trans found)]
          have locked : ∀ result, Settled { memory with locked := true } q result →
              Settled memory q result :=
            fun _ settled => settled_of_freed settled rfl rfl external fun _ member => member
          exact build_iff fresh.freed locked
      | some share =>
          by_cases unused : share.openCount = 0
          · rw [supplied_of_unused (lookup.trans found) unused]
            simp only [unused, if_true]
            exact claimed_iff fresh external (List.mem_of_find?_eq_some found)
          · rw [supplied_of_used (lookup.trans found) unused]
            simp only [if_neg unused, Option.bind_some, proceed, Option.some_inj,
              exists_eq_left', finish_iff external]

def untouched (outcome : Nat → Bool) : ShareMemory := ⟨⟨outcome, 0, []⟩, false, []⟩

theorem untouched_fresh (outcome : Nat → Bool) : Fresh (untouched outcome) := by
  constructor
  · intro block impossible
    cases impossible
  · intro share impossible
    cases impossible

def oneKeyTable : CreateRequest := ⟨"t", 1, false, true⟩

/-- The head array and the name are refused: everything is given back. -/
theorem allOrNothing_refusedName :
    Fresh (untouched fun n => n != 3 && n != 5) ∧
      AllOrNothing (untouched fun n => n != 3 && n != 5) oneKeyTable := by
  have unnamed : (untouched fun n => n != 3 && n != 5).named oneKeyTable = none := rfl
  have copes : Copes (fun n => n != 3 && n != 5) 0 1 := .inr (.inr ⟨rfl, rfl, .inl rfl⟩)
  refine ⟨untouched_fresh _, (allOrNothing_iff _ _ (untouched_fresh _)).mpr ?_⟩
  exact (supplied_of_unnamed unnamed).mpr copes

/-- The array of the keys is refused, and the call returns 0 all the same. -/
theorem allOrNothing_refusedKeydef :
    ¬ AllOrNothing (untouched fun n => n != 2) oneKeyTable := by
  intro ⟨result, made, settled⟩
  have fails : ¬ Copes (fun n => n != 2) 0 1 := by
    unfold Copes
    simp
  have built : ShareMemory.build ⟨⟨fun n => n != 2, 0, []⟩, true, []⟩ oneKeyTable = some result :=
    made
  obtain ⟨share, returned, broken⟩ := build_unsettled fails built
  exact broken (settled.whole share returned).1

end ShareMemory

end Fastmem
