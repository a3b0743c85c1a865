/-
Data model of the concurrency core (fm_core.h): slots, link cells, locks and
the share, with the atomic actions its functions perform on them.

Chain heads, chain links and the freelist are link cells: a cell holds a slot
number or FM_NULL_SLOT, here `none`. A spinlock records its owner besides being
taken; the code only ever tests whether it is taken. Slot and chunk numbers are
natural numbers: `ShareDef` bounds them so that no 32-bit expression of the
code wraps. The sequence counter and the generation do wrap.
-/

import Fastmem.ThreadProtocol
import Mathlib.Algebra.Order.Ring.Nat

set_option autoImplicit false

namespace Fastmem

def fmChunkSize : Nat := 4096

def fmMaxKeys : Nat := 64

def fmMaxChangedKeys : Nat := 64

/-- The FM_ERR_* codes a core function fails with. A duplicate carries the value
left in `*errkey`. -/
inductive Err
  | notFound
  | eof
  | deleted
  | dupKey (errkey : Int)
  | full
  | nomem
  deriving DecidableEq, Repr

inductive SlotState
  | free
  | active
  | deleted
  | deleting
  deriving DecidableEq, Repr

/-- A record image of `n` bytes. -/
abbrev Rec (n : Nat) := Fin n → UInt8

abbrev PackedKey := List UInt8

/-- FM_KEY_OPS. `hash_rec` is always set by the glue; `has_null_part` may be null. -/
structure KeyOps (n : Nat) where
  hashRec : Rec n → UInt32
  hashKey : PackedKey → UInt32
  cmpRecRec : Rec n → Rec n → Int
  cmpRecKey : Rec n → PackedKey → Int
  hasNullPart : Option (Rec n → Bool)

structure KeyCore (n : Nat) where
  ops : KeyOps n
  unique : Bool
  nbuckets : Nat

/-- The fields of FM_SHARE_CORE that do not change after initialisation. -/
structure ShareDef (n : Nat) where
  keys : Nat
  maxRecords : Nat
  chunkCap : Nat
  keydef : Nat → KeyCore n
  keys_le : keys ≤ fmMaxKeys
  max_pos : 0 < maxRecords
  max_le : maxRecords ≤ 2 ^ 31 - 4096
  chunkCap_eq : chunkCap = (maxRecords + fmChunkSize - 1) / fmChunkSize
  nbuckets_pow : ∀ k, ∃ e, (keydef k).nbuckets = 2 ^ e

inductive Cell
  | head (k b : Nat)
  | next (k idx : Nat)
  | freeHead
  | freeNext (idx : Nat)
  deriving DecidableEq, Repr

inductive Lock
  | wlock (idx : Nat)
  | bucket (k b : Nat)
  | structMutex
  deriving DecidableEq, Repr

/-- FM_SLOT with its record image; `free_next` is a link cell and `wlock` a lock. -/
structure Slot (n : Nat) where
  state : SlotState
  seq : UInt32
  gen : UInt32
  data : Rec n

structure Chunk where
  slots : Bool
  keyNext : Bool
  keyNextAt : Nat → Bool

/-- The allocator: the outcome of every allocation to come, how many were asked
for, and how many blocks are live. -/
structure Heap where
  outcome : Nat → Bool
  asked : Nat
  live : Nat

structure Core (n : Nat) where
  chunkCnt : Nat
  records : Int
  slot : Nat → Slot n
  cell : Cell → Option Nat
  owner : Lock → Option Nat
  chunk : Nat → Chunk
  heap : Heap

/-- How finely memcpy interleaves with other threads. -/
inductive Gran
  | whole
  | bytewise
  deriving DecidableEq

variable {n : Nat}

def fmBucket (kc : KeyCore n) (hash : UInt32) : Nat :=
  hash.toNat &&& (kc.nbuckets - 1)

def fmCoreKeyBucket (kc : KeyCore n) (rec : Rec n) : Nat :=
  fmBucket kc (kc.ops.hashRec rec)

/-- The atomic actions of the core. -/
inductive Act (n : Nat) : Type → Type
  | lock (l : Lock) : Act n Unit
  | unlock (l : Lock) : Act n Unit
  | loadState (idx : Nat) : Act n SlotState
  | storeState (idx : Nat) (state : SlotState) : Act n Unit
  | loadGen (idx : Nat) : Act n UInt32
  | bumpGen (idx : Nat) : Act n Unit
  | loadSeq (idx : Nat) : Act n UInt32
  | bumpSeq (idx : Nat) : Act n Unit
  | loadData (idx : Nat) : Act n (Rec n)
  | storeData (idx : Nat) (rec : Rec n) : Act n Unit
  | loadByte (idx : Nat) (at_ : Fin n) : Act n UInt8
  | storeByte (idx : Nat) (at_ : Fin n) (byte : UInt8) : Act n Unit
  | loadCell (cell : Cell) : Act n (Option Nat)
  | storeCell (cell : Cell) (value : Option Nat) : Act n Unit
  | loadChunkCnt : Act n Nat
  | storeChunkCnt (count : Nat) : Act n Unit
  | addRecords (delta : Int) : Act n Unit
  | storeRecords (count : Int) : Act n Unit
  | alloc : Act n Bool
  | dealloc : Act n Unit
  | storeSlotsPtr (chunk : Nat) (set : Bool) : Act n Unit
  | storeKeyNextPtr (chunk : Nat) (set : Bool) : Act n Unit
  | storeKeyNextAt (chunk k : Nat) (set : Bool) : Act n Unit
  | initSlots (chunk : Nat) : Act n Unit
  | initKeyNext (chunk k : Nat) : Act n Unit

namespace Core

def setSlot (s : Core n) (idx : Nat) (slot : Slot n) : Core n :=
  { s with slot := Function.update s.slot idx slot }

def setCell (s : Core n) (cell : Cell) (value : Option Nat) : Core n :=
  { s with cell := Function.update s.cell cell value }

def setOwner (s : Core n) (l : Lock) (owner : Option Nat) : Core n :=
  { s with owner := Function.update s.owner l owner }

def setChunk (s : Core n) (c : Nat) (chunk : Chunk) : Core n :=
  { s with chunk := Function.update s.chunk c chunk }

/-- Placement-new of the FM_CHUNK_SIZE slots of a chunk; the images stay as the
allocator left them. -/
def initSlots (s : Core n) (c : Nat) : Core n :=
  { s with
    slot := fun i =>
      if i / fmChunkSize = c then ⟨.free, 0, 0, (s.slot i).data⟩ else s.slot i
    cell := fun cell =>
      match cell with
      | .freeNext i => if i / fmChunkSize = c then none else s.cell (.freeNext i)
      | other => s.cell other
    owner := fun l =>
      match l with
      | .wlock i => if i / fmChunkSize = c then none else s.owner (.wlock i)
      | other => s.owner other }

def initKeyNext (s : Core n) (c k : Nat) : Core n :=
  { s with
    cell := fun cell =>
      match cell with
      | .next k' i =>
          if k' = k ∧ i / fmChunkSize = c then none else s.cell (.next k' i)
      | other => s.cell other }

def slotCount (s : Core n) : Nat := s.chunkCnt * fmChunkSize

end Core

/-- One atomic action of thread `t`. Only taking a taken lock is disabled. -/
def Act.exec {ρ : Type} (t : Nat) : Act n ρ → Core n → Option (ρ × Core n)
  | .lock l, s =>
      match s.owner l with
      | none => some ((), s.setOwner l (some t))
      | some _ => none
  | .unlock l, s => some ((), s.setOwner l none)
  | .loadState idx, s => some ((s.slot idx).state, s)
  | .storeState idx state, s => some ((), s.setSlot idx { s.slot idx with state := state })
  | .loadGen idx, s => some ((s.slot idx).gen, s)
  | .bumpGen idx, s =>
      some ((), s.setSlot idx { s.slot idx with gen := (s.slot idx).gen + 1 })
  | .loadSeq idx, s => some ((s.slot idx).seq, s)
  | .bumpSeq idx, s =>
      some ((), s.setSlot idx { s.slot idx with seq := (s.slot idx).seq + 1 })
  | .loadData idx, s => some ((s.slot idx).data, s)
  | .storeData idx rec, s => some ((), s.setSlot idx { s.slot idx with data := rec })
  | .loadByte idx at_, s => some ((s.slot idx).data at_, s)
  | .storeByte idx at_ byte, s =>
      some ((), s.setSlot idx
        { s.slot idx with data := Function.update (s.slot idx).data at_ byte })
  | .loadCell cell, s => some (s.cell cell, s)
  | .storeCell cell value, s => some ((), s.setCell cell value)
  | .loadChunkCnt, s => some (s.chunkCnt, s)
  | .storeChunkCnt count, s => some ((), { s with chunkCnt := count })
  | .addRecords delta, s => some ((), { s with records := s.records + delta })
  | .storeRecords count, s => some ((), { s with records := count })
  | .alloc, s =>
      let granted := s.heap.outcome s.heap.asked
      some (granted, { s with heap :=
        { s.heap with
          asked := s.heap.asked + 1
          live := if granted then s.heap.live + 1 else s.heap.live } })
  | .dealloc, s => some ((), { s with heap := { s.heap with live := s.heap.live - 1 } })
  | .storeSlotsPtr c set, s => some ((), s.setChunk c { s.chunk c with slots := set })
  | .storeKeyNextPtr c set, s =>
      some ((), s.setChunk c { s.chunk c with keyNext := set, keyNextAt := fun _ => false })
  | .storeKeyNextAt c k set, s =>
      some ((), s.setChunk c
        { s.chunk c with keyNextAt := Function.update (s.chunk c).keyNextAt k set })
  | .initSlots c, s => some ((), s.initSlots c)
  | .initKeyNext c k, s => some ((), s.initKeyNext c k)

abbrev coreMachine (n : Nat) : Machine where
  Act := Act n
  St := Core n
  exec := Act.exec

/-! ### Initialisation -/

/-- What fm_core_init_share fixes for good. Callers pass at most FM_MAX_KEYS keys, a power
of two of buckets and a row limit of at most 2^31 - 4096; a limit of 0 means 1. -/
def fmCoreInitShare (keys maxRecords nbuckets : Nat) (ops : Nat → KeyOps n)
    (unique : Nat → Bool) (keysLe : keys ≤ fmMaxKeys) (maxLe : maxRecords ≤ 2 ^ 31 - 4096)
    (pow : ∃ e, nbuckets = 2 ^ e) : ShareDef n where
  keys := keys
  maxRecords := if maxRecords = 0 then 1 else maxRecords
  chunkCap := ((if maxRecords = 0 then 1 else maxRecords) + fmChunkSize - 1) / fmChunkSize
  keydef k := ⟨ops k, unique k, nbuckets⟩
  keys_le := keysLe
  max_pos := by
    split
    · exact Nat.one_pos
    · exact Nat.pos_of_ne_zero ‹_›
  max_le := by
    split
    · decide
    · exact maxLe
  chunkCap_eq := rfl
  nbuckets_pow _ := pow

/-- The mutable part of a fresh share: no chunk, no row, every lock free. The images of
slots that no chunk holds yet are whatever the allocator will hand out, and its
outcomes are arbitrary. -/
def Core.fresh (garbage : Nat → Rec n) (heap : Heap) : Core n where
  chunkCnt := 0
  records := 0
  slot i := ⟨.free, 0, 0, garbage i⟩
  cell _ := none
  owner _ := none
  chunk _ := ⟨false, false, fun _ => false⟩
  heap := heap

/-! ### A concrete table -/

def byteOps : KeyOps 1 where
  hashRec rec := (rec 0).toUInt32
  hashKey packed := (packed.headD 0).toUInt32
  cmpRecRec left right := if left 0 = right 0 then 0 else 1
  cmpRecKey rec packed := if packed = [rec 0] then 0 else 1
  hasNullPart := none

theorem oneKey_le : 1 ≤ fmMaxKeys := by decide

theorem fourRecords_le : 4 ≤ 2 ^ 31 - 4096 := by decide

theorem twoBuckets_pow : ∃ e, 2 = 2 ^ e := ⟨1, rfl⟩

def byteTable : ShareDef 1 :=
  fmCoreInitShare 1 4 2 (fun _ => byteOps) (fun _ => true) (by decide) (by decide) ⟨1, rfl⟩

end Fastmem
