/-
The functions of the concurrency core (fm_core.h) as programs over its atomic
actions, in the order of the source.

A function that fills a caller's buffer returns the buffer; one that returns an
FM_ERR_* code returns it as an error. Loops over keys, buckets and slots run
over explicit lists; the walks along chains and the retry of a reader are
unbounded loops, as in the source.
-/

import Fastmem.Core.Share
import Mathlib.Data.List.Sort

set_option autoImplicit false

namespace Fastmem

open Prog (perform iterate forEach foldEach)

variable {n : Nat}

abbrev CoreProg (n : Nat) (α : Type) := Prog (Act n) α

/-! ### Copies of a record image -/

/-- memcpy of a record into the image of slot `idx`. -/
def memcpyIn (gran : Gran) (idx : Nat) (rec : Rec n) : CoreProg n Unit :=
  match gran with
  | .whole => perform (.storeData idx rec)
  | .bytewise => forEach (List.finRange n) fun at_ => perform (.storeByte idx at_ (rec at_))

/-- memcpy of the image of slot `idx` into a buffer. -/
def memcpyOut (gran : Gran) (idx : Nat) : CoreProg n (Rec n) :=
  match gran with
  | .whole => perform (.loadData idx)
  | .bytewise =>
      foldEach (fun buf at_ => do
        let byte ← perform (.loadByte idx at_)
        return Function.update buf at_ byte) (fun _ => 0) (List.finRange n)

/-! ### Seqlock-protected read -/

/-- `state != ACTIVE || gen != expect_gen`, the second load only after an ACTIVE state. -/
def slotStale (idx : Nat) (expectGen : UInt32) : CoreProg n Bool := do
  let state ← perform (.loadState idx)
  if state ≠ .active then
    return true
  else
    let gen ← perform (.loadGen idx)
    return gen != expectGen

/-- The copy between the two loads of the sequence counter; `none` means retry. -/
def seqlockCopy (gran : Gran) (idx : Nat) : CoreProg n (Option (Rec n)) := do
  let s1 ← perform (.loadSeq idx)
  if s1 % 2 = 1 then
    return none                                 -- update in progress
  else
    let buf ← memcpyOut gran idx
    let s2 ← perform (.loadSeq idx)
    if s2 ≠ s1 then
      return none                               -- changed, retry
    else
      return some buf

/-- `check_gen && gen != expect_gen`. -/
def genMismatch (idx : Nat) (checkGen : Bool) (expectGen : UInt32) : CoreProg n Bool :=
  if checkGen then do
    let gen ← perform (.loadGen idx)
    return gen != expectGen
  else
    return false

def readRound (gran : Gran) (idx : Nat) (checkGen : Bool) (expectGen : UInt32) :
    CoreProg n (Unit ⊕ Except Err (Rec n)) := do
  let state ← perform (.loadState idx)
  if state ≠ .active then
    return .inr (.error .deleted)
  else
    let mismatch ← genMismatch idx checkGen expectGen
    if mismatch then
      return .inr (.error .deleted)
    else
      let copied ← seqlockCopy gran idx
      match copied with
      | none => return .inl ()
      | some buf => return .inr (.ok buf)

def fmCoreReadRow (gran : Gran) (idx : Nat) (checkGen : Bool) (expectGen : UInt32) :
    CoreProg n (Except Err (Rec n)) :=
  iterate () fun _ => readRound gran idx checkGen expectGen

/-! ### Slot allocation, under struct_mutex -/

def fmCoreFreeSlot (idx : Nat) : CoreProg n Unit := do
  let head ← perform (.loadCell .freeHead)
  perform (.storeCell (.freeNext idx) head)
  perform (.storeCell .freeHead (some idx))

/-- The key_next arrays of a new chunk; `false` when one could not be allocated, after the
arrays that could were released. -/
def growKeyNext (c : Nat) (keys : Nat) : Nat → CoreProg n Bool
  | 0 => return true
  | left + 1 => do
      let kk := keys - (left + 1)
      let granted ← perform .alloc
      perform (.storeKeyNextAt c kk granted)
      if granted then
        perform (.initKeyNext c kk)
        growKeyNext c keys left
      else
        forEach (List.range kk) fun _ => perform .dealloc
        perform .dealloc
        perform (.storeKeyNextPtr c false)
        perform .dealloc
        perform (.storeSlotsPtr c false)
        return false

def growChunkKeys (D : ShareDef n) (c : Nat) : CoreProg n Bool :=
  if D.keys = 0 then
    return true
  else do
    let granted ← perform .alloc
    perform (.storeKeyNextPtr c granted)
    if granted then
      growKeyNext c D.keys D.keys
    else
      perform .dealloc
      perform (.storeSlotsPtr c false)
      return false

/-- `none` is FM_ERR_OK. -/
def fmCoreGrowChunk (D : ShareDef n) : CoreProg n (Option Err) := do
  let c ← perform .loadChunkCnt
  if D.chunkCap ≤ c then
    return some .full
  else
    let granted ← perform .alloc
    perform (.storeSlotsPtr c granted)
    if !granted then
      return some .nomem
    else
      perform (.initSlots c)
      let complete ← growChunkKeys D c
      if complete then
        perform (.storeChunkCnt (c + 1))
        return none
      else
        return some .nomem

/-- Pop a free slot, or grow a chunk, keep its first slot and put the others below the row
limit on the freelist. The test `(total & (CHUNK_SIZE - 1)) == 0` of the source is always
true: `total` is a multiple of FM_CHUNK_SIZE. -/
def fmCoreAllocSlot (D : ShareDef n) : CoreProg n (Option Nat) := do
  let head ← perform (.loadCell .freeHead)
  match head with
  | some idx => do
      let next ← perform (.loadCell (.freeNext idx))
      perform (.storeCell .freeHead next)
      return some idx
  | none => do
      let cnt ← perform .loadChunkCnt
      let total := cnt * fmChunkSize
      if D.maxRecords ≤ total then
        return none
      else
        let failed ← fmCoreGrowChunk D
        if failed.isSome then
          return none
        else
          let stop := min (total + fmChunkSize) D.maxRecords
          forEach ((List.range' (total + 1) (stop - (total + 1))).reverse) fmCoreFreeSlot
          return some total

/-! ### Hash chains, under the bucket lock -/

def unlinkRound (k idx : Nat) (link : Cell) : CoreProg n (Cell ⊕ Except Err Unit) := do
  let pointed ← perform (.loadCell link)
  match pointed with
  | none => return .inr (.error .notFound)
  | some h =>
      if h = idx then
        let next ← perform (.loadCell (.next k idx))
        perform (.storeCell link next)
        return .inr (.ok ())
      else
        return .inl (.next k h)

def fmCoreChainUnlink (k b idx : Nat) : CoreProg n (Except Err Unit) :=
  iterate (Cell.head k b) (unlinkRound k idx)

def fmCoreChainLink (k b idx : Nat) : CoreProg n Unit := do
  let head ← perform (.loadCell (.head k b))
  perform (.storeCell (.next k idx) head)
  perform (.storeCell (.head k b) (some idx))

/-! ### Scans and point lookups -/

def scanRound (gran : Gran) (bound pos : Nat) :
    CoreProg n (Nat ⊕ Nat × Except Err (Rec n)) :=
  if pos < bound then do
    let row ← fmCoreReadRow gran pos false 0
    match row with
    | .ok buf => return .inr (pos + 1, .ok buf)
    | .error _ => return .inl (pos + 1)
  else
    return .inr (pos, .error .eof)

def fmCoreScanNext (gran : Gran) (pos : Nat) : CoreProg n (Nat × Except Err (Rec n)) := do
  let cnt ← perform .loadChunkCnt
  iterate pos (scanRound gran (cnt * fmChunkSize))

/-- `read_row == FM_ERR_OK && test(buf)`: the test of every chain walk. -/
def readPassing (gran : Gran) (idx : Nat) (test : Rec n → Bool) :
    CoreProg n (Option (Rec n)) := do
  let row ← fmCoreReadRow gran idx false 0
  match row with
  | .ok buf => return if test buf then some buf else none
  | .error _ => return none

def findRound (gran : Gran) (key : Nat) (test : Rec n → Bool) (h : Option Nat) :
    CoreProg n (Option Nat ⊕ Except Err (Nat × Rec n)) :=
  match h with
  | none => return .inr (.error .notFound)
  | some idx => do
      let row ← readPassing gran idx test
      match row with
      | some buf => return .inr (.ok (idx, buf))
      | none =>
          let next ← perform (.loadCell (.next key idx))
          return .inl next

def fmCoreFind (D : ShareDef n) (gran : Gran) (key : Nat) (packed : PackedKey) :
    CoreProg n (Except Err (Nat × Rec n)) := do
  let kc := D.keydef key
  let b := fmBucket kc (kc.ops.hashKey packed)
  perform (.lock (.bucket key b))
  let head ← perform (.loadCell (.head key b))
  let found ← iterate head
    (findRound gran key fun buf => kc.ops.cmpRecKey buf packed = 0)
  perform (.unlock (.bucket key b))
  return found

/-- One chain node of a continued lookup, with the flag `after_cur`. -/
def findNextRound (gran : Gran) (key : Nat) (test : Rec n → Bool) (cur : Option Nat)
    (state : Option Nat × Bool) :
    CoreProg n (Option Nat × Bool ⊕ Except Err (Nat × Rec n)) :=
  match state with
  | (none, _) => return .inr (.error .notFound)
  | (some idx, afterCur) =>
      if some idx = cur then do
        let next ← perform (.loadCell (.next key idx))
        return .inl (next, true)
      else do
        let row ← (if afterCur then readPassing gran idx test else return none)
        match row with
        | some buf => return .inr (.ok (idx, buf))
        | none =>
            let next ← perform (.loadCell (.next key idx))
            return .inl (next, afterCur)

/-- `cur` is FM_NULL_SLOT or the slot an earlier lookup returned. -/
def fmCoreFindNext (D : ShareDef n) (gran : Gran) (key : Nat) (packed : PackedKey)
    (cur : Option Nat) : CoreProg n (Except Err (Nat × Rec n)) := do
  let kc := D.keydef key
  let b := fmBucket kc (kc.ops.hashKey packed)
  perform (.lock (.bucket key b))
  let head ← perform (.loadCell (.head key b))
  let found ← iterate (head, false)
    (findNextRound gran key (fun buf => kc.ops.cmpRecKey buf packed = 0) cur)
  perform (.unlock (.bucket key b))
  return found

/-! ### Insert -/

/-- The key is unique and the record has no NULL part in it. -/
def dupChecked (kc : KeyCore n) (rec : Rec n) : Bool :=
  kc.unique && !(match kc.ops.hasNullPart with
    | none => false
    | some hasNull => hasNull rec)

def dupRound (gran : Gran) (k : Nat) (test : Rec n → Bool) (h : Option Nat) :
    CoreProg n (Option Nat ⊕ Bool) :=
  match h with
  | none => return .inr false
  | some idx => do
      let row ← readPassing gran idx test
      match row with
      | some _ => return .inr true
      | none =>
          let next ← perform (.loadCell (.next k idx))
          return .inl next

/-- `true` is FM_ERR_DUP_KEY. -/
def fmCoreDupCheck (D : ShareDef n) (gran : Gran) (k b : Nat) (rec : Rec n) :
    CoreProg n Bool :=
  let kc := D.keydef k
  if dupChecked kc rec then do
    let head ← perform (.loadCell (.head k b))
    iterate head (dupRound gran k fun scratch => kc.ops.cmpRecRec scratch rec = 0)
  else
    return false

/-- Link the slot into the chain of each key in turn, up to the first key on which the
record is a duplicate. -/
def insertLinkKeys (D : ShareDef n) (gran : Gran) (rec : Rec n) (idx : Nat) :
    List Nat → CoreProg n (Option Nat)
  | [] => return none
  | k :: rest => do
      let b := fmCoreKeyBucket (D.keydef k) rec
      perform (.lock (.bucket k b))
      let dup ← fmCoreDupCheck D gran k b rec
      if dup then
        perform (.unlock (.bucket k b))
        return some k
      else
        fmCoreChainLink k b idx
        perform (.unlock (.bucket k b))
        insertLinkKeys D gran rec idx rest

/-- `while (k-- > 0)` over the keys linked so far. The loop variable is unsigned and is
returned as the loop leaves it. -/
def insertRollback (D : ShareDef n) (rec : Rec n) (idx : Nat) : Nat → CoreProg n UInt32
  | 0 => return 0 - 1
  | k + 1 => do
      let b := fmCoreKeyBucket (D.keydef k) rec
      perform (.lock (.bucket k b))
      let _ ← fmCoreChainUnlink k b idx
      perform (.unlock (.bucket k b))
      insertRollback D rec idx k

/-- The exit of an insert that found a duplicate on key `k`. -/
def insertRefuse (D : ShareDef n) (rec : Rec n) (idx k : Nat) :
    CoreProg n (Except Err Nat) := do
  let left ← insertRollback D rec idx k
  fmCoreFreeSlot idx
  perform (.unlock .structMutex)
  return .error (.dupKey (left.toInt32.toInt + 1))

/-- The exit of an insert whose slot is linked under every key. -/
def insertPublish (idx : Nat) : CoreProg n (Except Err Nat) := do
  perform (.storeState idx .active)
  perform (.addRecords 1)
  perform (.unlock .structMutex)
  return .ok idx

def fmCoreInsertRow (D : ShareDef n) (gran : Gran) (rec : Rec n) :
    CoreProg n (Except Err Nat) := do
  perform (.lock .structMutex)
  let slot ← fmCoreAllocSlot D
  match slot with
  | none => do
      perform (.unlock .structMutex)
      let cnt ← perform .loadChunkCnt
      return .error (if D.chunkCap ≤ cnt then .full else .nomem)
  | some idx => do
      memcpyIn gran idx rec
      let dup ← insertLinkKeys D gran rec idx (List.range D.keys)
      match dup with
      | some k => insertRefuse D rec idx k
      | none => insertPublish idx

/-! ### Update -/

def fmCoreWriteImage (gran : Gran) (idx : Nat) (rec : Rec n) : CoreProg n Unit := do
  perform (.bumpSeq idx)
  memcpyIn gran idx rec
  perform (.bumpSeq idx)

def changedKeys (D : ShareDef n) (old new : Rec n) : List Nat :=
  ((List.range D.keys).filter fun k =>
    (D.keydef k).ops.cmpRecRec old new ≠ 0).take fmMaxChangedKeys

/-- The (key, bucket) pairs of the changed keys in collection order: new bucket, then old,
each only if the pair was not collected for an earlier key. -/
def collectLockset (D : ShareDef n) (old new : Rec n) (changed : List Nat) :
    List (Nat × Nat) :=
  changed.foldl (fun lockset k =>
    let bnew := fmCoreKeyBucket (D.keydef k) new
    let bold := fmCoreKeyBucket (D.keydef k) old
    lockset ++ (if (k, bnew) ∈ lockset then [] else [(k, bnew)]) ++
      (if (k, bold) ∈ lockset then [] else [(k, bold)])) []

/-- `((fm_u64) key << 32) | b`. -/
def lockRank (pair : Nat × Nat) : Nat := pair.1 <<< 32 ||| pair.2

def sortLockset (lockset : List (Nat × Nat)) : List (Nat × Nat) :=
  lockset.insertionSort fun p q => lockRank p ≤ lockRank q

/-- The entries that differ from the entry before them: only these are locked and
unlocked. -/
def firstEntries : List (Nat × Nat) → List (Nat × Nat)
  | [] => []
  | [pair] => [pair]
  | pair :: again :: rest =>
      if pair = again then firstEntries (again :: rest)
      else pair :: firstEntries (again :: rest)

def lockset (D : ShareDef n) (old new : Rec n) (changed : List Nat) : List (Nat × Nat) :=
  firstEntries (sortLockset (collectLockset D old new changed))

def lockBuckets (pairs : List (Nat × Nat)) : CoreProg n Unit :=
  forEach pairs fun pair => perform (.lock (.bucket pair.1 pair.2))

/-- In reverse order of acquisition. -/
def unlockBuckets (pairs : List (Nat × Nat)) : CoreProg n Unit :=
  forEach pairs.reverse fun pair => perform (.unlock (.bucket pair.1 pair.2))

def dupCheckChanged (D : ShareDef n) (gran : Gran) (new : Rec n) :
    List Nat → CoreProg n (Option Nat)
  | [] => return none
  | k :: rest => do
      let dup ← fmCoreDupCheck D gran k (fmCoreKeyBucket (D.keydef k) new) new
      if dup then
        return some k
      else
        dupCheckChanged D gran new rest

def relinkChanged (D : ShareDef n) (old new : Rec n) (idx : Nat) (changed : List Nat) :
    CoreProg n Unit :=
  forEach changed fun k => do
    let _ ← fmCoreChainUnlink k (fmCoreKeyBucket (D.keydef k) old) idx
    fmCoreChainLink k (fmCoreKeyBucket (D.keydef k) new) idx

def fmCoreUpdateRow (D : ShareDef n) (gran : Gran) (idx : Nat) (expectGen : UInt32)
    (old new : Rec n) : CoreProg n (Except Err Unit) := do
  let changed := changedKeys D old new
  if changed = [] then
    perform (.lock (.wlock idx))
    let stale ← slotStale idx expectGen
    if stale then
      perform (.unlock (.wlock idx))
      return .error .deleted
    else
      fmCoreWriteImage gran idx new
      perform (.unlock (.wlock idx))
      return .ok ()
  else
    let pairs := lockset D old new changed
    lockBuckets pairs
    let dup ← dupCheckChanged D gran new changed
    match dup with
    | some k => do
        unlockBuckets pairs
        return .error (.dupKey (k + 1))
    | none => do
        perform (.lock (.wlock idx))
        let stale ← slotStale idx expectGen
        if stale then
          perform (.unlock (.wlock idx))
          unlockBuckets pairs
          return .error .deleted
        else
          fmCoreWriteImage gran idx new
          relinkChanged D old new idx changed
          perform (.unlock (.wlock idx))
          unlockBuckets pairs
          return .ok ()

/-- The caller holds the slot's wlock and keeps it. -/
def fmCoreUpdateRowLocked (D : ShareDef n) (gran : Gran) (idx : Nat) (expectGen : UInt32)
    (old new : Rec n) : CoreProg n (Except Err Unit) := do
  let stale ← slotStale idx expectGen
  if stale then
    return .error .deleted
  else
    let changed := changedKeys D old new
    if changed = [] then
      fmCoreWriteImage gran idx new
      return .ok ()
    else
      let pairs := lockset D old new changed
      lockBuckets pairs
      let dup ← dupCheckChanged D gran new changed
      match dup with
      | some k => do
          unlockBuckets pairs
          return .error (.dupKey (k + 1))
      | none => do
          fmCoreWriteImage gran idx new
          relinkChanged D old new idx changed
          unlockBuckets pairs
          return .ok ()

/-! ### Delete -/

/-- Everything after the flip to DELETING, the same in both delete functions. -/
def deleteTail (D : ShareDef n) (gran : Gran) (idx : Nat) : CoreProg n (Except Err Unit) := do
  let scratch ← memcpyOut gran idx
  forEach (List.range D.keys) fun k => do
    let b := fmCoreKeyBucket (D.keydef k) scratch
    perform (.lock (.bucket k b))
    let _ ← fmCoreChainUnlink k b idx
    perform (.unlock (.bucket k b))
  perform (.storeState idx .deleted)
  perform (.bumpGen idx)
  perform (.addRecords (-1))
  perform (.lock .structMutex)
  fmCoreFreeSlot idx
  perform (.unlock .structMutex)
  return .ok ()

def fmCoreDeleteRow (D : ShareDef n) (gran : Gran) (idx : Nat) (expectGen : UInt32) :
    CoreProg n (Except Err Unit) := do
  perform (.lock (.wlock idx))
  let stale ← slotStale idx expectGen
  if stale then
    perform (.unlock (.wlock idx))
    return .error .deleted
  else
    perform (.storeState idx .deleting)
    perform (.unlock (.wlock idx))
    deleteTail D gran idx

/-- The caller holds the slot's wlock and keeps it. -/
def fmCoreDeleteRowLocked (D : ShareDef n) (gran : Gran) (idx : Nat) (expectGen : UInt32) :
    CoreProg n (Except Err Unit) := do
  let stale ← slotStale idx expectGen
  if stale then
    return .error .deleted
  else
    perform (.storeState idx .deleting)
    deleteTail D gran idx

/-! ### Clear -/

def clearBuckets (D : ShareDef n) : CoreProg n Unit :=
  forEach (List.range D.keys) fun k =>
    forEach (List.range (D.keydef k).nbuckets) fun b => do
      perform (.lock (.bucket k b))
      perform (.storeCell (.head k b) none)
      perform (.unlock (.bucket k b))

def clearSlots (total : Nat) : CoreProg n Unit :=
  forEach (List.range total) fun i => do
    perform (.lock (.wlock i))
    perform (.storeState i .free)
    perform (.bumpGen i)
    perform (.unlock (.wlock i))

def fmCoreClear (D : ShareDef n) : CoreProg n Unit := do
  perform (.lock .structMutex)
  clearBuckets D
  let cnt ← perform .loadChunkCnt
  let total := cnt * fmChunkSize
  clearSlots total
  perform (.storeCell .freeHead none)
  forEach (List.range total) fmCoreFreeSlot
  perform (.storeRecords 0)
  perform (.unlock .structMutex)

end Fastmem
