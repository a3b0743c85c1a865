/-
Who owns what while calls of any number of threads are under way.

Slot locks, bucket locks and the struct mutex have owners; beyond that a slot
can belong to one thread that is inserting, updating or deleting it, whatever
locks that thread holds at the moment. The ghost value of a thread records what
it holds and what it is doing to its slot; `CoreInv` relates the ghost values of
all threads to the share.

The part about chains assumes callers that pass current images and copies that
are not torn; it is switched off by `Setting.linked` where a result does not
need it, and so is uniqueness by `Setting.distinct`.
-/

import Fastmem.Core.LockOrder
import Fastmem.Core.SerialInsert
import Mathlib.Data.Set.Card

set_option autoImplicit false

namespace Fastmem

variable {n : Nat}

structure Setting (n : Nat) where
  D : ShareDef n
  gran : Gran
  linked : Prop
  distinct : Prop
  whole : linked → gran = .whole
  hashes : linked → HashesAgree D
  distinct_linked : distinct → linked
  equivalent : distinct → KeysEquivalent D

/-! ### Ghost values -/

/-- What a thread is doing to its slot. `place` gives the bucket in which the slot is
chained under each key. -/
inductive Role (n : Nat)
  | idle
  /-- Seen ACTIVE under the slot lock. -/
  | live (idx : Nat)
  /-- Allocated, the image not copied yet. -/
  | fresh (idx : Nat)
  | chaining (idx : Nat) (rec : Rec n) (place : Nat → Option Nat)
  /-- A row is ACTIVE and not counted yet. -/
  | published
  | writer (idx : Nat) (old new : Rec n) (odd copied : Bool)
  /-- The new image is written, the chains follow. -/
  | mover (idx : Nat) (old new : Rec n) (place : Nat → Option Nat)
  | deleter (idx : Nat) (img : Rec n) (place : Nat → Option Nat)
  | retired (idx : Nat) (counted : Bool)
  | clearer (cleared : Nat) (emptied : Nat → Nat → Bool)

/-- What the holder of the struct mutex knows. -/
structure MutexView where
  free : List Nat
  count : Nat
  /-- Slots that belong to nobody and are not on the freelist. -/
  spare : Nat → Prop
  /-- The freelist link of this slot holds the head already. -/
  ready : Option Nat

structure Ghost (n : Nat) where
  slots : Nat → Bool
  known : Nat → Nat → Option (List Nat)
  mutex : Option MutexView
  role : Role n
  /-- The chain link of the own slot under this key holds the head of this bucket. -/
  ready : Option (Nat × Nat)
  seen : Nat
  /-- Keys found free of duplicates of a record, leaving one slot out. -/
  clean : Nat → Option (Rec n × Nat)
  /-- The duplicate check under way: key, record, slot left out, slots passed. -/
  passed : Option (Nat × Rec n × Nat × List Nat)

def Ghost.holds (ghost : Ghost n) : Lock → Prop
  | .wlock idx => ghost.slots idx = true
  | .bucket k b => (ghost.known k b).isSome = true
  | .structMutex => ghost.mutex.isSome = true

/-- A thread between two calls; it may hold slot locks. -/
def Ghost.rest (slots : Nat → Bool) (seen : Nat) : Ghost n where
  slots := slots
  known _ _ := none
  mutex := none
  role := .idle
  ready := none
  seen := seen
  clean _ := none
  passed := none

def Role.slot : Role n → Option Nat
  | .live idx | .fresh idx | .chaining idx _ _ | .writer idx _ _ _ _ | .mover idx _ _ _
  | .deleter idx _ _ | .retired idx _ => some idx
  | .idle | .published | .clearer _ _ => none

def homeOf (D : ShareDef n) (rec : Rec n) (k : Nat) : Option Nat :=
  if k < D.keys then some (fmCoreKeyBucket (D.keydef k) rec) else none

def Slot.home (D : ShareDef n) (slot : Slot n) (k : Nat) : Option Nat :=
  if slot.state = .active then homeOf D slot.data k else none

def Role.place (D : ShareDef n) : Role n → Option (Nat × (Nat → Option Nat))
  | .fresh idx | .retired idx _ => some (idx, fun _ => none)
  | .chaining idx _ place | .mover idx _ _ place | .deleter idx _ place => some (idx, place)
  | .writer idx old _ _ _ => some (idx, homeOf D old)
  | .idle | .live _ | .published | .clearer _ _ => none

def SlotState.unused (state : SlotState) : Prop := state = .free ∨ state = .deleted

/-! ### The invariant -/

/-- What a role says about the share and about the locks its thread holds. -/
def RoleOk (S : Setting n) (slot : Nat → Slot n) (ghost : Ghost n) : Prop :=
  let bucket k rec := fmCoreKeyBucket (S.D.keydef k) rec
  match ghost.role with
  | .idle => True
  | .live idx => (slot idx).state = .active ∧ ghost.slots idx = true
  | .fresh idx => (slot idx).state.unused ∧ ghost.mutex.isSome = true
  | .chaining idx rec place => (slot idx).state.unused ∧ ghost.mutex.isSome = true ∧
      (S.linked → (slot idx).data = rec ∧
        ∀ k b, place k = some b → k < S.D.keys ∧ b = bucket k rec)
  | .published => ghost.mutex.isSome = true
  | .writer idx old new odd copied => (slot idx).state = .active ∧ ghost.slots idx = true ∧
      (S.linked → (slot idx).data = (if copied = true then new else old) ∧
        (odd = false → copied = false) ∧
        (odd = true → ∀ k ∈ changedKeys S.D old new,
          (ghost.known k (bucket k old)).isSome = true ∧
          (ghost.known k (bucket k new)).isSome = true))
  | .mover idx old new place => (slot idx).state = .active ∧ ghost.slots idx = true ∧
      (S.linked → (slot idx).data = new ∧
        (∀ k b, place k = some b → k < S.D.keys ∧ (b = bucket k new ∨ b = bucket k old)) ∧
        ∀ k, k < S.D.keys → place k = some (bucket k new) ∨
          ((ghost.known k (bucket k old)).isSome = true ∧
            (ghost.known k (bucket k new)).isSome = true))
  | .deleter idx img place => (slot idx).state = .deleting ∧
      (S.linked → (slot idx).data = img ∧
        ∀ k b, place k = some b → k < S.D.keys ∧ b = bucket k img)
  | .retired idx _ => (slot idx).state = .deleted
  | .clearer cleared _ => ghost.mutex.isSome = true ∧
      ∀ i, i < cleared → (slot i).state.unused

section RoleOk

variable {S : Setting n} {slot : Nat → Slot n} {ghost : Ghost n} {idx : Nat}

theorem SlotState.unused.not_active {state : SlotState} (unused : state.unused) :
    state ≠ .active := by
  rintro rfl
  rcases unused with clash | clash <;> cases clash

theorem SlotState.unused.not_deleting {state : SlotState} (unused : state.unused) :
    state ≠ .deleting := by
  rintro rfl
  rcases unused with clash | clash <;> cases clash

namespace RoleOk

theorem live (ok : RoleOk S slot ghost) (role : ghost.role = .live idx) :
    (slot idx).state = .active ∧ ghost.slots idx = true := by
  unfold RoleOk at ok
  rw [role] at ok
  exact ok

theorem fresh (ok : RoleOk S slot ghost) (role : ghost.role = .fresh idx) :
    (slot idx).state.unused ∧ ghost.mutex.isSome = true := by
  unfold RoleOk at ok
  rw [role] at ok
  exact ok

theorem chaining (ok : RoleOk S slot ghost) {rec : Rec n} {place : Nat → Option Nat}
    (role : ghost.role = .chaining idx rec place) :
    (slot idx).state.unused ∧ ghost.mutex.isSome = true ∧
      (S.linked → (slot idx).data = rec ∧
        ∀ k b, place k = some b → k < S.D.keys ∧ b = fmCoreKeyBucket (S.D.keydef k) rec) := by
  unfold RoleOk at ok
  rw [role] at ok
  exact ok

theorem published (ok : RoleOk S slot ghost) (role : ghost.role = .published) :
    ghost.mutex.isSome = true := by
  unfold RoleOk at ok
  rw [role] at ok
  exact ok

theorem writer (ok : RoleOk S slot ghost) {old new : Rec n} {odd copied : Bool}
    (role : ghost.role = .writer idx old new odd copied) :
    (slot idx).state = .active ∧ ghost.slots idx = true ∧
      (S.linked → (slot idx).data = (if copied = true then new else old) ∧
        (odd = false → copied = false) ∧
        (odd = true → ∀ k ∈ changedKeys S.D old new,
          (ghost.known k (fmCoreKeyBucket (S.D.keydef k) old)).isSome = true ∧
          (ghost.known k (fmCoreKeyBucket (S.D.keydef k) new)).isSome = true)) := by
  unfold RoleOk at ok
  rw [role] at ok
  exact ok

theorem mover (ok : RoleOk S slot ghost) {old new : Rec n} {place : Nat → Option Nat}
    (role : ghost.role = .mover idx old new place) :
    (slot idx).state = .active ∧ ghost.slots idx = true ∧
      (S.linked → (slot idx).data = new ∧
        (∀ k b, place k = some b → k < S.D.keys ∧
          (b = fmCoreKeyBucket (S.D.keydef k) new ∨ b = fmCoreKeyBucket (S.D.keydef k) old)) ∧
        ∀ k, k < S.D.keys → place k = some (fmCoreKeyBucket (S.D.keydef k) new) ∨
          ((ghost.known k (fmCoreKeyBucket (S.D.keydef k) old)).isSome = true ∧
            (ghost.known k (fmCoreKeyBucket (S.D.keydef k) new)).isSome = true)) := by
  unfold RoleOk at ok
  rw [role] at ok
  exact ok

theorem deleter (ok : RoleOk S slot ghost) {img : Rec n} {place : Nat → Option Nat}
    (role : ghost.role = .deleter idx img place) :
    (slot idx).state = .deleting ∧
      (S.linked → (slot idx).data = img ∧
        ∀ k b, place k = some b → k < S.D.keys ∧ b = fmCoreKeyBucket (S.D.keydef k) img) := by
  unfold RoleOk at ok
  rw [role] at ok
  exact ok

theorem retired (ok : RoleOk S slot ghost) {counted : Bool}
    (role : ghost.role = .retired idx counted) : (slot idx).state = .deleted := by
  unfold RoleOk at ok
  rw [role] at ok
  exact ok

theorem clearer (ok : RoleOk S slot ghost) {cleared : Nat} {emptied : Nat → Nat → Bool}
    (role : ghost.role = .clearer cleared emptied) :
    ghost.mutex.isSome = true ∧ ∀ i, i < cleared → (slot i).state.unused := by
  unfold RoleOk at ok
  rw [role] at ok
  exact ok

end RoleOk

end RoleOk

structure LockInv (owner : Lock → Option Nat) (count : Nat) (g : Nat → Ghost n) : Prop where
  tie : ∀ l t, owner l = some t ↔ (g t).holds l
  below : ∀ t idx, (g t).slots idx = true → idx < count
  seen : ∀ t, (g t).seen ≤ count

def rolesOf (g : Nat → Ghost n) : Nat → Role n := fun t => (g t).role

structure RoleInv (slot : Nat → Slot n) (count : Nat) (roles : Nat → Role n) : Prop where
  exclusive : ∀ t u idx, (roles t).slot = some idx → (roles u).slot = some idx → t = u
  below : ∀ t idx, (roles t).slot = some idx → idx < count
  deleting : ∀ idx, (slot idx).state = .deleting →
    ∃ t img place, roles t = .deleter idx img place
  parity : ∀ idx, (slot idx).seq % 2 = 1 ↔
    ∃ t old new copied, roles t = .writer idx old new true copied
  active : ∀ idx, (slot idx).state = .active → idx < count
  unallocated : ∀ idx, count ≤ idx → (slot idx).state = .free
  clearing : ∀ t cleared emptied, roles t = .clearer cleared emptied → ∀ u idx,
    (∀ img place, roles u ≠ .deleter idx img place) ∧ ∀ counted, roles u ≠ .retired idx counted

def Spare (slot : Nat → Slot n) (count : Nat) (roles : Nat → Role n) (idx : Nat) : Prop :=
  idx < count ∧ (slot idx).state.unused ∧ ∀ t, (roles t).slot ≠ some idx

structure ViewOk (slot : Nat → Slot n) (chunkCnt : Nat) (cell : Cell → Option Nat)
    (roles : Nat → Role n) (free : List Nat) (v : MutexView) : Prop where
  list : v.free = free
  count : v.count = chunkCnt
  spare : ∀ idx, v.spare idx → idx ∉ free ∧ Spare slot (chunkCnt * fmChunkSize) roles idx
  ready : ∀ idx, v.ready = some idx → cell (.freeNext idx) = cell .freeHead ∧ idx ∉ free

structure FreeInv (slot : Nat → Slot n) (chunkCnt : Nat) (cell : Cell → Option Nat)
    (roles : Nat → Role n) (free : List Nat) : Prop where
  freelist : FreeList cell free
  unused : ∀ idx ∈ free, Spare slot (chunkCnt * fmChunkSize) roles idx

def Emptied (roles : Nat → Role n) (k b : Nat) : Prop :=
  ∃ t cleared emptied, roles t = .clearer cleared emptied ∧ emptied k b = true

structure ChainInv (D : ShareDef n) (slot : Nat → Slot n) (cell : Cell → Option Nat)
    (roles : Nat → Role n) (chain : ChainLists) (place : Places) : Prop where
  chains : Chains cell chain
  members : ∀ k b idx, idx ∈ chain k b ↔ place k idx = some b ∧ ¬ Emptied roles k b
  owned : ∀ t idx p, (roles t).place D = some (idx, p) → ∀ k, place k idx = p k
  others : ∀ idx, (∀ t p, (roles t).place D ≠ some (idx, p)) → ∀ k,
    place k idx = (slot idx).home D k

/-- What the holder of bucket locks knows about the chains is so. -/
structure KnownOk (D : ShareDef n) (cell : Cell → Option Nat) (chain : ChainLists)
    (ghost : Ghost n) : Prop where
  known : ∀ k b items, ghost.known k b = some items → chain k b = items
  ready : ∀ k b, ghost.ready = some (k, b) → ghost.holds (.bucket k b) ∧
    ∃ idx p, ghost.role.place D = some (idx, p) ∧ p k = none ∧
      cell (.next k idx) = cell (.head k b)

def Counted (slot : Nat → Slot n) (roles : Nat → Role n) (idx : Nat) : Prop :=
  (slot idx).state = .active ∨ (∃ t img place, roles t = .deleter idx img place) ∨
    ∃ t, roles t = .retired idx false

open Classical in
noncomputable def uncounted (roles : Nat → Role n) : Int :=
  if ∃ t, roles t = .published then 1 else 0

def CountInv (slot : Nat → Slot n) (records : Int) (roles : Nat → Role n) : Prop :=
  (∀ t cleared emptied, roles t ≠ .clearer cleared emptied) →
    records + uncounted roles = ({idx | Counted slot roles idx}.ncard : Int)

/-- The slot takes up this record's value of the key: as a live row, or as a row being
inserted that is already chained under the key. -/
def Occupies (slot : Nat → Slot n) (roles : Nat → Role n) (idx k : Nat) (rec : Rec n) : Prop :=
  ((slot idx).state = .active ∧ (slot idx).data = rec) ∨
    ∃ t place, roles t = .chaining idx rec place ∧ place k ≠ none

structure UniqueInv (D : ShareDef n) (slot : Nat → Slot n) (roles : Nat → Role n) : Prop where
  unique : ∀ k, k < D.keys → ∀ i j a b, i ≠ j → Occupies slot roles i k a →
    Occupies slot roles j k b → dupChecked (D.keydef k) a = true →
    (D.keydef k).ops.cmpRecRec a b ≠ 0
  uncleared : ∀ t cleared emptied, roles t ≠ .clearer cleared emptied

/-- What a thread has found in its duplicate checks is still so. -/
structure CheckedOk (D : ShareDef n) (slot : Nat → Slot n) (roles : Nat → Role n)
    (ghost : Ghost n) : Prop where
  clean : ∀ k rec self, ghost.clean k = some (rec, self) →
    ghost.holds (.bucket k (fmCoreKeyBucket (D.keydef k) rec)) ∧
    (k < D.keys → dupChecked (D.keydef k) rec = true → ∀ j b, j ≠ self →
      Occupies slot roles j k b → (D.keydef k).ops.cmpRecRec b rec ≠ 0)
  passed : ∀ k rec self items, ghost.passed = some (k, rec, self, items) →
    ghost.holds (.bucket k (fmCoreKeyBucket (D.keydef k) rec)) ∧
    (k < D.keys → ∀ j ∈ items, j ≠ self → ∀ b, Occupies slot roles j k b →
      (D.keydef k).ops.cmpRecRec b rec ≠ 0)

structure CoreInv (S : Setting n) (s : Core n) (g : Nat → Ghost n) : Prop where
  locks : LockInv s.owner s.slotCount g
  roles : RoleInv s.slot s.slotCount (rolesOf g)
  ok : ∀ t, RoleOk S s.slot (g t)
  free : ∃ free, FreeInv s.slot s.chunkCnt s.cell (rolesOf g) free ∧
    ∀ t v, (g t).mutex = some v → ViewOk s.slot s.chunkCnt s.cell (rolesOf g) free v
  chains : S.linked → ∃ chain place, ChainInv S.D s.slot s.cell (rolesOf g) chain place ∧
    ∀ t, KnownOk S.D s.cell chain (g t)
  count : CountInv s.slot s.records (rolesOf g)
  unique : S.distinct → UniqueInv S.D s.slot (rolesOf g) ∧
    ∀ t, CheckedOk S.D s.slot (rolesOf g) (g t)

end Fastmem
