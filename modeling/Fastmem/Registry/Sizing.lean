/-
The numbers of a table (fm_create.cc, fm_core.h).

The row limit starts as a ulonglong divided by the bytes of a row. It passes
through a ulong into the fm_u32 of the core, which counts slots in fm_u32 and
names them in fm_i32; no function checks a range. A limit of up to 2^31 rows
comes through, and then the slot numbers of the core are the natural numbers of
a ledger.
-/

import Fastmem.Core.SlotLedger

set_option autoImplicit false

namespace Fastmem

/-! ### fm_prepare_create_info, fm_create, fm_core_init_share -/

/-- `(sizeof(FM_SLOT) + 7u) & ~7u`; an FM_SLOT has 16 bytes. -/
def fmSlotDataOffset : UInt32 := 16

def fmAlign8 (x : UInt32) : UInt32 := (x + 7) &&& ~~~7

/-- What the limits of a new table depend on. -/
structure TableRequest where
  maxHeapTableSize : UInt64
  reclength : UInt32
  keys : UInt32
  maxRows : UInt64
  reclength_le : reclength.toNat ≤ 65535
  keys_le : keys.toNat ≤ 64

/-- A size_t. -/
def TableRequest.memPerRow (q : TableRequest) : UInt64 :=
  (fmAlign8 (fmSlotDataOffset + q.reclength)).toUInt64 + (q.keys * 4).toUInt64 + 16

/-- `max_records` of fm_prepare_create_info, a ulong of 64 bits. -/
def fmPrepareMaxRecords (q : TableRequest) : UInt64 :=
  let maxTableSize := if 8 < q.maxHeapTableSize then q.maxHeapTableSize else 8
  let maxRecords := maxTableSize / (if q.memPerRow ≠ 0 then q.memPerRow else 1)
  let maxRecords := if q.maxRows ≠ 0 ∧ q.maxRows < maxRecords then q.maxRows else maxRecords
  if maxRecords = 0 then 1 else maxRecords

/-- `while (nbuckets < max_records / 4 && nbuckets < (1UL << 20)) nbuckets<<= 1`, for at most
this many rounds. -/
def doubleBuckets (maxRecords : UInt64) : Nat → UInt64 → UInt64
  | 0, nbuckets => nbuckets
  | rounds + 1, nbuckets =>
      if nbuckets < maxRecords / 4 ∧ nbuckets < (1 : UInt64) <<< 20 then
        doubleBuckets maxRecords rounds (nbuckets <<< 1)
      else nbuckets

/-- Ten rounds lead from 1024 to the upper bound. -/
def fmCreateBuckets (maxRecords : UInt64) : UInt64 := doubleBuckets maxRecords 10 1024

/-- The numbers in FM_SHARE_CORE; `nbuckets` is the same for each of its keys. -/
structure CoreSizes where
  reclength : UInt32
  keys : UInt32
  maxRecords : UInt32
  slotSize : UInt32
  chunkCap : UInt32
  nbuckets : UInt32
  deriving DecidableEq, Repr

/-- The assignments of fm_core_init_share. -/
def fmCoreInitSizes (reclength keys maxRecords nbuckets : UInt32) : CoreSizes :=
  let maxRecords := if maxRecords ≠ 0 then maxRecords else 1
  { reclength := reclength
    keys := keys
    maxRecords := maxRecords
    slotSize := fmAlign8 (fmSlotDataOffset + reclength)
    chunkCap := (maxRecords + 4096 - 1) / 4096
    nbuckets := if nbuckets ≠ 0 then nbuckets else 1024 }

/-- The call of fm_core_init_share in fm_create converts both numbers to fm_u32. -/
def fmCreateSizes (q : TableRequest) : CoreSizes :=
  let maxRecords := fmPrepareMaxRecords q
  fmCoreInitSizes q.reclength q.keys maxRecords.toUInt32 (fmCreateBuckets maxRecords).toUInt32

/-! ### Slot numbers in 32 bits -/

def fmCoreSlotCount (chunkCnt : UInt32) : UInt32 := chunkCnt <<< 12

/-- `(fm_i32) i` of a fm_u32. -/
def slotName (i : Nat) : Int32 := (UInt32.ofNat i).toInt32

/-- The freelist, first slot first, and `chunk_cnt`. -/
structure SlotPool where
  free : List Int32
  chunkCnt : UInt32
  deriving DecidableEq, Repr

namespace SlotPool

/-- fm_core_alloc_slot; `granted` is whether the memory of a new chunk is there. The loop
`for (i= end; i-- > total + 1; )` puts the slots on the freelist from the last to the first. -/
def allocSlot (sizes : CoreSizes) (granted : Bool) (pool : SlotPool) : Option Int32 × SlotPool :=
  match pool.free with
  | idx :: rest => (some idx, { pool with free := rest })
  | [] =>
      let total := pool.chunkCnt <<< 12
      if sizes.maxRecords ≤ total then (none, pool)
      else if total &&& 4095 = 0 then
        if sizes.chunkCap ≤ pool.chunkCnt ∨ granted = false then (none, pool)
        else
          let stop := if sizes.maxRecords < total + 4096 then sizes.maxRecords else total + 4096
          let fresh := List.range' (total + 1).toNat (stop.toNat - (total + 1).toNat)
          (some total.toInt32, ⟨fresh.map slotName, pool.chunkCnt + 1⟩)
      else (some total.toInt32, pool)

/-- fm_core_free_slot. -/
def freeSlot (pool : SlotPool) (idx : Int32) : SlotPool := { pool with free := idx :: pool.free }

/-- The freelist that fm_core_clear rebuilds. -/
def clear (pool : SlotPool) : SlotPool :=
  { pool with free := (List.range (fmCoreSlotCount pool.chunkCnt).toNat).reverse.map slotName }

end SlotPool

/-- Allocations, returns of slots that are out, and truncations, from the new share on. -/
inductive PoolRun (sizes : CoreSizes) : SlotPool → List Int32 → Prop
  | start : PoolRun sizes ⟨[], 0⟩ []
  | alloc {pool pool' : SlotPool} {out : List Int32} {granted : Bool} {idx : Int32}
      (before : PoolRun sizes pool out) (taken : pool.allocSlot sizes granted = (some idx, pool')) :
      PoolRun sizes pool' (idx :: out)
  | free {pool : SlotPool} {out : List Int32} {idx : Int32} (before : PoolRun sizes pool out)
      (isOut : idx ∈ out) : PoolRun sizes (pool.freeSlot idx) (out.erase idx)
  | clear {pool : SlotPool} {out : List Int32} (before : PoolRun sizes pool out) :
      PoolRun sizes pool.clear []

/-- The row limit comes to the core as it is, the chunks have room for it, the buckets are as
many as they should be, and no number of slots, slot or scan position wraps. -/
structure SizedExactly (q : TableRequest) : Prop where
  limit : (fmCreateSizes q).maxRecords.toNat = (fmPrepareMaxRecords q).toNat
  capacity : (fmPrepareMaxRecords q).toNat ≤ (fmCreateSizes q).chunkCap.toNat * 4096
  buckets : ∃ e, (fmCreateSizes q).nbuckets.toNat = 2 ^ e ∧ 2 ^ 10 ≤ 2 ^ e ∧ 2 ^ e ≤ 2 ^ 20 ∧
    min ((fmPrepareMaxRecords q).toNat / 4) (2 ^ 20) ≤ 2 ^ e
  slots : ∀ cnt : UInt32, cnt ≤ (fmCreateSizes q).chunkCap →
    (fmCoreSlotCount cnt).toNat = cnt.toNat * 4096
  indices : ∀ pool out, PoolRun (fmCreateSizes q) pool out → ∀ granted idx pool',
    pool.allocSlot (fmCreateSizes q) granted = (some idx, pool') →
      0 ≤ idx.toInt ∧ idx.toInt < pool'.chunkCnt.toNat * 4096
  positions : ∀ cnt : UInt32, cnt ≤ (fmCreateSizes q).chunkCap → ∀ pos, pos < fmCoreSlotCount cnt →
    (pos + 1).toNat = pos.toNat + 1 ∧ pos.toInt32.toInt = pos.toNat

/-! ### The row limit -/

section Limit

variable {q : TableRequest}

theorem and_align (y : UInt32) : (y &&& ~~~7).toNat = y.toNat / 8 * 8 := by
  have mask : (~~~7 : UInt32).toNat = (2 ^ 29 - 1) * 2 ^ 3 := by decide
  rw [UInt32.toNat_and, mask, show (8 : Nat) = 2 ^ 3 from rfl]
  apply Nat.eq_of_testBit_eq
  intro i
  rw [Nat.testBit_and, Nat.testBit_mul_two_pow, Nat.testBit_mul_two_pow, Nat.testBit_div_two_pow,
    Nat.testBit_two_pow_sub_one]
  by_cases low : 3 ≤ i
  · rw [Nat.sub_add_cancel low]
    by_cases high : i - 3 < 29
    · simp [low, high]
    · have beyond : y.toNat.testBit i = false :=
        Nat.testBit_lt_two_pow (Nat.lt_of_lt_of_le y.toNat_lt
          (Nat.pow_le_pow_right (by decide) (show 32 ≤ i by omega)))
      simp [beyond]
  · simp [low]

theorem fmAlign8_toNat {x : UInt32} (small : x.toNat < 2 ^ 32 - 7) :
    (fmAlign8 x).toNat = (x.toNat + 7) / 8 * 8 := by
  unfold fmAlign8
  rw [and_align, UInt32.toNat_add, Nat.mod_eq_of_lt]
  · rfl
  · change x.toNat + 7 < _
    omega

def TableRequest.rowBytes (q : TableRequest) : Nat :=
  (q.reclength.toNat + 23) / 8 * 8 + q.keys.toNat * 4 + 16

theorem memPerRow_toNat (q : TableRequest) : q.memPerRow.toNat = q.rowBytes := by
  have short := q.reclength_le
  have few := q.keys_le
  have offset : (fmSlotDataOffset + q.reclength).toNat = q.reclength.toNat + 16 := by
    rw [UInt32.toNat_add, Nat.mod_eq_of_lt]
    · exact Nat.add_comm ..
    · change 16 + q.reclength.toNat < _
      omega
  have aligned := fmAlign8_toNat (x := fmSlotDataOffset + q.reclength) (by omega)
  rw [offset] at aligned
  have links : (q.keys * 4).toNat = q.keys.toNat * 4 := by
    rw [UInt32.toNat_mul, Nat.mod_eq_of_lt]
    · rfl
    · change q.keys.toNat * 4 < _
      omega
  unfold TableRequest.memPerRow TableRequest.rowBytes
  simp only [UInt64.toNat_add, UInt32.toNat_toUInt64, aligned, links]
  change (((_ + _) % 2 ^ 64) + 16) % 2 ^ 64 = _
  omega

theorem fmPrepareMaxRecords_toNat (q : TableRequest) :
    (fmPrepareMaxRecords q).toNat =
      let allowed := max q.maxHeapTableSize.toNat 8 / q.rowBytes
      let wanted := if q.maxRows.toNat = 0 then allowed else min allowed q.maxRows.toNat
      max wanted 1 := by
  have positive : q.memPerRow ≠ 0 := by
    intro zero
    have bytes := memPerRow_toNat q
    rw [zero] at bytes
    unfold TableRequest.rowBytes at bytes
    change 0 = _ at bytes
    omega
  have size : (if 8 < q.maxHeapTableSize then q.maxHeapTableSize else 8).toNat =
      max q.maxHeapTableSize.toNat 8 := by
    split
    · rename_i more
      have above : 8 < q.maxHeapTableSize.toNat := more
      omega
    · rename_i less
      have below : ¬ 8 < q.maxHeapTableSize.toNat := less
      change 8 = _
      omega
  unfold fmPrepareMaxRecords
  rw [if_pos positive]
  dsimp only
  generalize isAllowed : (if 8 < q.maxHeapTableSize then q.maxHeapTableSize else 8) / q.memPerRow =
    allowed
  have quotient : allowed.toNat = max q.maxHeapTableSize.toNat 8 / q.rowBytes := by
    rw [← isAllowed, UInt64.toNat_div, size, memPerRow_toNat]
  rw [← quotient]
  have zero_iff : ∀ x : UInt64, x = 0 ↔ x.toNat = 0 := fun x => by
    rw [← UInt64.toNat_inj]
    rfl
  have less_iff : q.maxRows < allowed ↔ q.maxRows.toNat < allowed.toNat := UInt64.lt_iff_toNat_lt
  simp only [ne_eq, zero_iff, less_iff]
  by_cases clamped : ¬ q.maxRows.toNat = 0 ∧ q.maxRows.toNat < allowed.toNat
  · rw [if_pos clamped, if_neg clamped.1, if_neg clamped.1]
    omega
  · rw [if_neg clamped]
    by_cases none : allowed.toNat = 0
    · rw [if_pos none, none]
      change 1 = _
      split <;> omega
    · rw [if_neg none]
      split <;> omega

end Limit

/-! ### Buckets and chunks -/

theorem doubleBuckets_toNat (maxRecords : UInt64) {e rounds : Nat} {nbuckets : UInt64}
    (power : nbuckets.toNat = 2 ^ e) (lower : 10 ≤ e) (enough : e + rounds = 20) :
    ∃ e', (doubleBuckets maxRecords rounds nbuckets).toNat = 2 ^ e' ∧ 10 ≤ e' ∧ e' ≤ 20 ∧
      min (maxRecords.toNat / 4) (2 ^ 20) ≤ 2 ^ e' := by
  induction rounds generalizing e nbuckets with
  | zero =>
      obtain rfl : e = 20 := by omega
      exact ⟨20, power, by decide, by decide, Nat.min_le_right ..⟩
  | succ rounds ih =>
      have small : 2 ^ e ≤ 2 ^ 19 := Nat.pow_le_pow_right (by decide) (by omega)
      unfold doubleBuckets
      by_cases goesOn : nbuckets < maxRecords / 4 ∧ nbuckets < (1 : UInt64) <<< 20
      · rw [if_pos goesOn]
        have doubled : (nbuckets <<< 1).toNat = 2 ^ (e + 1) := by
          rw [UInt64.toNat_shiftLeft, power, Nat.pow_succ]
          change 2 ^ e <<< 1 % 2 ^ 64 = _
          rw [Nat.shiftLeft_eq]
          omega
        exact ih doubled (by omega) (by omega)
      · rw [if_neg goesOn]
        refine ⟨e, power, lower, by omega, ?_⟩
        have quarter : (maxRecords / 4).toNat = maxRecords.toNat / 4 := UInt64.toNat_div ..
        have below : nbuckets < (1 : UInt64) <<< 20 := by
          rw [UInt64.lt_iff_toNat_lt, power]
          change 2 ^ e < 2 ^ 20
          omega
        have reached : ¬ nbuckets.toNat < (maxRecords / 4).toNat := fun less =>
          goesOn ⟨UInt64.lt_iff_toNat_lt.mpr less, below⟩
        rw [quarter, power] at reached
        omega

theorem chunkCap_toNat {maxRecords : UInt32} (fits : maxRecords.toNat + 4095 < 2 ^ 32) :
    ((maxRecords + 4096 - 1) / 4096).toNat = (maxRecords.toNat + 4095) / 4096 := by
  rw [UInt32.toNat_div, UInt32.toNat_sub, UInt32.toNat_add]
  change (2 ^ 32 - 1 + (maxRecords.toNat + 4096) % 2 ^ 32) % 2 ^ 32 / 4096 = _
  omega

theorem chunkCap_wraps {maxRecords : UInt32} (wraps : 2 ^ 32 ≤ maxRecords.toNat + 4095) :
    ((maxRecords + 4096 - 1) / 4096).toNat = 0 := by
  have below := maxRecords.toNat_lt
  rw [UInt32.toNat_div, UInt32.toNat_sub, UInt32.toNat_add]
  change (2 ^ 32 - 1 + (maxRecords.toNat + 4096) % 2 ^ 32) % 2 ^ 32 / 4096 = _
  omega

theorem slotCount_toNat {cnt : UInt32} (few : cnt.toNat < 2 ^ 20) :
    (fmCoreSlotCount cnt).toNat = cnt.toNat * 4096 := by
  unfold fmCoreSlotCount
  rw [UInt32.toNat_shiftLeft]
  change cnt.toNat <<< 12 % 2 ^ 32 = _
  rw [Nat.shiftLeft_eq]
  omega

theorem toInt32_toInt {i : UInt32} (small : i.toNat < 2 ^ 31) : i.toInt32.toInt = i.toNat := by
  change i.toBitVec.toInt = _
  rw [BitVec.toInt_eq_toNat_of_lt]
  · rfl
  · change 2 * i.toNat < 2 ^ 32
    omega

theorem slotName_toInt {i : Nat} (small : i < 2 ^ 31) : (slotName i).toInt = i := by
  have same : (UInt32.ofNat i).toNat = i :=
    UInt32.toNat_ofNat_of_lt' (show i < 2 ^ 32 by omega)
  unfold slotName
  rw [toInt32_toInt (by omega), same]

/-! ### The slot numbers are those of a ledger -/

/-- The pool is the freelist of the ledger in 32 bits. -/
structure Names (pool : SlotPool) (L : Ledger) : Prop where
  total : L.total = pool.chunkCnt.toNat * 4096
  free : pool.free = L.free.map slotName
  inside : ∀ i ∈ L.free, i < L.total

structure CoreSizes.Roomy (sizes : CoreSizes) : Prop where
  limit : sizes.maxRecords.toNat ≤ 2 ^ 31
  chunks : sizes.chunkCap.toNat = (sizes.maxRecords.toNat + 4095) / 4096

section Pool

variable {sizes : CoreSizes} {pool pool' : SlotPool} {L : Ledger} {granted : Bool} {idx : Int32}

theorem Names.clear (names : Names pool L) (few : pool.chunkCnt.toNat < 2 ^ 20) :
    Names pool.clear L.reset := by
  obtain ⟨total, free, inside⟩ := names
  unfold SlotPool.clear Ledger.reset
  refine ⟨total, ?_, fun i member => List.mem_range.mp (List.mem_reverse.mp member)⟩
  dsimp only
  rw [slotCount_toNat few, total, List.map_reverse]

theorem Names.grow (names : Names pool L) {limit stop : UInt32}
    (next : (pool.chunkCnt + 1).toNat = pool.chunkCnt.toNat + 1)
    (first : (pool.chunkCnt <<< 12 + 1).toNat = L.total + 1)
    (last : stop.toNat = min (L.total + fmChunkSize) limit.toNat) :
    Names ⟨(List.range' (pool.chunkCnt <<< 12 + 1).toNat
      (stop.toNat - (pool.chunkCnt <<< 12 + 1).toNat)).map slotName, pool.chunkCnt + 1⟩
      (L.grow limit.toNat) := by
  have total := names.total
  unfold Ledger.grow
  refine ⟨?_, ?_, fun i member => ?_⟩
  · dsimp only
    rw [next, total]
    unfold fmChunkSize
    omega
  · rw [first, last]
  · obtain ⟨lower, upper⟩ := List.mem_range'_1.mp member
    dsimp only
    omega

/-- fm_core_alloc_slot hands out the slot that the ledger has next. -/
theorem allocSlot_ledger (roomy : sizes.Roomy) (names : Names pool L)
    (within : pool.chunkCnt ≤ sizes.chunkCap)
    (taken : pool.allocSlot sizes granted = (some idx, pool')) :
    ∃ i L', L.take sizes.maxRecords.toNat = some (i, L') ∧ idx = slotName i ∧ Names pool' L' ∧
      pool'.chunkCnt ≤ sizes.chunkCap ∧ i < L'.total ∧ L.total ≤ L'.total := by
  obtain ⟨limit, chunks⟩ := roomy
  have named := names
  obtain ⟨total, free, inside⟩ := names
  have few : pool.chunkCnt.toNat ≤ 2 ^ 19 := by
    have bound : pool.chunkCnt.toNat ≤ sizes.chunkCap.toNat := within
    omega
  have count : (pool.chunkCnt <<< 12).toNat = L.total := by
    rw [total]
    exact slotCount_toNat (by omega)
  unfold SlotPool.allocSlot at taken
  unfold Ledger.take
  cases listed : L.free with
  | cons i rest =>
      rw [listed, List.map_cons] at free
      rw [free] at taken
      cases taken
      have member : i ∈ L.free := listed ▸ List.mem_cons_self
      refine ⟨i, { L with free := rest }, rfl, rfl, ⟨total, rfl, fun j later => ?_⟩, within,
        inside i member, Nat.le_refl _⟩
      exact inside j (listed ▸ List.mem_cons_of_mem i later)
  | nil =>
      rw [listed, List.map_nil] at free
      rw [free] at taken
      dsimp only at taken
      by_cases full : sizes.maxRecords ≤ pool.chunkCnt <<< 12
      · rw [if_pos full] at taken
        cases taken
      have room : ¬ sizes.maxRecords.toNat ≤ L.total := by
        rw [← count]
        exact full
      -- the slots of the chunks before are a multiple of the chunk size
      have aligned : (pool.chunkCnt <<< 12) &&& 4095 = 0 := by
        apply UInt32.toNat_inj.mp
        rw [UInt32.toNat_and, count, total]
        change pool.chunkCnt.toNat * 4096 &&& (2 ^ 12 - 1) = 0
        rw [Nat.and_two_pow_sub_one_eq_mod]
        exact Nat.mul_mod_left ..
      rw [if_neg full, if_pos aligned] at taken
      by_cases refused : sizes.chunkCap ≤ pool.chunkCnt ∨ granted = false
      · rw [if_pos refused] at taken
        cases taken
      rw [if_neg refused] at taken
      have below : pool.chunkCnt.toNat < sizes.chunkCap.toNat :=
        UInt32.lt_iff_toNat_lt.mp (UInt32.not_le.mp fun less => refused (Or.inl less))
      have next : (pool.chunkCnt + 1).toNat = pool.chunkCnt.toNat + 1 := by
        rw [UInt32.toNat_add]
        change (pool.chunkCnt.toNat + 1) % 2 ^ 32 = _
        omega
      have first : (pool.chunkCnt <<< 12 + 1).toNat = L.total + 1 := by
        rw [UInt32.toNat_add, count]
        change (L.total + 1) % 2 ^ 32 = _
        omega
      have end_ : (pool.chunkCnt <<< 12 + 4096).toNat = L.total + fmChunkSize := by
        rw [UInt32.toNat_add, count]
        change (L.total + 4096) % 2 ^ 32 = L.total + 4096
        omega
      have stop : (if sizes.maxRecords < pool.chunkCnt <<< 12 + 4096 then sizes.maxRecords
          else pool.chunkCnt <<< 12 + 4096).toNat =
          min (L.total + fmChunkSize) sizes.maxRecords.toNat := by
        split
        · rename_i less
          have order := UInt32.lt_iff_toNat_lt.mp less
          rw [end_] at order
          omega
        · rename_i notLess
          have order : ¬ sizes.maxRecords.toNat < (pool.chunkCnt <<< 12 + 4096).toNat :=
            fun less => notLess (UInt32.lt_iff_toNat_lt.mpr less)
          rw [end_] at order ⊢
          omega
      cases taken
      refine ⟨L.total, L.grow sizes.maxRecords.toNat, if_neg room, ?_,
        named.grow next first stop, ?_, Nat.lt_add_of_pos_right (Nat.succ_pos _),
        Nat.le_add_right ..⟩
      · unfold slotName
        rw [← count, UInt32.ofNat_toNat]
      · apply UInt32.le_iff_toNat_le.mpr
        rw [next]
        exact below

theorem PoolRun.ledger (roomy : sizes.Roomy) {out : List Int32} (run : PoolRun sizes pool out) :
    ∃ L, Names pool L ∧ pool.chunkCnt ≤ sizes.chunkCap ∧
      ∀ idx ∈ out, ∃ i, idx = slotName i ∧ i < L.total := by
  induction run with
  | start =>
      refine ⟨⟨0, fun _ => false, [], 0⟩, ⟨rfl, rfl, fun i member => ?_⟩, UInt32.zero_le,
        fun idx member => ?_⟩
      · cases member
      · cases member
  | @alloc pool pool' out granted idx before taken ih =>
      obtain ⟨L, names, within, outside⟩ := ih
      obtain ⟨i, L', _, isName, names', within', below, grows⟩ :=
        allocSlot_ledger roomy names within taken
      refine ⟨L', names', within', fun other member => ?_⟩
      rcases List.mem_cons.mp member with rfl | earlier
      · exact ⟨i, isName, below⟩
      · obtain ⟨j, isName, smaller⟩ := outside other earlier
        exact ⟨j, isName, Nat.lt_of_lt_of_le smaller grows⟩
  | @free pool out idx before isOut ih =>
      obtain ⟨L, ⟨total, free, inside⟩, within, outside⟩ := ih
      obtain ⟨i, isName, below⟩ := outside idx isOut
      refine ⟨L.giveBack i, ⟨total, ?_, fun j member => ?_⟩, within, fun other member => ?_⟩
      · change idx :: pool.free = (i :: L.free).map slotName
        rw [isName, free, List.map_cons]
      · rcases List.mem_cons.mp member with rfl | later
        · exact below
        · exact inside j later
      · exact outside other (List.mem_of_mem_erase member)
  | @clear pool out before ih =>
      obtain ⟨L, ⟨total, free, inside⟩, within, outside⟩ := ih
      have few : pool.chunkCnt.toNat < 2 ^ 20 := by
        have bound : pool.chunkCnt.toNat ≤ sizes.chunkCap.toNat := within
        have limit := roomy.limit
        have chunks := roomy.chunks
        omega
      refine ⟨L.reset, Names.clear ⟨total, free, inside⟩ few, within, fun idx member => ?_⟩
      cases member

end Pool

/-! ### Which requests are sized exactly -/

/-- The memory has no room for more than 2^31 rows, or MAX_ROWS asks for at most that many. -/
def TableRequest.Fits (q : TableRequest) : Prop :=
  max q.maxHeapTableSize.toNat 8 < (2 ^ 31 + 1) * q.rowBytes ∨
    (0 < q.maxRows.toNat ∧ q.maxRows.toNat ≤ 2 ^ 31)

section Exact

variable {q : TableRequest}

theorem fits_iff (q : TableRequest) : q.Fits ↔ (fmPrepareMaxRecords q).toNat ≤ 2 ^ 31 := by
  have bytes : 0 < q.rowBytes := by
    unfold TableRequest.rowBytes
    omega
  unfold TableRequest.Fits
  rw [← Nat.div_lt_iff_lt_mul bytes, fmPrepareMaxRecords_toNat]
  dsimp only
  generalize max q.maxHeapTableSize.toNat 8 / q.rowBytes = allowed
  split <;> omega

theorem maxRecords_pos (q : TableRequest) : 0 < (fmPrepareMaxRecords q).toNat := by
  rw [fmPrepareMaxRecords_toNat]
  dsimp only
  omega

/-- A limit that fits into a fm_u32 is not changed. -/
theorem limit_kept (fits : (fmPrepareMaxRecords q).toNat < 2 ^ 32) :
    (fmCreateSizes q).maxRecords = (fmPrepareMaxRecords q).toUInt32 ∧
      (fmPrepareMaxRecords q).toUInt32.toNat = (fmPrepareMaxRecords q).toNat := by
  have same : (fmPrepareMaxRecords q).toUInt32.toNat = (fmPrepareMaxRecords q).toNat := by
    rw [UInt64.toNat_toUInt32]
    exact Nat.mod_eq_of_lt fits
  refine ⟨if_pos fun zero => ?_, same⟩
  have positive := maxRecords_pos q
  rw [zero] at same
  exact absurd same (Nat.ne_of_lt positive)

theorem buckets_exact (q : TableRequest) :
    ∃ e, (fmCreateSizes q).nbuckets.toNat = 2 ^ e ∧ 2 ^ 10 ≤ 2 ^ e ∧ 2 ^ e ≤ 2 ^ 20 ∧
      min ((fmPrepareMaxRecords q).toNat / 4) (2 ^ 20) ≤ 2 ^ e := by
  have doubled : ∃ e, (doubleBuckets (fmPrepareMaxRecords q) 10 1024).toNat = 2 ^ e ∧ 10 ≤ e ∧
      e ≤ 20 ∧ min ((fmPrepareMaxRecords q).toNat / 4) (2 ^ 20) ≤ 2 ^ e :=
    doubleBuckets_toNat (fmPrepareMaxRecords q) (e := 10) rfl (by decide) rfl
  obtain ⟨e, power, lower, upper, target⟩ := doubled
  have least : 2 ^ 10 ≤ 2 ^ e := Nat.pow_le_pow_right (by decide) lower
  have most : 2 ^ e ≤ 2 ^ 20 := Nat.pow_le_pow_right (by decide) upper
  refine ⟨e, ?_, least, most, target⟩
  have narrow : (fmCreateBuckets (fmPrepareMaxRecords q)).toUInt32.toNat = 2 ^ e := by
    rw [UInt64.toNat_toUInt32]
    change (doubleBuckets _ _ _).toNat % _ = _
    rw [power]
    omega
  have nonzero : (fmCreateBuckets (fmPrepareMaxRecords q)).toUInt32 ≠ 0 := by
    intro zero
    rw [zero] at narrow
    change 0 = 2 ^ e at narrow
    omega
  have isBuckets : (fmCreateSizes q).nbuckets = (fmCreateBuckets (fmPrepareMaxRecords q)).toUInt32 :=
    if_pos nonzero
  rw [isBuckets]
  exact narrow

theorem chunkCap_eq (q : TableRequest) : (fmCreateSizes q).chunkCap =
    ((fmCreateSizes q).maxRecords + 4096 - 1) / 4096 := rfl

theorem sizes_roomy (fits : (fmPrepareMaxRecords q).toNat ≤ 2 ^ 31) : (fmCreateSizes q).Roomy := by
  obtain ⟨kept, same⟩ := limit_kept (q := q) (by omega)
  constructor
  · rw [kept, same]
    exact fits
  · rw [chunkCap_eq]
    apply chunkCap_toNat
    rw [kept, same]
    omega

theorem sized_of_fits (fits : (fmPrepareMaxRecords q).toNat ≤ 2 ^ 31) : SizedExactly q := by
  have roomy := sizes_roomy fits
  have limit := roomy.limit
  have chunks := roomy.chunks
  obtain ⟨kept, same⟩ := limit_kept (q := q) (by omega)
  have isLimit : (fmCreateSizes q).maxRecords.toNat = (fmPrepareMaxRecords q).toNat := by
    rw [kept, same]
  have few : ∀ cnt : UInt32, cnt ≤ (fmCreateSizes q).chunkCap → cnt.toNat ≤ 2 ^ 19 := by
    intro cnt within
    have bound : cnt.toNat ≤ (fmCreateSizes q).chunkCap.toNat := within
    omega
  refine ⟨isLimit, by omega, buckets_exact q, ?_, ?_, ?_⟩
  · intro cnt within
    have small := few cnt within
    exact slotCount_toNat (by omega)
  · intro pool out run granted idx pool' taken
    obtain ⟨L, names, within, _⟩ := run.ledger roomy
    obtain ⟨i, L', _, isName, names', within', below, _⟩ :=
      allocSlot_ledger roomy names within taken
    have small := few pool'.chunkCnt within'
    have total := names'.total
    rw [isName, slotName_toInt (by omega)]
    constructor <;> omega
  · intro cnt within pos below
    have small := few cnt within
    have position : pos.toNat < (fmCoreSlotCount cnt).toNat := below
    rw [slotCount_toNat (by omega)] at position
    refine ⟨?_, toInt32_toInt (by omega)⟩
    rw [UInt32.toNat_add]
    change (pos.toNat + 1) % 2 ^ 32 = _
    omega

/-- Above 2^31 rows the limit is cut to 32 bits, or the chunks to none, or the scan comes to a
slot with a negative number. -/
theorem fits_of_sized (sized : SizedExactly q) : (fmPrepareMaxRecords q).toNat ≤ 2 ^ 31 := by
  by_contra large
  have limit := sized.limit
  have capacity := sized.capacity
  have cap := (fmCreateSizes q).maxRecords.toNat_lt
  rw [chunkCap_eq] at capacity
  by_cases wraps : 2 ^ 32 ≤ (fmCreateSizes q).maxRecords.toNat + 4095
  · rw [chunkCap_wraps wraps] at capacity
    omega
  rw [chunkCap_toNat (by omega)] at capacity
  have within : (524289 : UInt32) ≤ (fmCreateSizes q).chunkCap := by
    apply UInt32.le_iff_toNat_le.mpr
    rw [chunkCap_eq, chunkCap_toNat (by omega)]
    change 524289 ≤ _
    omega
  have negative := (sized.positions 524289 within 2147483648 (by decide)).2
  exact absurd negative (by decide)

end Exact

/-- The sizes of a table are exact if and only if its limit is at most 2^31 rows. -/
theorem sizedExactly_iff (q : TableRequest) : SizedExactly q ↔ q.Fits :=
  ⟨fun sized => (fits_iff q).mpr (fits_of_sized sized),
    fun fits => sized_of_fits ((fits_iff q).mp fits)⟩

theorem eightBytes_le : (8 : UInt32).toNat ≤ 65535 := by decide

theorem noKeys_le : (0 : UInt32).toNat ≤ 64 := by decide

def terabyteTable : TableRequest := ⟨1099511627776, 8, 0, 0, eightBytes_le, noKeys_le⟩

/-- The limit of 27487790694 rows comes to the core as 1717986918. -/
theorem sizedExactly_terabyteTable : (fmPrepareMaxRecords terabyteTable).toNat = 27487790694 ∧
    (fmCreateSizes terabyteTable).maxRecords.toNat = 1717986918 ∧
    ¬ SizedExactly terabyteTable := by
  have limit : (fmPrepareMaxRecords terabyteTable).toNat = 27487790694 := by decide
  refine ⟨limit, by decide, fun sized => ?_⟩
  have small := fits_of_sized sized
  rw [limit] at small
  exact absurd small (by decide)

end Fastmem
