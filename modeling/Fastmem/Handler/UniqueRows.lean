/-
Looking a record up by a unique key (ha_fastmem::find_unique_row).

The record is packed into the key buffer and looked up like any key, so the
lookup finds an equal row whenever fm_make_key packs the record as it is read.
-/

import Fastmem.Handler.IndexScans
import Fastmem.Keys.MadeKeys

set_option autoImplicit false

namespace Fastmem

open Prog (perform iterate)
open Machine

variable {n : Nat} {t : Nat} {s : Core n} {T : TableShare n} {gran : Gran} {h : Handler}

/-- The key buffer after fm_make_key. -/
def Handler.makeKey (getRecBits : Bytes → Nat → Nat → UInt8) (h : Handler) (kd : FmKeydef)
    (record : Rec n) : PackedKey :=
  slice (fmMakeKey getRecBits kd h.lastkey.toBytes record.toBytes) 0 h.lastkey.length

def readUnique (getRecBits : Bytes → Nat → Nat → UInt8) (T : TableShare n) (gran : Gran)
    (record : Rec n) (uniqueIdx : Nat) (h : Handler) : CoreProg n (RowRes n × Handler) :=
  let kd := T.keydef uniqueIdx
  if kd.nosame = false then return (.missed .keyNotFound, h)
  else do
    let h := { h with lastkey := h.makeKey getRecBits kd record }
    match ← fmCoreFind T.core gran uniqueIdx h.lastkey with
    | .error _ => return (.missed .keyNotFound, h)
    | .ok (idx, scratch) =>
        let g ← perform (.loadGen idx)
        let h := { h with
          currentSlot := some idx
          currentGen := g
          lastinx := some uniqueIdx
          update := { HaState.none with aktiv := true } }
        rowRead gran .keyNotFound (.ok scratch) h

/-- Returns 0 with the row it found (`some`), or 1 for a row that is missed or gone. -/
def findUniqueRow (getRecBits : Bytes → Nat → Nat → UInt8) (T : TableShare n) (gran : Gran)
    (record : Rec n) (uniqueIdx : Nat) (h : Handler) : CoreProg n (Option (Rec n) × Handler) := do
  let (res, h) ← readUnique getRecBits T gran record uniqueIdx h
  return (res.returned.toOption, h)

def HasEqualRow (T : TableShare n) (s : Core n) (k : Nat) (record : Rec n) : Prop :=
  ∃ i g r, rows s i = some (g, r) ∧ (T.core.keydef k).ops.cmpRecRec r record = 0

def OneNullBit (kd : FmKeydef) : Prop :=
  ∀ seg ∈ kd.seg, ∀ byte : UInt8, byte &&& seg.nullBit = 0 ∨ byte &&& seg.nullBit = seg.nullBit

section

variable {getRecBits : Bytes → Nat → Nat → UInt8}

theorem fmRecKeyCmp_iff_images {kd : FmKeydef} (oneBit : OneNullBit kd) (left right : Bytes) :
    fmRecKeyCmp getRecBits kd left right = 0 ↔ ∀ seg ∈ kd.seg,
      (recImage getRecBits seg left).Same seg.charset (recImage getRecBits seg right) := by
  rw [fmRecKeyCmp_eq_zero]
  refine forall₂_congr fun seg member => and_iff_right_of_imp fun same nullable => ?_
  have null : recNull seg left ↔ recNull seg right :=
    recImage_eq_null.symm.trans (same.null_iff.trans recImage_eq_null)
  -- a bit that is set is the whole mask
  have masked : ∀ rec : Bytes, rec seg.nullPos &&& seg.nullBit =
      if recNull seg rec then seg.nullBit else 0 := by
    intro rec
    by_cases set : rec seg.nullPos &&& seg.nullBit = 0
    · rw [if_neg fun both => both.2 set, set]
    · rw [if_pos ⟨nullable, set⟩]
      exact (oneBit seg member (rec seg.nullPos)).resolve_left set
  rw [masked left, masked right]
  simp only [null]

theorem makeKey_holds {kd : FmKeydef} (room : kd.length ≤ h.lastkey.length) (record : Rec n) :
    slice (h.makeKey getRecBits kd record).toBytes 0
        (madeBytes getRecBits record.toBytes kd.seg).length =
      madeBytes getRecBits record.toBytes kd.seg := by
  have fits : (madeBytes getRecBits record.toBytes kd.seg).length ≤ h.lastkey.length := by
    refine Nat.le_trans (madeBytes_length_le record.toBytes kd.seg) ?_
    rw [← kd.length_eq]
    exact room
  refine Eq.trans (slice_congr fun i below => ?_) (fmMakeKey_holds kd h.lastkey.toBytes _)
  have inside : i < h.lastkey.length := Nat.lt_of_lt_of_le below fits
  unfold Handler.makeKey
  generalize fmMakeKey getRecBits kd h.lastkey.toBytes record.toBytes = m
  unfold PackedKey.toBytes slice
  simp [inside]

section

variable {k : Nat} {record : Rec n} (wired : WiredTo getRecBits T.core T.keydef)
  (valid : k < T.core.keys) (room : (T.keydef k).length ≤ h.lastkey.length)
  (made : KeyMade record.toBytes (T.keydef k).seg)

include wired valid room made

theorem cmpRecKey_made (oneBit : OneNullBit (T.keydef k)) (other : Rec n) :
    (T.core.keydef k).ops.cmpRecKey other (h.makeKey getRecBits (T.keydef k) record) = 0 ↔
      (T.core.keydef k).ops.cmpRecRec other record = 0 := by
  rw [(wired k valid).1]
  exact (fmKeyCmp_made made (makeKey_holds room record) other.toBytes).trans
    (fmRecKeyCmp_iff_images oneBit other.toBytes record.toBytes).symm

theorem hashKey_made :
    (T.core.keydef k).ops.hashKey (h.makeKey getRecBits (T.keydef k) record) =
      (T.core.keydef k).ops.hashRec record := by
  rw [(wired k valid).1]
  exact congrArg UInt64.toUInt32 (fmHashnr_made made (makeKey_holds room record))

theorem findUniqueRow_runs (gran : Gran) (rep : Rep T.core s none)
    (alone : s.owner = rowOwner t h.held) (hashes : HashesAgree T.core)
    (unique : (T.keydef k).nosame = true) (oneBit : OneNullBit (T.keydef k)) :
    ∃ result h' s', Runs t (findUniqueRow getRecBits T gran record k h) s (result, h') s' ∧
      (result.isSome ↔ HasEqualRow T s k record) := by
  obtain ⟨chain, chains, members⟩ := rep.placed
  generalize isKey : h.makeKey getRecBits (T.keydef k) record = key
  have equal : ∀ i, Matches T s k key i ↔ (s.slot i).state = .active ∧
      (T.core.keydef k).ops.cmpRecRec (s.slot i).data record = 0 := by
    intro i
    rw [matches_iff, ← isKey, cmpRecKey_made wired valid room made oneBit]
  -- an equal row is in the bucket of the key
  have bucket : ∀ i, Matches T s k key i → i ∈ chain k (keyBucket T k key) := by
    intro i row
    rw [mem_chain_iff members valid row]
    unfold fmCoreKeyBucket keyBucket
    rw [hashes k valid _ _ ((equal i).mp row).2, ← isKey, hashKey_made wired valid room made]
  have lookup : HasEqualRow T s k record ↔ ∃ i, Matches T s k key i := by
    constructor
    · rintro ⟨i, g, r, row, same⟩
      obtain ⟨active, _, rfl⟩ := rows_eq_some.mp row
      exact ⟨i, (equal i).mpr ⟨active, same⟩⟩
    · rintro ⟨i, row⟩
      obtain ⟨active, same⟩ := (equal i).mp row
      exact ⟨i, _, _, rows_eq_some.mpr ⟨active, rfl, rfl⟩, same⟩
  have looked : Runs t (fmCoreFind T.core gran k key) s (findOutcome s
      (fun buf => (T.core.keydef k).ops.cmpRecKey buf key = 0) (chain k (keyBucket T k key))) s :=
    find_runs (chains.threaded _ _) (fun i _ => rep.settled i) (by rw [alone]; rfl)
  unfold findUniqueRow readUnique
  rw [lookup]
  simp only [unique, isKey, Bool.true_eq_false, if_false]
  cases found : (chain k (keyBucket T k key)).find? (hits T s k key) with
  | none =>
      rw [findOutcome_none found] at looked
      refine ⟨none, _, s, runs_bind (runs_bind looked (runs_pure _ s)) (runs_pure _ s), ?_⟩
      refine iff_of_false (by simp) fun ⟨i, row⟩ => ?_
      exact List.find?_eq_none.mp found i (bucket i row) (hits_iff.mpr row)
  | some i =>
      rw [findOutcome_some found] at looked
      have row := hits_iff.mp (List.find?_some found)
      let h₁ : Handler := { h with
        lastkey := key
        currentSlot := some i
        currentGen := (s.slot i).gen
        lastinx := some k
        update := { HaState.none with aktiv := true } }
      obtain ⟨h', read, _⟩ := afterRead_runs (h := h₁) gran .keyNotFound ⟨rfl, rfl⟩ row.active
        (rep.settled i) alone
      refine ⟨some (s.slot i).data, h', _, runs_bind (runs_bind looked (runs_perform_bind rfl
        (runs_bind read (runs_pure _ _)))) (runs_pure _ _), ?_⟩
      exact iff_of_true rfl ⟨i, row⟩

end

end

/-- A record that fm_make_key packs as its key is read equals its packed key and hashes alike,
and find_unique_row finds it exactly if there is an equal row. -/
theorem madeKey_found (getRecBits : Bytes → Nat → Nat → UInt8) :
    (∀ (kd : FmKeydef) (m rec : Bytes),
      (∀ seg ∈ kd.seg, ∀ string, seg.charset.strnncollsp string string = 0) →
      KeyMade rec kd.seg →
      fmKeyCmp getRecBits kd rec (fmMakeKey getRecBits kd m rec) = 0 ∧
        fmHashnr kd (fmMakeKey getRecBits kd m rec) = fmRecHashnr getRecBits kd rec) ∧
    ∀ (n : Nat) (T : TableShare n) (gran : Gran) (t : Nat) (s : Core n) (h : Handler) (k : Nat)
      (record : Rec n), WiredTo getRecBits T.core T.keydef →
      (∀ k, k < T.core.keys → ∀ seg ∈ (T.keydef k).seg, seg.charset.Lawful) →
      Rep T.core s none → s.owner = rowOwner t h.held → k < T.core.keys →
      (T.keydef k).nosame = true → OneNullBit (T.keydef k) →
      (T.keydef k).length ≤ h.lastkey.length → KeyMade record.toBytes (T.keydef k).seg →
      ∃ result h' s', Runs t (findUniqueRow getRecBits T gran record k h) s (result, h') s' ∧
        (result.isSome ↔ HasEqualRow T s k record) := by
  constructor
  · intro kd m rec refl made
    have holds : slice (fmMakeKey getRecBits kd m rec) 0 _ = madeBytes getRecBits rec kd.seg :=
      fmMakeKey_holds kd m rec
    refine ⟨(fmKeyCmp_made made holds rec).mpr fun seg member => ?_, fmHashnr_made made holds⟩
    generalize recImage getRecBits seg rec = image
    cases image with
    | null => trivial
    | text string => exact refl seg member string
    | bytes data => rfl
  · intro n T gran t s h k record wired lawful rep alone valid unique oneBit room made
    exact findUniqueRow_runs wired valid room made gran rep alone
      (wired.keysEquivalent lawful).hashes unique oneBit

def nameKeydef : FmKeydef :=
  fmPrepareKeydef true [⟨.vartext2, 1, 3, caselessCharset, 1, 0, 0, 0, 0, by decide⟩,
    ⟨.other, 6, 1, caselessCharset, 0, 0, 0, 0, 0, wholeByte⟩]

def nameTable : TableShare 7 where
  core := fmCoreInitShare 1 4 2 (fun _ => fmKeyOps getRecBits nameKeydef) (fun _ => true)
    oneKey_le fourRecords_le twoBuckets_pow
  keydef _ := nameKeydef

def nameRow (first second byte : UInt8) : Rec 7 := fun i =>
  [0, 2, 0, first, second, 0, byte].getD i 0

def nameRows : List (Served 7) × Core 7 :=
  serve nameTable.core .whole 100 [.insertRow (nameRow 97 98 5), .insertRow (nameRow 97 98 6)]
    ([], Core.fresh (fun _ _ => 0) ⟨fun _ => true, 0, 0⟩)

theorem nameKeydef_lawful : ∀ seg ∈ nameKeydef.seg, seg.charset.Lawful := by
  intro seg member
  rcases List.mem_pair.mp member with rfl | rfl <;> exact caselessCharset_lawful

theorem nameKeydef_oneBit : OneNullBit nameKeydef := by
  have bits : ∀ byte : Fin 256,
      (UInt8.ofFin byte &&& 1 = 0 ∨ UInt8.ofFin byte &&& 1 = 1) ∧ UInt8.ofFin byte &&& 0 = 0 := by
    decide +kernel
  intro seg member byte
  rcases List.mem_pair.mp member with rfl | rfl
  · exact (bits byte.toFin).1
  · exact Or.inl (bits byte.toFin).2

def askedRow : Rec 7 := nameRow 65 66 6

theorem askedRow_made : KeyMade askedRow.toBytes nameKeydef.seg := by
  refine ⟨fun _ => ⟨rfl, Or.inl (by decide)⟩, fun _ => ⟨rfl, fun _ => rfl, ?_⟩, fun _ => rfl, ?_,
    trivial⟩
  · exact fun uneven => absurd uneven.1 (by decide)
  · exact fun more => absurd rfl more

theorem nameRows_rep : Rep nameTable.core nameRows.2 none ∧ Quiet nameRows.2 := by
  have wired : WiredTo getRecBits nameTable.core nameTable.keydef := fun _ _ => ⟨rfl, rfl⟩
  exact ((SerialRun.nil.serve 100 _).rep (wired.keysEquivalent fun _ _ => nameKeydef_lawful).hashes)

/-- No segment is NULL; the row ab, 6 is found, behind a row that differs in the second segment. -/
theorem madeKey_found_nameTable :
    (∀ seg ∈ nameKeydef.seg, ¬ recNull seg askedRow.toBytes) ∧
    fmKeyCmp getRecBits nameKeydef askedRow.toBytes
      (fmMakeKey getRecBits nameKeydef (fun _ => 0) askedRow.toBytes) = 0 ∧
    fmHashnr nameKeydef (fmMakeKey getRecBits nameKeydef (fun _ => 0) askedRow.toBytes) =
      fmRecHashnr getRecBits nameKeydef askedRow.toBytes ∧
    rows nameRows.2 0 = some (0, nameRow 97 98 5) ∧ rows nameRows.2 1 = some (0, nameRow 97 98 6) ∧
    ∃ row h' s', Runs 0 (findUniqueRow getRecBits nameTable .whole askedRow 0
      (readingHandler (List.replicate 8 0))) nameRows.2 (some row, h') s' := by
  obtain ⟨first, second⟩ : rows nameRows.2 0 = some (0, nameRow 97 98 5) ∧
      rows nameRows.2 1 = some (0, nameRow 97 98 6) := by
    decide +kernel
  have equal : (nameTable.core.keydef 0).ops.cmpRecRec (nameRow 97 98 6) askedRow = 0 := by
    decide +kernel
  obtain ⟨packs, finds⟩ := madeKey_found getRecBits
  obtain ⟨same, hash⟩ := packs nameKeydef (fun _ => 0) _
    (fun seg member => (nameKeydef_lawful seg member).refl) askedRow_made
  obtain ⟨result, h', s', ran, found⟩ := finds 7 nameTable .whole 0 nameRows.2
    (readingHandler (List.replicate 8 0)) 0 askedRow (fun _ _ => ⟨rfl, rfl⟩)
    (fun _ _ => nameKeydef_lawful) nameRows_rep.1 (quiet_rowOwner nameRows_rep.2) (by decide) rfl
    nameKeydef_oneBit (by decide) askedRow_made
  obtain ⟨row, rfl⟩ := Option.isSome_iff_exists.mp (found.mpr ⟨1, 0, _, second, equal⟩)
  refine ⟨?_, same, hash, first, second, row, h', s', ran⟩
  intro seg member
  rcases List.mem_pair.mp member with rfl | rfl <;> decide

end Fastmem
