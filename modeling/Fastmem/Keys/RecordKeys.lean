/-
What a key segment of a record means, and the functions that hash and compare
records.

Each function of fm_hash.cc cuts a text segment by a formula of its own. Here a
segment has one image: NULL, a text cut to the prefix the key holds, or bytes.
Hashing folds over the images and comparing compares them one by one, so equal
keys hash alike whatever the mix of segments.
-/

import Fastmem.Core.SerialInsert
import Fastmem.Keys.KeyFunctions

set_option autoImplicit false

namespace Fastmem

/-! ### Images of segments -/

inductive SegmentImage
  | null
  | text (string : List UInt8)
  | bytes (data : List UInt8)
  deriving DecidableEq, Repr

/-- The part of a string that the prefix of a key covers: whole characters in a multi-byte
charset, else bytes. -/
def withinPrefix (seg : HaKeyseg) (string : List UInt8) : List UInt8 :=
  string.take
    (if seg.charset.mbmaxlen > 1 then
      seg.charset.charpos string (seg.length / seg.charset.mbmaxlen)
    else seg.length)

def recNull (seg : HaKeyseg) (rec : Bytes) : Prop :=
  seg.nullBit ≠ 0 ∧ rec seg.nullPos &&& seg.nullBit ≠ 0

instance (seg : HaKeyseg) (rec : Bytes) : Decidable (recNull seg rec) :=
  inferInstanceAs (Decidable (_ ∧ _))

def recString (seg : HaKeyseg) (rec : Bytes) : List UInt8 :=
  if seg.type = .vartext1 then slice rec (seg.start + seg.bitStart) (recLength seg rec)
  else slice rec seg.start seg.length

section

variable (getRecBits : Bytes → Nat → Nat → UInt8)

/-- The uneven bits of a BIT segment come first, in a byte of their own. -/
def recData (seg : HaKeyseg) (rec : Bytes) : List UInt8 :=
  if seg.uneven then
    recBits getRecBits seg rec :: slice rec seg.start (seg.length - 1)
  else slice rec seg.start seg.length

def recImage (seg : HaKeyseg) (rec : Bytes) : SegmentImage :=
  if recNull seg rec then .null
  else
    match seg.type with
    | .text | .vartext1 => .text (withinPrefix seg (recString seg rec))
    | .bit | .binary => .bytes (recData getRecBits seg rec)

end

def SegmentImage.Same (cs : Charset) : SegmentImage → SegmentImage → Prop
  | .null, .null => True
  | .text left, .text right => cs.strnncollsp left right = 0
  | .bytes left, .bytes right => left = right
  | _, _ => False

instance (cs : Charset) (left right : SegmentImage) : Decidable (left.Same cs right) := by
  cases left <;> cases right <;> unfold SegmentImage.Same <;> infer_instance

def SegmentImage.hash (cs : Charset) (nr : UInt64 × UInt64) : SegmentImage → UInt64 × UInt64
  | .null => hashNull nr
  | .text string => cs.hashSort string nr
  | .bytes data => data.foldl hashByte nr

/-- What the code relies on of a collation. -/
structure Charset.Lawful (cs : Charset) : Prop where
  refl : ∀ string, cs.strnncollsp string string = 0
  symm : ∀ left right, cs.strnncollsp left right = 0 → cs.strnncollsp right left = 0
  trans : ∀ left middle right, cs.strnncollsp left middle = 0 →
    cs.strnncollsp middle right = 0 → cs.strnncollsp left right = 0
  hashes : ∀ left right, cs.strnncollsp left right = 0 →
    ∀ nr, cs.hashSort left nr = cs.hashSort right nr

namespace SegmentImage

variable {cs : Charset} {left middle right : SegmentImage}

theorem same_refl (lawful : cs.Lawful) (image : SegmentImage) : image.Same cs image := by
  cases image with
  | null => trivial
  | text string => exact lawful.refl string
  | bytes data => rfl

theorem Same.symm (lawful : cs.Lawful) (same : left.Same cs right) : right.Same cs left := by
  cases left <;> cases right <;> first | exact same.elim | skip
  · trivial
  · exact lawful.symm _ _ same
  · exact Eq.symm same

theorem Same.trans (lawful : cs.Lawful) (first : left.Same cs middle)
    (second : middle.Same cs right) : left.Same cs right := by
  cases left <;> cases middle <;> first | exact first.elim | skip
  all_goals cases right <;> first | exact second.elim | skip
  · trivial
  · exact lawful.trans _ _ _ first second
  · exact Eq.trans first second

theorem Same.hash_eq
    (hashes : ∀ l r, cs.strnncollsp l r = 0 → ∀ nr, cs.hashSort l nr = cs.hashSort r nr)
    (same : left.Same cs right) (nr : UInt64 × UInt64) : left.hash cs nr = right.hash cs nr := by
  cases left <;> cases right <;> first | exact same.elim | skip
  · rfl
  · exact hashes _ _ same nr
  · rw [show _ = _ from same]

end SegmentImage

/-! ### The cuts -/

theorem slice_take (m : Bytes) (pos length count : Nat) :
    (slice m pos length).take count = slice m pos (min count length) := by
  unfold slice
  rw [← List.map_take]
  rcases Nat.le_total length count with short | long
  · rw [List.take_range'_of_length_le short, Nat.min_eq_right short]
  · rw [List.take_range'_of_length_ge long, Nat.min_eq_left long]

@[simp]
theorem slice_length (m : Bytes) (pos length : Nat) : (slice m pos length).length = length := by
  simp [slice]

/-- The bounds the code keeps for a string of `length` bytes. -/
theorem withinPrefix_slice (seg : HaKeyseg) (m : Bytes) (pos length : Nat) :
    withinPrefix seg (slice m pos length) =
      slice m pos
        (if seg.charset.mbmaxlen > 1 then
          min (seg.charset.charpos (slice m pos length) (seg.length / seg.charset.mbmaxlen)) length
        else min seg.length length) := by
  unfold withinPrefix
  rw [slice_take]
  split <;> rfl

theorem withinPrefix_cut (seg : HaKeyseg) (m : Bytes) (pos length : Nat) :
    withinPrefix seg (slice m pos length) =
      slice m pos
        (if seg.charset.mbmaxlen > 1 then
          min length (seg.charset.charpos (slice m pos length) (seg.length / seg.charset.mbmaxlen))
        else min length seg.length) := by
  rw [withinPrefix_slice, Nat.min_comm seg.length, Nat.min_comm length (Charset.charpos _ _ _)]

section

variable (getRecBits : Bytes → Nat → Nat → UInt8)

theorem recHashnrSegment_eq (rec : Bytes) (nr : UInt64 × UInt64) (seg : HaKeyseg) :
    recHashnrSegment getRecBits rec nr seg =
      (recImage getRecBits seg rec).hash seg.charset nr := by
  unfold recHashnrSegment recImage
  by_cases missing : recNull seg rec
  · rw [if_pos missing, if_pos (show seg.nullBit ≠ 0 ∧ _ from missing)]
    rfl
  · rw [if_neg missing, if_neg (show ¬ (seg.nullBit ≠ 0 ∧ _) from missing)]
    cases kind : seg.type with
    | text =>
        simp only [SegmentImage.hash, recString, kind, reduceCtorEq, if_false,
          withinPrefix_slice, Nat.min_self]
    | vartext1 =>
        simp only [SegmentImage.hash, recString, kind, if_true, withinPrefix_cut]
    | bit =>
        simp only [SegmentImage.hash, recData]
        split <;> rfl
    | binary =>
        simp only [SegmentImage.hash, recData]
        split <;> rfl

theorem fmRecHashnr_eq (kd : FmKeydef) (rec : Bytes) :
    fmRecHashnr getRecBits kd rec =
      (kd.seg.foldl (fun nr seg => (recImage getRecBits seg rec).hash seg.charset nr) (1, 4)).1 := by
  unfold fmRecHashnr
  congr 2
  funext nr seg
  exact recHashnrSegment_eq getRecBits rec nr seg

/-! ### Comparing records -/

/-- `bit_start` is the number of bytes before the string. -/
theorem HaKeyseg.skip_eq {seg : HaKeyseg} (kind : seg.type = .vartext1) :
    (if seg.bitStart = 1 then seg.start + 1 else seg.start + 2) = seg.start + seg.bitStart := by
  rcases seg.packLength kind with one | two
  · rw [if_pos one, one]
  · rw [if_neg (by omega), two]

theorem recKeyDiffer_eq (seg : HaKeyseg) (rec1 rec2 : Bytes) (found1 : ¬ recNull seg rec1)
    (found2 : ¬ recNull seg rec2) :
    recKeyDiffer getRecBits seg rec1 rec2 = false ↔
      (recImage getRecBits seg rec1).Same seg.charset (recImage getRecBits seg rec2) := by
  unfold recKeyDiffer recImage
  rw [if_neg found1, if_neg found2]
  cases kind : seg.type with
  | text =>
      simp only [bne_eq_false_iff_eq, SegmentImage.Same, recString, kind, reduceCtorEq, if_false,
        withinPrefix_slice, Nat.min_self]
  | vartext1 =>
      simp only [bne_eq_false_iff_eq, SegmentImage.Same, recString, kind, if_true,
        withinPrefix_slice, HaKeyseg.skip_eq kind, Nat.min_comm seg.length]
  | bit =>
      simp only [SegmentImage.Same, recData]
      split
      · simp only [Bool.or_eq_false_iff, bne_eq_false_iff_eq, List.cons.injEq]
      · simp only [bne_eq_false_iff_eq]
  | binary =>
      simp only [SegmentImage.Same, recData]
      split
      · simp only [Bool.or_eq_false_iff, bne_eq_false_iff_eq, List.cons.injEq]
      · simp only [bne_eq_false_iff_eq]

theorem recKeyCmpSegment_eq (seg : HaKeyseg) (rec1 rec2 : Bytes) :
    recKeyCmpSegment getRecBits seg rec1 rec2 = false ↔
      (seg.nullBit ≠ 0 →
        rec1 seg.nullPos &&& seg.nullBit = rec2 seg.nullPos &&& seg.nullBit) ∧
      (recImage getRecBits seg rec1).Same seg.charset (recImage getRecBits seg rec2) := by
  unfold recKeyCmpSegment
  by_cases nullable : seg.nullBit ≠ 0
  · rw [if_pos nullable]
    by_cases flags : rec1 seg.nullPos &&& seg.nullBit = rec2 seg.nullPos &&& seg.nullBit
    · rw [if_neg (not_not.mpr flags)]
      by_cases missing : rec1 seg.nullPos &&& seg.nullBit ≠ 0
      · have null1 : recNull seg rec1 := ⟨nullable, missing⟩
        have null2 : recNull seg rec2 := ⟨nullable, flags ▸ missing⟩
        rw [if_pos missing]
        simp only [recImage, if_pos null1, if_pos null2, SegmentImage.Same, flags, implies_true,
          and_self]
      · have found1 : ¬ recNull seg rec1 := fun null => missing null.2
        have found2 : ¬ recNull seg rec2 := fun null => missing (flags ▸ null.2)
        rw [if_neg missing, recKeyDiffer_eq getRecBits seg rec1 rec2 found1 found2]
        exact ⟨fun same => ⟨fun _ => flags, same⟩, And.right⟩
    · rw [if_pos flags]
      exact ⟨fun impossible => (by cases impossible), fun both => absurd (both.1 nullable) flags⟩
  · rw [if_neg nullable, recKeyDiffer_eq getRecBits seg rec1 rec2 (fun null => nullable null.1)
      (fun null => nullable null.1)]
    exact ⟨fun same => ⟨fun bit => absurd bit nullable, same⟩, And.right⟩

theorem fmRecKeyCmp_eq_zero (kd : FmKeydef) (rec1 rec2 : Bytes) :
    fmRecKeyCmp getRecBits kd rec1 rec2 = 0 ↔ ∀ seg ∈ kd.seg,
      (seg.nullBit ≠ 0 →
        rec1 seg.nullPos &&& seg.nullBit = rec2 seg.nullPos &&& seg.nullBit) ∧
      (recImage getRecBits seg rec1).Same seg.charset (recImage getRecBits seg rec2) := by
  unfold fmRecKeyCmp
  split
  · rename_i differ
    obtain ⟨seg, member, returns⟩ := List.any_eq_true.mp differ
    refine ⟨fun impossible => (by cases impossible), fun equal => ?_⟩
    rw [(recKeyCmpSegment_eq getRecBits seg rec1 rec2).mpr (equal seg member)] at returns
    cases returns
  · rename_i equal
    rw [Bool.not_eq_true, List.any_eq_false] at equal
    refine ⟨fun _ seg member => ?_, fun _ => rfl⟩
    exact (recKeyCmpSegment_eq getRecBits seg rec1 rec2).mp
      (Bool.not_eq_true _ ▸ equal seg member)

theorem fold_hash_congr {image image' : HaKeyseg → SegmentImage} {segs : List HaKeyseg}
    (same : ∀ seg ∈ segs, ∀ nr, (image seg).hash seg.charset nr =
      (image' seg).hash seg.charset nr) (nr : UInt64 × UInt64) :
    segs.foldl (fun nr seg => (image seg).hash seg.charset nr) nr =
      segs.foldl (fun nr seg => (image' seg).hash seg.charset nr) nr := by
  induction segs generalizing nr with
  | nil => rfl
  | cons seg rest ih =>
      rw [List.foldl_cons, List.foldl_cons, same seg List.mem_cons_self nr]
      exact ih (fun later member => same later (List.mem_cons_of_mem _ member)) _

variable {kd : FmKeydef} {a b c : Bytes}

theorem fmRecKeyCmp_refl (lawful : ∀ seg ∈ kd.seg, seg.charset.Lawful) (a : Bytes) :
    fmRecKeyCmp getRecBits kd a a = 0 := by
  rw [fmRecKeyCmp_eq_zero]
  exact fun seg member => ⟨fun _ => rfl, SegmentImage.same_refl (lawful seg member) _⟩

theorem fmRecKeyCmp_symm (lawful : ∀ seg ∈ kd.seg, seg.charset.Lawful)
    (equal : fmRecKeyCmp getRecBits kd a b = 0) : fmRecKeyCmp getRecBits kd b a = 0 := by
  rw [fmRecKeyCmp_eq_zero] at equal ⊢
  intro seg member
  obtain ⟨flags, same⟩ := equal seg member
  exact ⟨fun nullable => (flags nullable).symm, same.symm (lawful seg member)⟩

theorem fmRecKeyCmp_trans (lawful : ∀ seg ∈ kd.seg, seg.charset.Lawful)
    (first : fmRecKeyCmp getRecBits kd a b = 0) (second : fmRecKeyCmp getRecBits kd b c = 0) :
    fmRecKeyCmp getRecBits kd a c = 0 := by
  rw [fmRecKeyCmp_eq_zero] at first second ⊢
  intro seg member
  obtain ⟨flags, same⟩ := first seg member
  obtain ⟨flags', same'⟩ := second seg member
  exact ⟨fun nullable => (flags nullable).trans (flags' nullable),
    same.trans (lawful seg member) same'⟩

theorem fmRecKeyCmp_hash (lawful : ∀ seg ∈ kd.seg, seg.charset.Lawful)
    (equal : fmRecKeyCmp getRecBits kd a b = 0) :
    fmRecHashnr getRecBits kd a = fmRecHashnr getRecBits kd b := by
  rw [fmRecKeyCmp_eq_zero] at equal
  rw [fmRecHashnr_eq, fmRecHashnr_eq, fold_hash_congr fun seg member nr =>
    (equal seg member).2.hash_eq (lawful seg member).hashes nr]

theorem fmRecKeyCmp_null (equal : fmRecKeyCmp getRecBits kd a b = 0) :
    fmIfNullInKey kd a = fmIfNullInKey kd b := by
  rw [fmRecKeyCmp_eq_zero] at equal
  unfold fmIfNullInKey
  rw [Bool.eq_iff_iff, List.any_eq_true, List.any_eq_true]
  refine exists_congr fun seg => and_congr_right fun member => ?_
  by_cases nullable : seg.nullBit = 0
  · simp [nullable]
  · rw [(equal seg member).1 nullable]

end

/-- Comparing the keys of records is an equivalence; equal keys hash alike and are NULL
alike. -/
theorem recKeyCmp_equivalence (getRecBits : Bytes → Nat → Nat → UInt8) (kd : FmKeydef)
    (lawful : ∀ seg ∈ kd.seg, seg.charset.Lawful) :
    (∀ a, fmRecKeyCmp getRecBits kd a a = 0) ∧
    (∀ a b, fmRecKeyCmp getRecBits kd a b = 0 → fmRecKeyCmp getRecBits kd b a = 0) ∧
    (∀ a b c, fmRecKeyCmp getRecBits kd a b = 0 → fmRecKeyCmp getRecBits kd b c = 0 →
      fmRecKeyCmp getRecBits kd a c = 0) ∧
    (∀ a b, fmRecKeyCmp getRecBits kd a b = 0 →
      fmRecHashnr getRecBits kd a = fmRecHashnr getRecBits kd b) ∧
    ∀ a b, fmRecKeyCmp getRecBits kd a b = 0 → fmIfNullInKey kd a = fmIfNullInKey kd b :=
  ⟨fmRecKeyCmp_refl getRecBits lawful, fun _ _ => fmRecKeyCmp_symm getRecBits lawful,
    fun _ _ _ => fmRecKeyCmp_trans getRecBits lawful, fun _ _ => fmRecKeyCmp_hash getRecBits lawful,
    fun _ _ => fmRecKeyCmp_null getRecBits⟩

/-! ### A concrete key -/

/-- get_rec_bits of the server. -/
def getRecBits (ptr : Bytes) (ofs length : Nat) : UInt8 :=
  UInt8.ofNat ((uint2korr ptr 0 >>> ofs) &&& ((1 <<< length) - 1))

def caselessCharset : Charset where
  mbmaxlen := 1
  charpos _ num := num
  strnncollsp left right := if left.map lower = right.map lower then 0 else 1
  hashSort string nr := (string.map lower).foldl hashByte nr
where
  lower (byte : UInt8) : UInt8 := if 65 ≤ byte ∧ byte ≤ 90 then byte + 32 else byte

theorem caselessCharset_lawful : caselessCharset.Lawful where
  refl string := if_pos rfl
  symm left right equal := by
    simp only [caselessCharset, ite_eq_left_iff, one_ne_zero, imp_false, not_not] at equal ⊢
    exact equal.symm
  trans left middle right first second := by
    simp only [caselessCharset, ite_eq_left_iff, one_ne_zero, imp_false, not_not] at first second ⊢
    exact first.trans second
  hashes left right equal nr := by
    simp only [caselessCharset, ite_eq_left_iff, one_ne_zero, imp_false, not_not] at equal ⊢
    rw [equal]

theorem wholeByte : FieldKeyType.other = .bit → 0 ≠ 0 → 0 < 1 := by decide

def mixedParts : List KeyPart :=
  [⟨.vartext1, 1, 2, caselessCharset, 1, 0, 0, 0, 0, by decide⟩,
    ⟨.bit, 4, 2, caselessCharset, 0, 0, 1, 1, 0, by decide⟩,
    ⟨.other, 5, 1, caselessCharset, 0, 0, 0, 0, 0, wholeByte⟩]

def mixedKeydef : FmKeydef := fmPrepareKeydef true mixedParts

theorem mixedKeydef_lawful : ∀ seg ∈ mixedKeydef.seg, seg.charset.Lawful := by
  intro seg member
  obtain ⟨part, among, rfl⟩ := List.mem_map.mp member
  simp only [mixedParts, List.mem_cons, List.not_mem_nil, or_false] at among
  rcases among with rfl | rfl | rfl <;> exact caselessCharset_lawful

/-- Two records that differ in the case of a letter and outside the key. -/
theorem recKeyCmp_equivalence_mixedKeydef :
    let a : Bytes := fun i => [2, 2, 97, 98, 7, 9, 1].getD i 0
    let b : Bytes := fun i => [2, 2, 65, 98, 7, 9, 2].getD i 0
    fmRecKeyCmp getRecBits mixedKeydef a b = 0 ∧
      fmRecHashnr getRecBits mixedKeydef a = fmRecHashnr getRecBits mixedKeydef b := by
  intro a b
  have equal : fmRecKeyCmp getRecBits mixedKeydef a b = 0 := by decide +kernel
  exact ⟨equal,
    (recKeyCmp_equivalence getRecBits mixedKeydef mixedKeydef_lawful).2.2.2.1 a b equal⟩

/-! ### fm_key_ops_init -/

variable {n : Nat}

def Rec.toBytes (rec : Rec n) : Bytes := fun i => if h : i < n then rec ⟨i, h⟩ else 0

def PackedKey.toBytes (packed : PackedKey) : Bytes := fun i => packed.getD i 0

/-- The callbacks of a key; hash values lose their upper half. -/
def fmKeyOps (getRecBits : Bytes → Nat → Nat → UInt8) (kd : FmKeydef) : KeyOps n where
  hashRec rec := (fmRecHashnr getRecBits kd rec.toBytes).toUInt32
  hashKey packed := (fmHashnr kd packed.toBytes).toUInt32
  cmpRecRec rec1 rec2 := fmRecKeyCmp getRecBits kd rec1.toBytes rec2.toBytes
  cmpRecKey rec packed := fmKeyCmp getRecBits kd rec.toBytes packed.toBytes
  hasNullPart := some fun rec => fmIfNullInKey kd rec.toBytes

/-- fm_key_ops_init has run: every key of the share uses its key definition. -/
def WiredTo (getRecBits : Bytes → Nat → Nat → UInt8) (D : ShareDef n) (keydef : Nat → FmKeydef) :
    Prop :=
  ∀ k, k < D.keys → (D.keydef k).ops = fmKeyOps getRecBits (keydef k) ∧
    (D.keydef k).unique = (keydef k).nosame

theorem WiredTo.keysEquivalent {getRecBits : Bytes → Nat → Nat → UInt8} {D : ShareDef n}
    {keydef : Nat → FmKeydef} (wired : WiredTo getRecBits D keydef)
    (lawful : ∀ k, k < D.keys → ∀ seg ∈ (keydef k).seg, seg.charset.Lawful) :
    KeysEquivalent D where
  symm k bound a b equal := by
    rw [(wired k bound).1] at equal ⊢
    exact fmRecKeyCmp_symm getRecBits (lawful k bound) equal
  trans k bound a b c first second := by
    rw [(wired k bound).1] at first second ⊢
    exact fmRecKeyCmp_trans getRecBits (lawful k bound) first second
  hashes k bound a b equal := by
    rw [(wired k bound).1] at equal ⊢
    exact congrArg UInt64.toUInt32 (fmRecKeyCmp_hash getRecBits (lawful k bound) equal)
  nulls k bound a b equal := by
    unfold dupChecked
    rw [(wired k bound).1] at equal ⊢
    have null := fmRecKeyCmp_null getRecBits equal
    simp only [fmKeyOps, null]

end Fastmem
