/-
Packed keys: their layout, and how fm_hashnr and fm_key_cmp walk them.

The hash walk moves by the packed length of every segment. The compare walk
moves one byte too far over a BIT segment with uneven bits that is not NULL: the
byte of those bits is skipped, and `seg->length`, which counts it, is added
again. From there on every segment is compared one byte off.
-/

import Fastmem.Keys.RecordKeys

set_option autoImplicit false

namespace Fastmem

/-! ### Layout -/

def HaKeyseg.marker (seg : HaKeyseg) : Nat := if seg.nullBit ≠ 0 then 1 else 0

def HaKeyseg.pack (seg : HaKeyseg) : Nat := if seg.type = .vartext1 then 2 else 0

theorem HaKeyseg.packedLength_eq (seg : HaKeyseg) :
    seg.packedLength = seg.marker + seg.pack + seg.length := rfl

def SegmentLayout (seg : HaKeyseg) (packed : Bytes) (off : Nat) : Prop :=
  (seg.nullBit ≠ 0 → packed off = 0 ∨ packed off = 1) ∧
    (seg.type = .vartext1 → uint2korr packed (off + seg.marker) ≤ seg.length)

def Layout (packed : Bytes) : List HaKeyseg → Nat → Prop
  | [], _ => True
  | seg :: rest, off => SegmentLayout seg packed off ∧ Layout packed rest (off + seg.packedLength)

/-- What the walks need of a segment: a length within it where only the length bounds the
string. -/
structure Readable (seg : HaKeyseg) (packed : Bytes) (off : Nat) : Prop where
  nullByte : seg.nullBit ≠ 0 → packed off = 0 ∨ packed off = 1
  fits : seg.type = .vartext1 → ¬ (seg.nullBit ≠ 0 ∧ packed off ≠ 0) →
    ¬ seg.charset.mbmaxlen > 1 → uint2korr packed (off + seg.marker) ≤ seg.length

def ReadableFrom (packed : Bytes) : List HaKeyseg → Nat → Prop
  | [], _ => True
  | seg :: rest, off => Readable seg packed off ∧ ReadableFrom packed rest (off + seg.packedLength)

theorem SegmentLayout.readable {seg : HaKeyseg} {packed : Bytes} {off : Nat}
    (layout : SegmentLayout seg packed off) : Readable seg packed off :=
  ⟨layout.1, fun kind _ _ => layout.2 kind⟩

theorem Layout.readable {packed : Bytes} {segs : List HaKeyseg} {off : Nat}
    (layout : Layout packed segs off) : ReadableFrom packed segs off := by
  induction segs generalizing off with
  | nil => trivial
  | cons seg rest ih => exact ⟨layout.1.readable, ih layout.2⟩

/-- The image of a segment that is not NULL, its length and data bytes from `data` on. -/
def valueImage (seg : HaKeyseg) (packed : Bytes) (data : Nat) : SegmentImage :=
  match seg.type with
  | .text => .text (withinPrefix seg (slice packed data seg.length))
  | .vartext1 => .text (withinPrefix seg (slice packed (data + 2) (uint2korr packed data)))
  | .bit | .binary => .bytes (slice packed data seg.length)

/-- The image of a segment at offset `off` of a packed key. -/
def packedImage (seg : HaKeyseg) (packed : Bytes) (off : Nat) : SegmentImage :=
  if seg.nullBit ≠ 0 ∧ packed off ≠ 0 then .null else valueImage seg packed (off + seg.marker)

section

variable (getRecBits : Bytes → Nat → Nat → UInt8)

def KeysEqual (rec packed : Bytes) : List HaKeyseg → Nat → Prop
  | [], _ => True
  | seg :: rest, off =>
      (recImage getRecBits seg rec).Same seg.charset (packedImage seg packed off) ∧
        KeysEqual rec packed rest (off + seg.packedLength)

end

/-! ### The hash walk -/

theorem withinPrefix_fits {seg : HaKeyseg} {m : Bytes} {pos length : Nat}
    (fits : ¬ seg.charset.mbmaxlen > 1 → length ≤ seg.length) :
    withinPrefix seg (slice m pos length) =
      slice m pos
        (if seg.charset.mbmaxlen > 1 then
          min length (seg.charset.charpos (slice m pos length) (seg.length / seg.charset.mbmaxlen))
        else length) := by
  rw [withinPrefix_cut]
  split
  · rfl
  · rename_i single
    rw [Nat.min_eq_left (fits single)]

theorem hashnrValue_eq {seg : HaKeyseg} {packed : Bytes} {pos key : Nat} {nr : UInt64 × UInt64}
    (fits : seg.type = .vartext1 → ¬ seg.charset.mbmaxlen > 1 →
      uint2korr packed pos ≤ seg.length)
    (data : key = pos + seg.length) :
    hashnrValue seg packed pos key nr =
      (key + seg.pack, (valueImage seg packed pos).hash seg.charset nr) := by
  unfold hashnrValue HaKeyseg.pack valueImage
  have span : key - pos = seg.length := by omega
  cases kind : seg.type with
  | text =>
      simp only [SegmentImage.hash, withinPrefix_fits fun _ => Nat.le_refl seg.length, reduceCtorEq,
        if_false, Nat.add_zero]
  | vartext1 => simp only [SegmentImage.hash, withinPrefix_fits (fits kind), if_true]
  | bit => simp only [SegmentImage.hash, span, reduceCtorEq, if_false, Nat.add_zero]
  | binary => simp only [SegmentImage.hash, span, reduceCtorEq, if_false, Nat.add_zero]

theorem hashnrSegment_eq {seg : HaKeyseg} {packed : Bytes} {off : Nat} {nr : UInt64 × UInt64}
    (readable : Readable seg packed off) :
    hashnrSegment packed (off, nr) seg =
      (off + seg.packedLength, (packedImage seg packed off).hash seg.charset nr) := by
  obtain ⟨_, fits⟩ := readable
  rw [HaKeyseg.packedLength_eq]
  unfold hashnrSegment packedImage
  dsimp only
  by_cases nullable : seg.nullBit ≠ 0
  · have one : seg.marker = 1 := if_pos nullable
    rw [one] at fits
    rw [if_pos nullable, one]
    by_cases null : packed off ≠ 0
    · have both : seg.nullBit ≠ 0 ∧ packed off ≠ 0 := ⟨nullable, null⟩
      rw [if_pos null, if_pos both]
      refine Prod.ext ?_ rfl
      unfold HaKeyseg.pack
      dsimp only
      split <;> omega
    · have value : ¬ (seg.nullBit ≠ 0 ∧ packed off ≠ 0) := fun both => null both.2
      rw [if_neg null, if_neg value, hashnrValue_eq (fun kind => fits kind value)
        (Nat.add_right_comm off seg.length 1)]
      refine Prod.ext ?_ rfl
      dsimp only
      omega
  · have zero : seg.marker = 0 := if_neg nullable
    have value : ¬ (seg.nullBit ≠ 0 ∧ packed off ≠ 0) := fun both => nullable both.1
    rw [zero, Nat.add_zero] at fits
    rw [if_neg nullable, if_neg value, zero, hashnrValue_eq (fun kind => fits kind value) rfl]
    refine Prod.ext ?_ rfl
    dsimp only
    omega

def packedImages (packed : Bytes) : List HaKeyseg → Nat → List (HaKeyseg × SegmentImage)
  | [], _ => []
  | seg :: rest, off =>
      (seg, packedImage seg packed off) :: packedImages packed rest (off + seg.packedLength)

theorem hashnr_walk {packed : Bytes} {segs : List HaKeyseg} {off : Nat}
    (readable : ReadableFrom packed segs off) (nr : UInt64 × UInt64) :
    (segs.foldl (hashnrSegment packed) (off, nr)).2 =
      (packedImages packed segs off).foldl (fun nr pair => pair.2.hash pair.1.charset nr) nr := by
  induction segs generalizing off nr with
  | nil => rfl
  | cons seg rest ih =>
      rw [List.foldl_cons, hashnrSegment_eq readable.1]
      exact ih readable.2 _

theorem KeysEqual.hash_eq {getRecBits : Bytes → Nat → Nat → UInt8} {rec packed : Bytes}
    {segs : List HaKeyseg} {off : Nat} (equal : KeysEqual getRecBits rec packed segs off)
    (hashes : ∀ seg ∈ segs, ∀ l r, seg.charset.strnncollsp l r = 0 →
      ∀ nr, seg.charset.hashSort l nr = seg.charset.hashSort r nr) (nr : UInt64 × UInt64) :
    segs.foldl (fun nr seg => (recImage getRecBits seg rec).hash seg.charset nr) nr =
      (packedImages packed segs off).foldl (fun nr pair => pair.2.hash pair.1.charset nr) nr := by
  induction segs generalizing off nr with
  | nil => rfl
  | cons seg rest ih =>
      rw [List.foldl_cons, equal.1.hash_eq (hashes seg List.mem_cons_self)]
      exact ih equal.2 (fun later member => hashes later (List.mem_cons_of_mem _ member)) _

/-! ### The compare walk -/

section

variable (getRecBits : Bytes → Nat → Nat → UInt8)

def slip (seg : HaKeyseg) (rec : Bytes) : Nat := if seg.uneven ∧ ¬ recNull seg rec then 1 else 0

theorem slice_cons (m : Bytes) (pos : Nat) {length : Nat} (positive : 0 < length) :
    slice m pos length = m pos :: slice m (pos + 1) (length - 1) := by
  obtain ⟨rest, rfl⟩ := Nat.exists_eq_add_of_lt positive
  unfold slice
  rw [Nat.zero_add, Nat.add_sub_cancel, List.range'_succ]
  rfl

theorem keyCmpValue_eq {seg : HaKeyseg} {rec packed : Bytes} {key : Nat}
    (found : ¬ recNull seg rec)
    (fits : seg.type = .vartext1 → ¬ seg.charset.mbmaxlen > 1 →
      uint2korr packed key ≤ seg.length) :
    keyCmpValue getRecBits seg rec packed key =
      if (recImage getRecBits seg rec).Same seg.charset (valueImage seg packed key)
      then some (key + seg.pack + slip seg rec) else none := by
  unfold keyCmpValue recImage HaKeyseg.pack slip valueImage
  rw [if_neg found]
  cases kind : seg.type with
  | text =>
      have even : ¬ seg.uneven := fun bits => by cases kind.symm.trans bits.1
      simp only [SegmentImage.Same, recString, kind, reduceCtorEq, if_false, withinPrefix_slice,
        Nat.min_self, even, false_and, Nat.add_zero, ne_eq, ite_not]
  | vartext1 =>
      have even : ¬ seg.uneven := fun bits => by cases kind.symm.trans bits.1
      simp only [SegmentImage.Same, recString, kind, if_true, withinPrefix_fits (fits kind),
        withinPrefix_cut, even, false_and, if_false, Nat.add_zero, ne_eq, ite_not]
  | bit =>
      simp only [SegmentImage.Same, recData, reduceCtorEq, if_false, Nat.add_zero]
      by_cases bits : seg.uneven
      · have slips : seg.uneven ∧ ¬ recNull seg rec := ⟨bits, found⟩
        simp only [if_pos bits, if_pos slips, List.cons.injEq,
          slice_cons packed key (seg.bitsCounted bits.1 bits.2)]
        by_cases first : recBits getRecBits seg rec = packed key
        · simp only [first, ne_eq, not_true_eq_false, if_false, true_and, ite_not]
        · simp only [first, ne_eq, not_false_eq_true, if_true, false_and, if_false]
      · simp only [bits, false_and, if_false, ne_eq, ite_not, Nat.add_zero]
  | binary =>
      have even : ¬ seg.uneven := fun bits => by cases kind.symm.trans bits.1
      simp only [SegmentImage.Same, recData, even, false_and, if_false, reduceCtorEq,
        Nat.add_zero, ne_eq, ite_not]

/-- One segment: the cursor, moved by the loop header, ends at the next layout offset or one
byte past it. -/
theorem keyCmpSegment_eq {seg : HaKeyseg} {rec packed : Bytes} {key : Nat}
    (readable : Readable seg packed key) :
    keyCmpSegment getRecBits seg rec packed key =
      if (recImage getRecBits seg rec).Same seg.charset (packedImage seg packed key)
      then some (key + seg.marker + seg.pack + slip seg rec) else none := by
  obtain ⟨nullByte, fits⟩ := readable
  unfold keyCmpSegment packedImage
  by_cases nullable : seg.nullBit ≠ 0
  · have one : seg.marker = 1 := if_pos nullable
    rw [one] at fits
    rw [if_pos nullable, one]
    by_cases null : rec seg.nullPos &&& seg.nullBit ≠ 0
    · have recIsNull : recNull seg rec := ⟨nullable, null⟩
      have aligned : slip seg rec = 0 := if_neg fun both => both.2 recIsNull
      simp only [if_pos null, recImage, if_pos recIsNull, aligned, Nat.add_zero]
      rcases nullByte nullable with zero | present
      · have value : ¬ (seg.nullBit ≠ 0 ∧ packed key ≠ 0) := fun both => both.2 zero
        have differ : ¬ SegmentImage.Same seg.charset .null (valueImage seg packed (key + 1)) := by
          unfold valueImage
          split <;> exact id
        rw [if_pos (by rw [zero]; decide), if_neg value, if_neg differ]
      · have both : seg.nullBit ≠ 0 ∧ packed key ≠ 0 := ⟨nullable, by rw [present]; decide⟩
        have same : SegmentImage.Same seg.charset .null .null := trivial
        rw [if_neg (by rw [present]; decide), if_pos (by decide), if_pos both, if_pos same]
        unfold HaKeyseg.pack
        split <;> rfl
    · have found : ¬ recNull seg rec := fun both => null both.2
      simp only [if_neg null]
      rcases nullByte nullable with zero | present
      · have value : ¬ (seg.nullBit ≠ 0 ∧ packed key ≠ 0) := fun both => both.2 zero
        rw [if_neg (by rw [zero]; decide), if_neg (by decide), if_neg value,
          keyCmpValue_eq getRecBits found fun kind => fits kind value]
      · have both : seg.nullBit ≠ 0 ∧ packed key ≠ 0 := ⟨nullable, by rw [present]; decide⟩
        have differ : ¬ (recImage getRecBits seg rec).Same seg.charset .null := by
          unfold recImage
          rw [if_neg found]
          split <;> exact id
        rw [if_pos (by rw [present]; decide), if_pos both, if_neg differ]
  · have zero : seg.marker = 0 := if_neg nullable
    have found : ¬ recNull seg rec := fun both => nullable both.1
    have value : ¬ (seg.nullBit ≠ 0 ∧ packed key ≠ 0) := fun both => nullable both.1
    rw [zero, Nat.add_zero] at fits
    rw [if_neg nullable, if_neg value, zero, Nat.add_zero,
      keyCmpValue_eq getRecBits found fun kind => fits kind value]

theorem keyCmp_walk {rec packed : Bytes} {before rest : List HaKeyseg} {key : Nat}
    (layout : Layout packed before key) (even : ∀ seg ∈ before, ¬ seg.uneven) :
    keyCmpFrom getRecBits rec packed (before ++ rest) key = 0 ↔
      KeysEqual getRecBits rec packed before key ∧
        keyCmpFrom getRecBits rec packed rest
          (key + (before.map HaKeyseg.packedLength).sum) = 0 := by
  induction before generalizing key with
  | nil => simp only [KeysEqual, List.nil_append, List.map_nil, List.sum_nil, Nat.add_zero, true_and]
  | cons seg before ih =>
      have aligned : slip seg rec = 0 := if_neg fun both => even seg List.mem_cons_self both.1
      rw [List.cons_append, keyCmpFrom, keyCmpSegment_eq getRecBits layout.1.readable, aligned,
        KeysEqual]
      by_cases same : (recImage getRecBits seg rec).Same seg.charset (packedImage seg packed key)
      · have step : key + seg.marker + seg.pack + 0 + seg.length = key + seg.packedLength := by
          rw [HaKeyseg.packedLength_eq]
          omega
        rw [if_pos same]
        dsimp only
        rw [step, ih layout.2 fun later member => even later (List.mem_cons_of_mem _ member),
          List.map_cons, List.sum_cons, Nat.add_assoc key]
        simp only [same, true_and]
      · rw [if_neg same]
        simp only [same, false_and, iff_false]
        decide

end

/-! ### Agreement -/

def BitsLast (kd : FmKeydef) : Prop := ∀ seg ∈ kd.seg.dropLast, ¬ seg.uneven

/-- Comparing a record with a packed key of the key's layout compares it segment by segment,
and what compares equal hashes alike. -/
def FormsAgree (getRecBits : Bytes → Nat → Nat → UInt8) (kd : FmKeydef) : Prop :=
  ∀ rec packed, Layout packed kd.seg 0 →
    (fmKeyCmp getRecBits kd rec packed = 0 ↔ KeysEqual getRecBits rec packed kd.seg 0) ∧
    (fmKeyCmp getRecBits kd rec packed = 0 → fmHashnr kd packed = fmRecHashnr getRecBits kd rec)

theorem Layout.append {packed : Bytes} {before rest : List HaKeyseg} {off : Nat} :
    Layout packed (before ++ rest) off ↔
      Layout packed before off ∧
        Layout packed rest (off + (before.map HaKeyseg.packedLength).sum) := by
  induction before generalizing off with
  | nil => simp only [Layout, List.nil_append, List.map_nil, List.sum_nil, Nat.add_zero, true_and]
  | cons seg before ih =>
      rw [List.cons_append, Layout, ih, Layout, List.map_cons, List.sum_cons, Nat.add_assoc off,
        and_assoc]

theorem KeysEqual.append {getRecBits : Bytes → Nat → Nat → UInt8} {rec packed : Bytes}
    {before rest : List HaKeyseg} {off : Nat} :
    KeysEqual getRecBits rec packed (before ++ rest) off ↔
      KeysEqual getRecBits rec packed before off ∧
        KeysEqual getRecBits rec packed rest (off + (before.map HaKeyseg.packedLength).sum) := by
  induction before generalizing off with
  | nil => simp only [KeysEqual, List.nil_append, List.map_nil, List.sum_nil, Nat.add_zero, true_and]
  | cons seg before ih =>
      rw [List.cons_append, KeysEqual, ih, KeysEqual, List.map_cons, List.sum_cons,
        Nat.add_assoc off, and_assoc]

/-- Uneven bits before another segment are NULL in the packed key. -/
def BitsAligned (packed : Bytes) : List HaKeyseg → Nat → Prop
  | [], _ => True
  | seg :: rest, off =>
      (rest ≠ [] → seg.uneven → packedImage seg packed off = .null) ∧
        BitsAligned packed rest (off + seg.packedLength)

theorem bitsAligned_of_even {packed : Bytes} {segs : List HaKeyseg} {off : Nat}
    (even : ∀ seg ∈ segs.dropLast, ¬ seg.uneven) : BitsAligned packed segs off := by
  induction segs generalizing off with
  | nil => trivial
  | cons seg rest ih =>
      cases rest with
      | nil => exact ⟨fun more => absurd rfl more, trivial⟩
      | cons next others =>
          rw [List.dropLast_cons_of_ne_nil (List.cons_ne_nil next others)] at even
          exact ⟨fun _ uneven => absurd uneven (even seg List.mem_cons_self),
            ih fun later member => even later (List.mem_cons_of_mem _ member)⟩

theorem SegmentImage.Same.null_iff {left right : SegmentImage} {cs : Charset}
    (same : left.Same cs right) : left = .null ↔ right = .null := by
  cases left <;> cases right <;> first | exact same.elim | simp

theorem recImage_eq_null {getRecBits : Bytes → Nat → Nat → UInt8} {seg : HaKeyseg} {rec : Bytes} :
    recImage getRecBits seg rec = .null ↔ recNull seg rec := by
  unfold recImage
  split
  · rename_i null
    simp [null]
  · rename_i found
    split <;> simp [found]

/-- The walk compares the segments at their layout offsets. The last segment may slip: nothing
is read after it. -/
theorem keyCmp_aligned {getRecBits : Bytes → Nat → Nat → UInt8} {rec packed : Bytes}
    {segs : List HaKeyseg} {off : Nat} (readable : ReadableFrom packed segs off)
    (bits : BitsAligned packed segs off) :
    keyCmpFrom getRecBits rec packed segs off = 0 ↔ KeysEqual getRecBits rec packed segs off := by
  induction segs generalizing off with
  | nil => exact ⟨fun _ => trivial, fun _ => rfl⟩
  | cons seg rest ih =>
      rw [keyCmpFrom, keyCmpSegment_eq getRecBits readable.1, KeysEqual]
      by_cases same : (recImage getRecBits seg rec).Same seg.charset (packedImage seg packed off)
      · rw [if_pos same]
        dsimp only
        cases rest with
        | nil => exact ⟨fun _ => ⟨same, trivial⟩, fun _ => rfl⟩
        | cons next others =>
            have aligned : slip seg rec = 0 := by
              refine if_neg fun both => both.2 ?_
              have null := bits.1 (List.cons_ne_nil next others) both.1
              exact recImage_eq_null.mp (same.null_iff.mpr null)
            have step : off + seg.marker + seg.pack + slip seg rec + seg.length =
                off + seg.packedLength := by
              rw [aligned, HaKeyseg.packedLength_eq]
              omega
            rw [step, ih readable.2 bits.2]
            simp only [same, true_and]
      · rw [if_neg same]
        simp only [same, false_and, iff_false]
        decide

theorem formsAgree_of_bitsLast {getRecBits : Bytes → Nat → Nat → UInt8} {kd : FmKeydef}
    (hashes : ∀ seg ∈ kd.seg, ∀ l r, seg.charset.strnncollsp l r = 0 →
      ∀ nr, seg.charset.hashSort l nr = seg.charset.hashSort r nr) (last : BitsLast kd) :
    FormsAgree getRecBits kd := by
  intro rec packed layout
  have compared : fmKeyCmp getRecBits kd rec packed = 0 ↔ KeysEqual getRecBits rec packed kd.seg 0 :=
    keyCmp_aligned layout.readable (bitsAligned_of_even last)
  refine ⟨compared, fun zero => ?_⟩
  rw [fmRecHashnr_eq, (compared.mp zero).hash_eq hashes, fmHashnr, hashnr_walk layout.readable]

/-! ### Where the walks part -/

/-- A value of a segment that is not NULL; the first byte of a BIT value holds its uneven
bits. -/
def FitsSegment (seg : HaKeyseg) (value : List UInt8) : Prop :=
  match seg.type with
  | .vartext1 => value.length ≤ seg.length ∧ value.length < 256 ^ seg.bitStart
  | .bit => value.length = seg.length ∧ (seg.uneven → (value.headD 0).toNat < 2 ^ seg.bitLength)
  | .text | .binary => value.length = seg.length

def HoldsValue (getRecBits : Bytes → Nat → Nat → UInt8) (rec : Bytes) (seg : HaKeyseg)
    (value : List UInt8) : Prop :=
  ¬ recNull seg rec ∧
    match seg.type with
    | .text | .vartext1 => recString seg rec = value
    | .bit | .binary => recData getRecBits seg rec = value

def tailBytes (value : List UInt8) : Bytes := fun i => value.tail.getD i 0

theorem tailBytes_eq (value : List UInt8) (i : Nat) : tailBytes value i = value.getD (i + 1) 0 := by
  cases value with
  | nil => rfl
  | cons byte rest => rfl

/-- The collation tells some value of a text segment from what stands one byte further on in
its own packed image. -/
def Telling (seg : HaKeyseg) : Prop :=
  let cs := seg.charset
  match seg.type with
  | .text => ∃ value, value.length = seg.length ∧
      cs.strnncollsp (withinPrefix seg value)
        (withinPrefix seg (slice (tailBytes value) 0 seg.length)) ≠ 0
  | .vartext1 => ∃ value, value.length ≤ seg.length ∧ value.length < 256 ∧
      let read := slice (tailBytes value) 0 (256 * (value.headD 0).toNat)
      cs.strnncollsp (withinPrefix seg value)
        (if cs.mbmaxlen > 1 then read.take (cs.charpos read (seg.length / cs.mbmaxlen))
        else read) ≠ 0
  | .bit | .binary => True

/-- A key on columns of their own, none of them empty, whose collations tell strings apart. -/
structure Ordinary (getRecBits : Bytes → Nat → Nat → UInt8) (kd : FmKeydef) : Prop where
  refl : ∀ seg ∈ kd.seg, ∀ string, seg.charset.strnncollsp string string = 0
  nonempty : ∀ seg ∈ kd.seg, 0 < seg.length
  telling : ∀ seg ∈ kd.seg, seg.nullBit = 0 → Telling seg
  columns : ∀ values : List (HaKeyseg × List UInt8), values.map Prod.fst = kd.seg →
    (∀ pair ∈ values, FitsSegment pair.1 pair.2) →
    ∃ rec, ∀ pair ∈ values, HoldsValue getRecBits rec pair.1 pair.2

/-- Byte `i` of the packed image of a value. -/
def segmentByte (seg : HaKeyseg) (value : List UInt8) (i : Nat) : UInt8 :=
  if i < seg.marker then 0
  else if i < seg.marker + seg.pack then
    if i = seg.marker then UInt8.ofNat (value.length % 256) else UInt8.ofNat (value.length / 256)
  else value.getD (i - (seg.marker + seg.pack)) 0

def packBytes : List (HaKeyseg × List UInt8) → Bytes
  | [] => fun _ => 0
  | pair :: rest => fun i =>
      if i < pair.1.packedLength then segmentByte pair.1 pair.2 i
      else packBytes rest (i - pair.1.packedLength)

theorem packBytes_head {pair : HaKeyseg × List UInt8} {rest : List (HaKeyseg × List UInt8)}
    {i : Nat} (bound : i < pair.1.packedLength) :
    packBytes (pair :: rest) i = segmentByte pair.1 pair.2 i := if_pos bound

theorem packBytes_tail (pair : HaKeyseg × List UInt8) (rest : List (HaKeyseg × List UInt8))
    (i : Nat) : packBytes (pair :: rest) (pair.1.packedLength + i) = packBytes rest i := by
  refine (if_neg (by omega)).trans ?_
  rw [Nat.add_sub_cancel_left]

theorem slice_congr {m m' : Bytes} {pos pos' length : Nat}
    (same : ∀ i, i < length → m (pos + i) = m' (pos' + i)) :
    slice m pos length = slice m' pos' length := by
  induction length generalizing pos pos' with
  | zero => rfl
  | succ length ih =>
      rw [slice_cons m pos (Nat.succ_pos _), slice_cons m' pos' (Nat.succ_pos _)]
      congr 1
      · exact same 0 (Nat.succ_pos _)
      · refine ih fun i bound => ?_
        have shifted := same (i + 1) (by omega)
        rwa [Nat.add_comm i 1, ← Nat.add_assoc, ← Nat.add_assoc] at shifted

theorem slice_list (list : List UInt8) : slice (fun i => list.getD i 0) 0 list.length = list := by
  induction list with
  | nil => rfl
  | cons byte rest ih =>
      rw [slice_cons _ 0 (by simp)]
      congr 1
      rw [← slice_congr fun i _ => ?_]
      · exact ih
      · rw [Nat.zero_add, Nat.add_comm 1 i, List.getD_cons_succ]

theorem slice_eq_of {m : Bytes} {pos : Nat} {list : List UInt8}
    (same : ∀ i, i < list.length → m (pos + i) = list.getD i 0) :
    slice m pos list.length = list := by
  refine Eq.trans (slice_congr fun i bound => ?_) (slice_list list)
  rw [Nat.zero_add]
  exact same i bound

theorem FitsSegment.length_le {seg : HaKeyseg} {value : List UInt8} (fits : FitsSegment seg value) :
    value.length ≤ seg.length := by
  unfold FitsSegment at fits
  split at fits
  · exact fits.1
  · exact Nat.le_of_eq fits.1
  · exact Nat.le_of_eq fits
  · exact Nat.le_of_eq fits

theorem segmentByte_length {seg : HaKeyseg} {value : List UInt8} (kind : seg.type = .vartext1)
    (fits : FitsSegment seg value) {m : Bytes} {off : Nat}
    (bytes : ∀ i, i < seg.packedLength → m (off + i) = segmentByte seg value i) :
    uint2korr m (off + seg.marker) = value.length := by
  have two : seg.pack = 2 := if_pos kind
  have small : value.length < 65536 := by
    unfold FitsSegment at fits
    rw [kind] at fits
    rcases seg.packLength kind with one | both
    · exact Nat.lt_of_lt_of_le (one ▸ fits.2) (by decide)
    · exact Nat.lt_of_lt_of_le (both ▸ fits.2) (by decide)
  have low : m (off + seg.marker) = UInt8.ofNat (value.length % 256) := by
    rw [bytes _ (by rw [HaKeyseg.packedLength_eq]; omega), segmentByte,
      if_neg (Nat.lt_irrefl _), if_pos (by omega), if_pos rfl]
  have high : m (off + seg.marker + 1) = UInt8.ofNat (value.length / 256) := by
    rw [Nat.add_assoc, bytes _ (by rw [HaKeyseg.packedLength_eq]; omega), segmentByte,
      if_neg (by omega), if_pos (by omega), if_neg (by omega)]
  unfold uint2korr
  rw [low, high, UInt8.toNat_ofNat', UInt8.toNat_ofNat']
  omega

theorem pack_image {getRecBits : Bytes → Nat → Nat → UInt8} {seg : HaKeyseg} {value : List UInt8}
    (fits : FitsSegment seg value) {m : Bytes} {off : Nat}
    (bytes : ∀ i, i < seg.packedLength → m (off + i) = segmentByte seg value i) :
    SegmentLayout seg m off ∧
      ∀ rec, HoldsValue getRecBits rec seg value →
        packedImage seg m off = recImage getRecBits seg rec := by
  have noNull : seg.nullBit ≠ 0 → m off = 0 := by
    intro nullable
    have one : seg.marker = 1 := if_pos nullable
    have first := bytes 0 (by rw [HaKeyseg.packedLength_eq]; omega)
    rw [Nat.add_zero] at first
    rw [first, segmentByte, if_pos (by omega)]
  have data : ∀ i, i < seg.length →
      m (off + seg.marker + seg.pack + i) = value.getD i 0 := by
    intro i bound
    rw [Nat.add_assoc, Nat.add_assoc, bytes _ (by rw [HaKeyseg.packedLength_eq]; omega),
      segmentByte, if_neg (by omega), if_neg (by omega)]
    congr 1
    omega
  refine ⟨⟨fun nullable => .inl (noNull nullable), fun kind => ?_⟩, fun rec holds => ?_⟩
  · rw [segmentByte_length kind fits bytes]
    exact fits.length_le
  · obtain ⟨found, held⟩ := holds
    have value_ : ¬ (seg.nullBit ≠ 0 ∧ m off ≠ 0) := fun both => both.2 (noNull both.1)
    unfold packedImage valueImage recImage
    rw [if_neg value_, if_neg found]
    unfold HaKeyseg.pack at data
    cases kind : seg.type with
    | text =>
        simp only [FitsSegment, kind] at fits
        simp only [kind, reduceCtorEq, if_false, Nat.add_zero] at data held ⊢
        rw [held, ← fits, slice_eq_of fun i bound => data i (fits ▸ bound)]
    | vartext1 =>
        simp only [kind, if_true] at data held ⊢
        rw [held, segmentByte_length kind fits bytes,
          slice_eq_of fun i bound => data i (Nat.lt_of_lt_of_le bound fits.length_le)]
    | bit =>
        simp only [FitsSegment, kind] at fits
        simp only [kind, reduceCtorEq, if_false, Nat.add_zero] at data held ⊢
        rw [held, ← fits.1, slice_eq_of fun i bound => data i (fits.1 ▸ bound)]
    | binary =>
        simp only [FitsSegment, kind] at fits
        simp only [kind, reduceCtorEq, if_false, Nat.add_zero] at data held ⊢
        rw [held, ← fits, slice_eq_of fun i bound => data i (fits ▸ bound)]

theorem packBytes_equal {getRecBits : Bytes → Nat → Nat → UInt8} {rec m : Bytes}
    {values : List (HaKeyseg × List UInt8)} {off : Nat}
    (bytes : ∀ i, m (off + i) = packBytes values i)
    (fits : ∀ pair ∈ values, FitsSegment pair.1 pair.2)
    (holds : ∀ pair ∈ values, HoldsValue getRecBits rec pair.1 pair.2)
    (refl : ∀ pair ∈ values, ∀ string, pair.1.charset.strnncollsp string string = 0) :
    Layout m (values.map Prod.fst) off ∧
      KeysEqual getRecBits rec m (values.map Prod.fst) off := by
  induction values generalizing off with
  | nil => exact ⟨trivial, trivial⟩
  | cons pair rest ih =>
      have head : ∀ i, i < pair.1.packedLength → m (off + i) = segmentByte pair.1 pair.2 i := by
        intro i bound
        rw [bytes, packBytes_head bound]
      have tail : ∀ i, m (off + pair.1.packedLength + i) = packBytes rest i := by
        intro i
        rw [Nat.add_assoc, bytes, packBytes_tail]
      obtain ⟨layout, equal⟩ := ih tail
        (fun later member => fits later (List.mem_cons_of_mem _ member))
        (fun later member => holds later (List.mem_cons_of_mem _ member))
        (fun later member => refl later (List.mem_cons_of_mem _ member))
      obtain ⟨here, image⟩ := pack_image (fits pair List.mem_cons_self) head
      have same : (recImage getRecBits pair.1 rec).Same pair.1.charset
          (packedImage pair.1 m off) := by
        rw [image rec (holds pair List.mem_cons_self)]
        cases recImage getRecBits pair.1 rec with
        | null => trivial
        | text string => exact refl pair List.mem_cons_self string
        | bytes data => rfl
      exact ⟨⟨here, layout⟩, same, equal⟩

theorem zeros_getD (count i : Nat) : (List.replicate count (0 : UInt8)).getD i 0 = 0 := by
  rw [List.getD_eq_getElem?_getD, List.getElem?_replicate]
  split <;> rfl

def oneValue (seg : HaKeyseg) : List UInt8 :=
  1 :: if seg.type = .vartext1 then [] else List.replicate (seg.length - 1) 0

theorem oneValue_fits {seg : HaKeyseg} (nonempty : 0 < seg.length) :
    FitsSegment seg (oneValue seg) := by
  unfold FitsSegment oneValue
  cases kind : seg.type with
  | vartext1 =>
      refine ⟨nonempty, ?_⟩
      rcases seg.packLength kind with one | two
      · rw [one, if_pos rfl]
        decide
      · rw [two, if_pos rfl]
        decide
  | bit =>
      refine ⟨by simp; omega, fun bits => ?_⟩
      exact Nat.one_lt_two_pow bits.2
  | text =>
      simp
      omega
  | binary =>
      simp
      omega

/-- One byte further on the compare walk takes the first data byte, or the first length byte,
for the null byte. -/
theorem nullable_tells {getRecBits : Bytes → Nat → Nat → UInt8} {seg : HaKeyseg}
    (nullable : seg.nullBit ≠ 0) {rec m : Bytes} {off : Nat}
    (bytes : ∀ i, m (off + i) = segmentByte seg (oneValue seg) i)
    (holds : HoldsValue getRecBits rec seg (oneValue seg)) :
    keyCmpSegment getRecBits seg rec m (off + 1) = none := by
  have one : seg.marker = 1 := if_pos nullable
  have present : ¬ rec seg.nullPos &&& seg.nullBit ≠ 0 := fun null => holds.1 ⟨nullable, null⟩
  have first : m (off + 1) = 1 := by
    rw [bytes, segmentByte, one, if_neg (by omega)]
    unfold HaKeyseg.pack oneValue
    by_cases kind : seg.type = .vartext1
    · simp [kind]
    · simp [kind]
  unfold keyCmpSegment
  simp only [if_pos nullable, if_neg present]
  rw [first, if_pos (by decide)]

/-- One byte further on the compare walk takes the second data byte for the first. -/
theorem fixed_tells {getRecBits : Bytes → Nat → Nat → UInt8} {seg : HaKeyseg}
    (required : seg.nullBit = 0) (kind : seg.type = .bit ∨ seg.type = .binary)
    (nonempty : 0 < seg.length) {rec m : Bytes} {off : Nat}
    (bytes : ∀ i, m (off + i) = segmentByte seg (oneValue seg) i)
    (holds : HoldsValue getRecBits rec seg (oneValue seg)) :
    keyCmpSegment getRecBits seg rec m (off + 1) = none := by
  have fixed : ¬ seg.type = .vartext1 := by
    rcases kind with bit | binary
    · rw [bit]
      decide
    · rw [binary]
      decide
  have zero : seg.marker = 0 := if_neg (not_not.mpr required)
  have second : m (off + 1) = 0 := by
    rw [bytes, segmentByte, zero, HaKeyseg.pack, if_neg fixed, if_neg (by omega),
      if_neg (by omega), oneValue, if_neg fixed, Nat.add_zero, Nat.sub_zero,
      List.getD_cons_succ, zeros_getD]
  have held : recData getRecBits seg rec = oneValue seg := by
    have value := holds.2
    rcases kind with bit | binary
    · rwa [bit] at value
    · rwa [binary] at value
  have differ : keyCmpValue getRecBits seg rec m (off + 1) = none := by
    unfold recData oneValue at held
    rw [if_neg fixed] at held
    have body : keyCmpValue getRecBits seg rec m (off + 1) =
        if seg.uneven then
          if recBits getRecBits seg rec ≠ m (off + 1) then none
          else if slice rec seg.start (seg.length - 1) ≠
              slice m (off + 1 + 1) (seg.length - 1) then none
          else some (off + 1 + 1)
        else
          if slice rec seg.start seg.length ≠ slice m (off + 1) seg.length then none
          else some (off + 1) := by
      unfold keyCmpValue
      rcases kind with bit | binary
      · simp only [bit]
      · simp only [binary]
    rw [body]
    by_cases bits : seg.uneven
    · rw [if_pos bits] at held ⊢
      rw [(List.cons.inj held).1, second, if_pos (by decide)]
    · rw [if_neg bits] at held ⊢
      rw [held, slice_cons m (off + 1) nonempty, second, if_pos]
      intro same
      exact absurd (List.cons.inj same).1 (by decide)
  unfold keyCmpSegment
  rw [if_neg (not_not.mpr required), differ]

theorem withinPrefix_slice_text (seg : HaKeyseg) (m : Bytes) (pos : Nat) :
    slice m pos
        (if seg.charset.mbmaxlen > 1 then
          min (seg.charset.charpos (slice m pos seg.length) (seg.length / seg.charset.mbmaxlen))
            seg.length
        else seg.length) =
      withinPrefix seg (slice m pos seg.length) := by
  rw [withinPrefix_slice, Nat.min_self]

theorem text_tells {getRecBits : Bytes → Nat → Nat → UInt8} {seg : HaKeyseg}
    (required : seg.nullBit = 0) (kind : seg.type = .text) {value : List UInt8}
    (differ : seg.charset.strnncollsp (withinPrefix seg value)
      (withinPrefix seg (slice (tailBytes value) 0 seg.length)) ≠ 0) {rec m : Bytes} {off : Nat}
    (bytes : ∀ i, m (off + i) = segmentByte seg value i)
    (holds : HoldsValue getRecBits rec seg value) :
    keyCmpSegment getRecBits seg rec m (off + 1) = none := by
  have zero : seg.marker = 0 := if_neg (not_not.mpr required)
  have empty : seg.pack = 0 := if_neg (by rw [kind]; decide)
  have held : slice rec seg.start seg.length = value := by
    have string := holds.2
    rw [kind] at string
    simpa only [recString, kind, reduceCtorEq, if_false] using string
  have shifted : slice m (off + 1) seg.length = slice (tailBytes value) 0 seg.length := by
    refine slice_congr fun i _ => ?_
    rw [Nat.add_assoc, bytes, segmentByte, zero, empty, if_neg (by omega), if_neg (by omega),
      tailBytes_eq, Nat.zero_add i, show 1 + i - (0 + 0) = i + 1 by omega]
  unfold keyCmpSegment keyCmpValue
  rw [if_neg (not_not.mpr required)]
  simp only [kind]
  rw [withinPrefix_slice_text seg rec, held, withinPrefix_slice_text seg m, shifted, if_pos differ]

/-- The length is read off the second length byte, which is 0, and the first data byte. -/
theorem vartext_tells {getRecBits : Bytes → Nat → Nat → UInt8} {seg : HaKeyseg}
    (required : seg.nullBit = 0) (kind : seg.type = .vartext1) {value : List UInt8}
    (short : value.length < 256)
    (differ : let read := slice (tailBytes value) 0 (256 * (value.headD 0).toNat)
      seg.charset.strnncollsp (withinPrefix seg value)
        (if seg.charset.mbmaxlen > 1 then
          read.take (seg.charset.charpos read (seg.length / seg.charset.mbmaxlen))
        else read) ≠ 0) {rec m : Bytes} {off : Nat}
    (bytes : ∀ i, m (off + i) = segmentByte seg value i)
    (holds : HoldsValue getRecBits rec seg value) :
    keyCmpSegment getRecBits seg rec m (off + 1) = none := by
  have zero : seg.marker = 0 := if_neg (not_not.mpr required)
  have two : seg.pack = 2 := if_pos kind
  have held : slice rec (seg.start + seg.bitStart) (recLength seg rec) = value := by
    have string := holds.2
    rw [kind] at string
    simpa only [recString, kind, if_true] using string
  have high : m (off + 1) = 0 := by
    rw [bytes, segmentByte, zero, two, if_neg (by omega), if_pos (by omega), if_neg (by omega),
      Nat.div_eq_of_lt short]
    rfl
  have first : m (off + 1 + 1) = value.headD 0 := by
    rw [Nat.add_assoc, bytes, segmentByte, zero, two, if_neg (by omega), if_neg (by omega)]
    cases value with
    | nil => rfl
    | cons byte rest => rfl
  have length : uint2korr m (off + 1) = 256 * (value.headD 0).toNat := by
    unfold uint2korr
    rw [high, first]
    exact Nat.zero_add _
  have shifted : ∀ count, slice m (off + 1 + 2) count = slice (tailBytes value) 0 count := by
    intro count
    refine slice_congr fun i _ => ?_
    rw [Nat.add_assoc, Nat.add_assoc, bytes, segmentByte, zero, two, if_neg (by omega),
      if_neg (by omega), tailBytes_eq, Nat.zero_add i,
      show 1 + (2 + i) - (0 + 2) = i + 1 by omega]
  unfold keyCmpSegment keyCmpValue
  rw [if_neg (not_not.mpr required)]
  simp only [kind]
  rw [← withinPrefix_cut, held, length, shifted, shifted]
  dsimp only at differ
  rw [slice_take] at differ
  by_cases wide : seg.charset.mbmaxlen > 1
  · rw [if_pos wide] at differ
    rw [if_pos wide, Nat.min_comm, if_pos differ]
  · rw [if_neg wide] at differ
    rw [if_neg wide, if_pos differ]

theorem Ordinary.tells {getRecBits : Bytes → Nat → Nat → UInt8} {kd : FmKeydef}
    (ordinary : Ordinary getRecBits kd) {seg : HaKeyseg} (member : seg ∈ kd.seg) :
    ∃ value, FitsSegment seg value ∧ ∀ {rec m : Bytes} {off : Nat},
      (∀ i, m (off + i) = segmentByte seg value i) → HoldsValue getRecBits rec seg value →
      keyCmpSegment getRecBits seg rec m (off + 1) = none := by
  have nonempty := ordinary.nonempty seg member
  by_cases nullable : seg.nullBit = 0
  · have telling := ordinary.telling seg member nullable
    unfold Telling at telling
    cases kind : seg.type with
    | text =>
        simp only [kind] at telling
        obtain ⟨value, length, differ⟩ := telling
        refine ⟨value, ?_, fun bytes holds => text_tells nullable kind differ bytes holds⟩
        unfold FitsSegment
        rw [kind]
        exact length
    | vartext1 =>
        simp only [kind] at telling
        obtain ⟨value, length, short, differ⟩ := telling
        refine ⟨value, ?_, fun bytes holds => vartext_tells nullable kind short differ bytes holds⟩
        unfold FitsSegment
        rw [kind]
        refine ⟨length, ?_⟩
        rcases seg.packLength kind with one | two
        · rw [one]
          exact short
        · rw [two]
          exact Nat.lt_trans short (by decide)
    | bit =>
        exact ⟨oneValue seg, oneValue_fits nonempty, fun bytes holds =>
          fixed_tells nullable (.inl kind) nonempty bytes holds⟩
    | binary =>
        exact ⟨oneValue seg, oneValue_fits nonempty, fun bytes holds =>
          fixed_tells nullable (.inr kind) nonempty bytes holds⟩
  · exact ⟨oneValue seg, oneValue_fits nonempty, fun bytes holds =>
      nullable_tells nullable bytes holds⟩

def zeroValue (seg : HaKeyseg) : List UInt8 :=
  if seg.type = .vartext1 then [] else List.replicate seg.length 0

theorem zeroValue_fits (seg : HaKeyseg) : FitsSegment seg (zeroValue seg) := by
  unfold FitsSegment zeroValue
  cases kind : seg.type with
  | vartext1 => exact ⟨Nat.zero_le _, Nat.pow_pos (by decide)⟩
  | bit =>
      refine ⟨by simp, fun bits => ?_⟩
      have first : ((List.replicate seg.length (0 : UInt8)).headD 0) = 0 := by
        cases seg.length <;> rfl
      simp only [reduceCtorEq, if_false, first]
      exact Nat.two_pow_pos _
  | text => simp
  | binary => simp

theorem zeroValue_byte (seg : HaKeyseg) (i : Nat) : segmentByte seg (zeroValue seg) i = 0 := by
  unfold segmentByte
  split
  · rfl
  · split
    · rename_i within
      have kind : seg.type = .vartext1 := by
        by_contra other
        rw [HaKeyseg.pack, if_neg other] at within
        omega
      rw [zeroValue, if_pos kind]
      split <;> rfl
    · unfold zeroValue
      split
      · rfl
      · exact zeros_getD _ _

theorem packBytes_zero (segs : List HaKeyseg) (i : Nat) :
    packBytes (segs.map fun seg => (seg, zeroValue seg)) i = 0 := by
  induction segs generalizing i with
  | nil => rfl
  | cons seg rest ih =>
      rw [List.map_cons]
      rcases Nat.lt_or_ge i seg.packedLength with inside | beyond
      · rw [packBytes_head inside, zeroValue_byte]
      · obtain ⟨j, rfl⟩ := Nat.exists_eq_add_of_le beyond
        rw [packBytes_tail (seg, zeroValue seg), ih]

theorem packBytes_append (before rest : List (HaKeyseg × List UInt8)) (i : Nat) :
    packBytes (before ++ rest)
      (((before.map Prod.fst).map HaKeyseg.packedLength).sum + i) = packBytes rest i := by
  induction before with
  | nil => simp only [List.map_nil, List.sum_nil, Nat.zero_add, List.nil_append]
  | cons pair before ih =>
      rw [List.map_cons, List.map_cons, List.sum_cons, Nat.add_assoc, List.cons_append,
        packBytes_tail, ih]

theorem packBytes_alone {seg : HaKeyseg} {value : List UInt8} (fits : FitsSegment seg value)
    (rest : List HaKeyseg) (i : Nat) :
    packBytes ((seg, value) :: rest.map fun later => (later, zeroValue later)) i =
      segmentByte seg value i := by
  rcases Nat.lt_or_ge i seg.packedLength with inside | beyond
  · exact packBytes_head inside
  · have le := fits.length_le
    have past := beyond
    rw [HaKeyseg.packedLength_eq] at past
    obtain ⟨j, rfl⟩ := Nat.exists_eq_add_of_le beyond
    rw [packBytes_tail (seg, value), packBytes_zero, segmentByte, if_neg (by omega),
      if_neg (by omega), List.getD_eq_getElem?_getD, List.getElem?_eq_none (by omega)]
    rfl

theorem uneven_split {segs : List HaKeyseg} (early : ¬ ∀ seg ∈ segs.dropLast, ¬ seg.uneven) :
    ∃ before bits next rest, segs = before ++ bits :: next :: rest ∧ bits.uneven ∧
      ∀ seg ∈ before, ¬ seg.uneven := by
  induction segs with
  | nil => exact absurd (fun seg member => by cases member) early
  | cons seg rest ih =>
      cases rest with
      | nil => exact absurd (fun seg member => by cases member) early
      | cons next rest =>
          by_cases bits : seg.uneven
          · exact ⟨[], seg, next, rest, rfl, bits, fun _ member => by cases member⟩
          · have later : ¬ ∀ seg ∈ (next :: rest).dropLast, ¬ seg.uneven := by
              intro even
              apply early
              intro other member
              rw [List.dropLast_cons_cons, List.mem_cons] at member
              rcases member with rfl | member
              · exact bits
              · exact even other member
            obtain ⟨before, found, follower, others, split, uneven, even⟩ := ih later
            refine ⟨seg :: before, found, follower, others, by rw [split]; rfl, uneven,
              fun other member => ?_⟩
            rcases List.mem_cons.mp member with rfl | member
            · exact bits
            · exact even other member

theorem bitsLast_of_formsAgree {getRecBits : Bytes → Nat → Nat → UInt8} {kd : FmKeydef}
    (ordinary : Ordinary getRecBits kd) (agrees : FormsAgree getRecBits kd) : BitsLast kd := by
  by_contra early
  obtain ⟨before, bits, next, rest, split, uneven, even⟩ := uneven_split early
  have nextMember : next ∈ kd.seg := by
    rw [split]
    simp
  obtain ⟨value, fits, tells⟩ := ordinary.tells nextMember
  -- zeros everywhere but in the segment after the bits
  let zero : HaKeyseg → HaKeyseg × List UInt8 := fun seg => (seg, zeroValue seg)
  let prior := (before ++ [bits]).map zero
  let values := prior ++ (next, value) :: rest.map zero
  have names : values.map Prod.fst = kd.seg := by
    simp [values, prior, zero, split, Function.comp_def]
  have fit : ∀ pair ∈ values, FitsSegment pair.1 pair.2 := by
    intro pair member
    simp only [values, prior, zero, List.mem_append, List.mem_map, List.mem_cons] at member
    rcases member with ⟨seg, _, rfl⟩ | rfl | ⟨seg, _, rfl⟩
    · exact zeroValue_fits seg
    · exact fits
    · exact zeroValue_fits seg
  obtain ⟨rec, holds⟩ := ordinary.columns values names fit
  obtain ⟨layout, equal⟩ := packBytes_equal (fun i => by rw [Nat.zero_add]) fit holds
    (fun pair member => ordinary.refl pair.1 (names ▸ List.mem_map_of_mem member))
  rw [names] at layout equal
  have compared := (agrees rec (packBytes values) layout).1.mpr equal
  -- the walk is in step up to the bits and one byte ahead after them
  rw [split] at layout equal
  obtain ⟨layoutBefore, layoutBits, _⟩ := Layout.append.mp layout
  obtain ⟨_, sameBits, _⟩ := KeysEqual.append.mp equal
  have found : ¬ recNull bits rec := (holds (zero bits) (by simp [values, prior])).1
  have slips : slip bits rec = 1 := if_pos ⟨uneven, found⟩
  unfold fmKeyCmp at compared
  rw [split, keyCmp_walk getRecBits layoutBefore even, keyCmpFrom,
    keyCmpSegment_eq getRecBits layoutBits.readable, if_pos sameBits, slips] at compared
  have ahead : 0 + (before.map HaKeyseg.packedLength).sum + bits.marker + bits.pack + 1 +
      bits.length = ((prior.map Prod.fst).map HaKeyseg.packedLength).sum + 1 := by
    have priorNames : prior.map Prod.fst = before ++ [bits] := by
      simp [prior, zero, Function.comp_def]
    rw [priorNames, List.map_append, List.sum_append, List.map_cons, List.map_nil, List.sum_cons,
      List.sum_nil, HaKeyseg.packedLength_eq bits]
    omega
  have bytes : ∀ i, packBytes values (((prior.map Prod.fst).map HaKeyseg.packedLength).sum + i) =
      segmentByte next value i := by
    intro i
    rw [packBytes_append, packBytes_alone fits]
  have differ := tells bytes (holds (next, value) (by simp [values]))
  have last := compared.2
  dsimp only at last
  rw [keyCmpFrom, ahead, differ] at last
  cases last

/-- Record and packed key agree on every key whose uneven bits come last, and on no other
ordinary key. -/
theorem formsAgree_iff (getRecBits : Bytes → Nat → Nat → UInt8) (kd : FmKeydef)
    (hashes : ∀ seg ∈ kd.seg, ∀ l r, seg.charset.strnncollsp l r = 0 →
      ∀ nr, seg.charset.hashSort l nr = seg.charset.hashSort r nr) :
    (BitsLast kd → FormsAgree getRecBits kd) ∧
      (Ordinary getRecBits kd → (FormsAgree getRecBits kd ↔ BitsLast kd)) :=
  ⟨formsAgree_of_bitsLast hashes, fun ordinary =>
    ⟨bitsLast_of_formsAgree ordinary, formsAgree_of_bitsLast hashes⟩⟩

/-! ### A BIT(1) before a byte -/

def bitKeydef : FmKeydef :=
  fmPrepareKeydef true
    [⟨.bit, 1, 1, caselessCharset, 0, 0, 1, 0, 0, by decide⟩,
      ⟨.other, 1, 1, caselessCharset, 0, 0, 0, 0, 0, wholeByte⟩]

/-- The record with the bit set and the byte 5 has the packed key 1, 5. The byte is compared
with what follows the key. -/
theorem formsAgree_broken : ¬ FormsAgree getRecBits bitKeydef := by
  intro agrees
  let record : Bytes := fun i => [1, 5].getD i 0
  have layout : Layout record bitKeydef.seg 0 := by
    refine ⟨⟨?_, ?_⟩, ⟨?_, ?_⟩, trivial⟩ <;> intro impossible <;> revert impossible <;> decide
  have equal : KeysEqual getRecBits record record bitKeydef.seg 0 := by
    refine ⟨?_, ?_, trivial⟩ <;> decide +kernel
  have compared : fmKeyCmp getRecBits bitKeydef record record = 1 := by decide +kernel
  rw [(agrees record record layout).1.mpr equal] at compared
  cases compared

theorem bitKeydef_hashes : ∀ seg ∈ bitKeydef.seg, ∀ l r, seg.charset.strnncollsp l r = 0 →
    ∀ nr, seg.charset.hashSort l nr = seg.charset.hashSort r nr := by
  intro seg member
  obtain ⟨part, among, rfl⟩ := List.mem_map.mp member
  simp only [List.mem_cons, List.not_mem_nil, or_false] at among
  rcases among with rfl | rfl <;> exact caselessCharset_lawful.hashes

theorem bitKeydef_ordinary : Ordinary getRecBits bitKeydef where
  refl seg member := by
    obtain ⟨part, among, rfl⟩ := List.mem_map.mp member
    simp only [List.mem_cons, List.not_mem_nil, or_false] at among
    rcases among with rfl | rfl <;> exact caselessCharset_lawful.refl
  nonempty seg member := by
    obtain ⟨part, among, rfl⟩ := List.mem_map.mp member
    simp only [List.mem_cons, List.not_mem_nil, or_false] at among
    rcases among with rfl | rfl <;> decide
  telling seg member _ := by
    obtain ⟨part, among, rfl⟩ := List.mem_map.mp member
    simp only [List.mem_cons, List.not_mem_nil, or_false] at among
    rcases among with rfl | rfl <;> trivial
  columns values names fit := by
    rcases values with _ | ⟨⟨bits, first⟩, _ | ⟨⟨byte, second⟩, _ | _⟩⟩
    case nil => cases names
    case cons.nil => cases (List.cons.inj names).2
    case cons.cons.cons => cases (List.cons.inj (List.cons.inj names).2).2
    case cons.cons.nil =>
        obtain ⟨rfl, rest⟩ := List.cons.inj names
        obtain ⟨rfl, _⟩ := List.cons.inj rest
        obtain ⟨one, small⟩ := fit _ List.mem_cons_self
        have length : second.length = 1 := fit _ (List.mem_cons_of_mem _ List.mem_cons_self)
        obtain ⟨bit, rfl⟩ := List.length_eq_one_iff.mp one
        obtain ⟨data, rfl⟩ := List.length_eq_one_iff.mp length
        have below : bit.toNat < 2 := small ⟨rfl, Nat.one_ne_zero⟩
        refine ⟨fun i => if i = 0 then bit else data, fun pair member => ?_⟩
        rcases List.mem_cons.mp member with rfl | member
        · refine ⟨fun null => null.1 rfl, ?_⟩
          change [UInt8.ofNat ((bit.toNat + 256 * data.toNat) >>> 0 &&& ((1 <<< 1) - 1))] = [bit]
          rw [Nat.shiftRight_zero, show (1 <<< 1) - 1 = 2 ^ 1 - 1 from rfl,
            Nat.and_two_pow_sub_one_eq_mod, show (bit.toNat + 256 * data.toNat) % 2 ^ 1 = bit.toNat by
              omega, UInt8.ofNat_toNat]
        · obtain rfl := List.mem_singleton.mp member
          exact ⟨fun null => null.1 rfl, rfl⟩

/-- An ordinary key on which they part, and the key with the two segments in the other order. -/
theorem formsAgree_iff_bitKeydef :
    ¬ FormsAgree getRecBits bitKeydef ∧
      FormsAgree getRecBits (fmPrepareKeydef true
        [⟨.other, 1, 1, caselessCharset, 0, 0, 0, 0, 0, by decide⟩,
          ⟨.bit, 1, 1, caselessCharset, 0, 0, 1, 0, 0, by decide⟩]) := by
  constructor
  · rw [(formsAgree_iff getRecBits bitKeydef bitKeydef_hashes).2 bitKeydef_ordinary]
    intro last
    exact last _ List.mem_cons_self ⟨rfl, Nat.one_ne_zero⟩
  · refine (formsAgree_iff getRecBits _ fun seg member => ?_).1 fun seg member => ?_
    · obtain ⟨part, among, rfl⟩ := List.mem_map.mp member
      simp only [List.mem_cons, List.not_mem_nil, or_false] at among
      rcases among with rfl | rfl <;> exact caselessCharset_lawful.hashes
    · obtain rfl := List.mem_singleton.mp member
      intro bits
      cases bits.1

end Fastmem
