/-
Packed keys made from records (fm_make_key).

fm_make_key goes on behind the bytes it has copied of a segment. The walks that
read a packed key go on behind the whole segment, and behind two length bytes
where a VARCHAR has them. A key is read as it was made when every segment before
the last is copied whole and the walks find in each segment what they need of it.
-/

import Fastmem.Keys.PackedKeys
import Mathlib.Data.List.GetD

set_option autoImplicit false

namespace Fastmem

/-! ### fm_make_key -/

def memcpy (m : Bytes) (pos : Nat) (bytes : List UInt8) : Bytes := fun i =>
  if pos ≤ i ∧ i < pos + bytes.length then bytes.getD (i - pos) 0 else m i

/-- `char_length` before the type of the segment changes it. In a VARCHAR segment the length
bytes of the record are counted as characters. -/
def charLength (seg : HaKeyseg) (rec : Bytes) : Nat :=
  let cs := seg.charset
  if cs.mbmaxlen > 1 then
    min (cs.charpos (slice rec seg.start seg.length) (seg.length / cs.mbmaxlen)) seg.length
  else seg.length

section

variable (getRecBits : Bytes → Nat → Nat → UInt8)

/-- One round of fm_make_key on the memory from `key` on and the cursor into it. -/
def makeKeySegment (rec : Bytes) (state : Bytes × Nat) (seg : HaKeyseg) : Bytes × Nat :=
  let (m, key) :=
    if seg.nullBit ≠ 0 then
      (memcpy state.1 state.2 [if rec seg.nullPos &&& seg.nullBit ≠ 0 then 1 else 0], state.2 + 1)
    else state
  if seg.type = .vartext1 then
    let count := charLength seg rec + seg.bitStart
    (memcpy m key (slice rec seg.start count), key + count)
  else if seg.uneven then
    let count := charLength seg rec - 1
    (memcpy (memcpy m key [recBits getRecBits seg rec]) (key + 1) (slice rec seg.start count),
      key + 1 + count)
  else
    let count := charLength seg rec
    (memcpy m key (slice rec seg.start count), key + count)

/-- The memory at the key buffer after fm_make_key. -/
def fmMakeKey (kd : FmKeydef) (m rec : Bytes) : Bytes :=
  (kd.seg.foldl (makeKeySegment getRecBits rec) (m, 0)).1

def markerBytes (seg : HaKeyseg) (rec : Bytes) : List UInt8 :=
  if seg.nullBit ≠ 0 then [if rec seg.nullPos &&& seg.nullBit ≠ 0 then 1 else 0] else []

def copiedBytes (seg : HaKeyseg) (rec : Bytes) : List UInt8 :=
  if seg.type = .vartext1 then slice rec seg.start (charLength seg rec + seg.bitStart)
  else if seg.uneven then
    recBits getRecBits seg rec :: slice rec seg.start (charLength seg rec - 1)
  else slice rec seg.start (charLength seg rec)

/-- The bytes that fm_make_key writes. -/
def madeBytes (rec : Bytes) (segs : List HaKeyseg) : List UInt8 :=
  segs.flatMap fun seg => markerBytes seg rec ++ copiedBytes getRecBits seg rec

end

theorem memcpy_nil (m : Bytes) (pos : Nat) : memcpy m pos [] = m := by
  funext i
  apply if_neg
  rw [List.length_nil]
  omega

theorem memcpy_append (m : Bytes) (pos : Nat) (left right : List UInt8) :
    memcpy (memcpy m pos left) (pos + left.length) right = memcpy m pos (left ++ right) := by
  funext i
  unfold memcpy
  rw [List.length_append]
  by_cases second : pos + left.length ≤ i ∧ i < pos + left.length + right.length
  · have whole : pos ≤ i ∧ i < pos + (left.length + right.length) := by omega
    rw [if_pos second, if_pos whole, List.getD_append_right _ _ _ _ (by omega),
      Nat.sub_add_eq]
  · rw [if_neg second]
    by_cases first : pos ≤ i ∧ i < pos + left.length
    · have whole : pos ≤ i ∧ i < pos + (left.length + right.length) := by omega
      rw [if_pos first, if_pos whole, List.getD_append _ _ _ _ (by omega)]
    · have outside : ¬ (pos ≤ i ∧ i < pos + (left.length + right.length)) := by omega
      rw [if_neg first, if_neg outside]

theorem memcpy_cons (m : Bytes) (pos : Nat) (first : UInt8) (rest : List UInt8) :
    memcpy m pos (first :: rest) = memcpy (memcpy m pos [first]) (pos + 1) rest :=
  (memcpy_append m pos [first] rest).symm

theorem slice_memcpy (m : Bytes) (pos : Nat) (bytes : List UInt8) :
    slice (memcpy m pos bytes) pos bytes.length = bytes := by
  apply slice_eq_of
  intro i below
  have inside : pos ≤ pos + i ∧ pos + i < pos + bytes.length := by omega
  unfold memcpy
  rw [if_pos inside, Nat.add_sub_cancel_left]

section

variable {getRecBits : Bytes → Nat → Nat → UInt8}

theorem madeBytes_cons (rec : Bytes) (seg : HaKeyseg) (rest : List HaKeyseg) :
    madeBytes getRecBits rec (seg :: rest) =
      (markerBytes seg rec ++ copiedBytes getRecBits seg rec) ++ madeBytes getRecBits rec rest :=
  List.flatMap_cons

theorem makeKeySegment_eq (rec m : Bytes) (key : Nat) (seg : HaKeyseg) :
    makeKeySegment getRecBits rec (m, key) seg =
      (memcpy m key (markerBytes seg rec ++ copiedBytes getRecBits seg rec),
        key + (markerBytes seg rec ++ copiedBytes getRecBits seg rec).length) := by
  have marker : (if seg.nullBit ≠ 0 then
      (memcpy m key [if rec seg.nullPos &&& seg.nullBit ≠ 0 then 1 else 0], key + 1)
      else (m, key)) =
      (memcpy m key (markerBytes seg rec), key + (markerBytes seg rec).length) := by
    unfold markerBytes
    split
    · rfl
    · rw [memcpy_nil]
      rfl
  unfold makeKeySegment
  dsimp only
  rw [marker, ← memcpy_append, List.length_append, ← Nat.add_assoc key]
  dsimp only
  generalize memcpy m key (markerBytes seg rec) = m
  generalize key + (markerBytes seg rec).length = key
  unfold copiedBytes
  split
  · rw [slice_length]
  · split
    · rw [← memcpy_cons, List.length_cons, slice_length, Nat.add_right_comm key 1]
      rfl
    · rw [slice_length]

theorem fmMakeKey_eq (kd : FmKeydef) (m rec : Bytes) :
    fmMakeKey getRecBits kd m rec = memcpy m 0 (madeBytes getRecBits rec kd.seg) := by
  have walk : ∀ segs key, segs.foldl (makeKeySegment getRecBits rec) (m, key) =
      (memcpy m key (madeBytes getRecBits rec segs),
        key + (madeBytes getRecBits rec segs).length) := by
    intro segs
    induction segs generalizing m with
    | nil =>
        intro key
        rw [madeBytes, List.flatMap_nil, memcpy_nil]
        rfl
    | cons seg rest ih =>
        intro key
        rw [List.foldl_cons, makeKeySegment_eq, ih, memcpy_append, Nat.add_assoc key,
          ← List.length_append, madeBytes_cons]
  unfold fmMakeKey
  rw [walk]

/-! ### What is read back -/

theorem slice_append (m : Bytes) (pos left right : Nat) :
    slice m pos (left + right) = slice m pos left ++ slice m (pos + left) right := by
  unfold slice
  rw [← List.range'_append_1, List.map_append]

theorem slice_inj {m m' : Bytes} {pos pos' length : Nat}
    (same : slice m pos length = slice m' pos' length) {i : Nat} (below : i < length) :
    m (pos + i) = m' (pos' + i) := by
  have entry := congrArg (fun list => list[i]?) same
  unfold slice at entry
  simpa [below] using entry

end

/-- Where a prefix of so many characters ends does not depend on what follows it, as in every
well-formed string. -/
def Charset.Cuts (cs : Charset) (string : List UInt8) (count : Nat) : Prop :=
  ∀ tail, cs.charpos (string.take (cs.charpos string count) ++ tail) count =
    cs.charpos string count

/-- The copied bytes hold the string, or the characters of it that the key holds. -/
def Kept (seg : HaKeyseg) (string : List UInt8) (copied : Nat) : Prop :=
  string.length ≤ copied ∨
    seg.charset.mbmaxlen > 1 ∧
      seg.charset.charpos string (seg.length / seg.charset.mbmaxlen) ≤ copied ∧
      seg.charset.Cuts string (seg.length / seg.charset.mbmaxlen)

theorem Kept.withinPrefix_eq {seg : HaKeyseg} {string read : List UInt8} {copied : Nat}
    (kept : Kept seg string copied) (length : read.length = string.length)
    (same : read.take copied = string.take copied) :
    withinPrefix seg read = withinPrefix seg string := by
  rcases kept with whole | ⟨multi, inside, cuts⟩
  · rw [List.take_of_length_le whole, List.take_of_length_le (length ▸ whole)] at same
    rw [same]
  · unfold withinPrefix
    rw [if_pos multi, if_pos multi]
    generalize seg.length / seg.charset.mbmaxlen = count at inside cuts ⊢
    have front : read.take (seg.charset.charpos string count) =
        string.take (seg.charset.charpos string count) := by
      have shorter := congrArg (List.take (seg.charset.charpos string count)) same
      rwa [List.take_take, List.take_take, Nat.min_eq_left inside] at shorter
    have end_ : seg.charset.charpos read count = seg.charset.charpos string count := by
      have cut := cuts (read.drop (seg.charset.charpos string count))
      rwa [← front, List.take_append_drop] at cut
    rw [end_, front]

/-- The walks find in the copied bytes of a segment that is not NULL what is in the record. -/
def SegmentMade (seg : HaKeyseg) (rec : Bytes) : Prop :=
  match seg.type with
  | .text => Kept seg (recString seg rec) (charLength seg rec)
  | .vartext1 => seg.bitStart = 2 ∧ Kept seg (recString seg rec) (charLength seg rec)
  | .bit | .binary => charLength seg rec = seg.length

/-- The walks go on where fm_make_key goes on. -/
structure InStep (seg : HaKeyseg) (rec : Bytes) : Prop where
  whole : charLength seg rec = seg.length
  pack : seg.type = .vartext1 → seg.bitStart = 2
  bits : seg.uneven → recNull seg rec

/-- fm_make_key packs the record as its key is read. -/
def KeyMade (rec : Bytes) : List HaKeyseg → Prop
  | [] => True
  | seg :: rest =>
      (¬ recNull seg rec → SegmentMade seg rec) ∧ (rest ≠ [] → InStep seg rec) ∧ KeyMade rec rest

section

variable {getRecBits : Bytes → Nat → Nat → UInt8} {seg : HaKeyseg} {rec m : Bytes} {off : Nat}

theorem charLength_le (seg : HaKeyseg) (rec : Bytes) : charLength seg rec ≤ seg.length := by
  unfold charLength
  dsimp only
  split
  · exact Nat.min_le_right _ _
  · exact Nat.le_refl _

theorem valueImage_made (found : ¬ recNull seg rec) (made : SegmentMade seg rec)
    (holds : slice m off (copiedBytes getRecBits seg rec).length =
      copiedBytes getRecBits seg rec) :
    valueImage seg m off = recImage getRecBits seg rec ∧
      (seg.type = .vartext1 → ¬ seg.charset.mbmaxlen > 1 →
        uint2korr m off ≤ seg.length) := by
  unfold SegmentMade at made
  unfold copiedBytes at holds
  unfold valueImage recImage
  rw [if_neg found]
  cases kind : seg.type with
  | text =>
      have even : ¬ seg.uneven := fun bits => by cases kind.symm.trans bits.1
      simp only [kind] at made
      simp only [kind, reduceCtorEq, if_false, even, slice_length] at holds
      have string : recString seg rec = slice rec seg.start seg.length :=
        if_neg (by rw [kind]; decide)
      refine ⟨congrArg SegmentImage.text (made.withinPrefix_eq ?_ ?_), nofun⟩
      · rw [string, slice_length, slice_length]
      · rw [string, slice_take, slice_take, Nat.min_eq_left (charLength_le seg rec), holds]
  | vartext1 =>
      simp only [kind] at made
      obtain ⟨two, kept⟩ := made
      simp only [kind, if_true, two, slice_length] at holds
      have length : uint2korr m off = recLength seg rec := by
        have low : m off = rec seg.start := slice_inj holds (i := 0) (by omega)
        have high : m (off + 1) = rec (seg.start + 1) := slice_inj holds (by omega)
        unfold recLength uint2korr
        rw [if_neg (by rw [two]; decide), low, high]
      have string : recString seg rec = slice rec (seg.start + 2) (recLength seg rec) := by
        unfold recString
        rw [if_pos kind, two]
      refine ⟨congrArg SegmentImage.text (kept.withinPrefix_eq ?_ ?_), fun _ single => ?_⟩
      · rw [string, slice_length, slice_length, length]
      · rw [string, slice_take, slice_take, length]
        refine slice_congr fun i below => ?_
        rw [Nat.add_assoc, Nat.add_assoc]
        exact slice_inj holds (by omega)
      · rw [length]
        rcases kept with whole | ⟨multi, _⟩
        · rw [string, slice_length] at whole
          exact Nat.le_trans whole (charLength_le seg rec)
        · exact absurd multi single
  | bit | binary =>
      simp only [kind] at made
      refine ⟨congrArg SegmentImage.bytes ?_, nofun⟩
      unfold recData
      simp only [kind, reduceCtorEq, if_false, made] at holds
      by_cases bits : seg.uneven
      · have counted := seg.bitsCounted bits.1 bits.2
        rw [if_pos bits] at holds ⊢
        rwa [List.length_cons, slice_length, Nat.sub_add_cancel counted] at holds
      · rw [if_neg bits] at holds ⊢
        rwa [slice_length] at holds

theorem markerBytes_length (seg : HaKeyseg) (rec : Bytes) :
    (markerBytes seg rec).length = seg.marker := by
  unfold markerBytes HaKeyseg.marker
  split <;> rfl

theorem marker_made (holds : slice m off (markerBytes seg rec).length = markerBytes seg rec)
    (nullable : seg.nullBit ≠ 0) :
    m off = if rec seg.nullPos &&& seg.nullBit ≠ 0 then 1 else 0 := by
  unfold markerBytes at holds
  rw [if_pos nullable] at holds
  exact (List.cons.inj holds).1

theorem packedImage_made (made : ¬ recNull seg rec → SegmentMade seg rec)
    (marker : slice m off (markerBytes seg rec).length = markerBytes seg rec)
    (copied : slice m (off + seg.marker) (copiedBytes getRecBits seg rec).length =
      copiedBytes getRecBits seg rec) :
    packedImage seg m off = recImage getRecBits seg rec ∧ Readable seg m off := by
  have null : seg.nullBit ≠ 0 ∧ m off ≠ 0 ↔ recNull seg rec := by
    refine and_congr_right fun nullable => ?_
    rw [marker_made marker nullable]
    split <;> rename_i set <;> simp [set]
  have nullByte : seg.nullBit ≠ 0 → m off = 0 ∨ m off = 1 := by
    intro nullable
    rw [marker_made marker nullable]
    split
    · exact Or.inr rfl
    · exact Or.inl rfl
  by_cases missing : recNull seg rec
  · refine ⟨?_, nullByte, fun _ found => absurd (null.mpr missing) found⟩
    unfold packedImage recImage
    rw [if_pos (null.mpr missing), if_pos missing]
  · obtain ⟨image, fits⟩ := valueImage_made missing (made missing) copied
    refine ⟨?_, nullByte, fun kind _ => fits kind⟩
    unfold packedImage
    rw [if_neg (fun both => missing (null.mp both)), image]

/-- The walk over a key that fm_make_key has made, with any bytes behind it. -/
theorem madeKey_reads {segs : List HaKeyseg} (made : KeyMade rec segs)
    (holds : slice m off (madeBytes getRecBits rec segs).length =
      madeBytes getRecBits rec segs) :
    ReadableFrom m segs off ∧ BitsAligned m segs off ∧
      packedImages m segs off = segs.map fun seg => (seg, recImage getRecBits seg rec) := by
  induction segs generalizing off with
  | nil => exact ⟨trivial, trivial, rfl⟩
  | cons seg rest ih =>
      obtain ⟨here, inStep, later⟩ := made
      rw [madeBytes_cons, List.length_append, slice_append, List.length_append, slice_append,
        markerBytes_length] at holds
      obtain ⟨first, behind⟩ := List.append_inj holds (by simp [markerBytes_length])
      obtain ⟨marker, copied⟩ := List.append_inj first (by simp [markerBytes_length])
      rw [← markerBytes_length seg rec] at marker
      obtain ⟨image, readable⟩ := packedImage_made here marker copied
      cases rest with
      | nil =>
          refine ⟨⟨readable, trivial⟩, ⟨fun more => absurd rfl more, trivial⟩, ?_⟩
          rw [packedImages, packedImages, image]
          rfl
      | cons next others =>
          have step := inStep (List.cons_ne_nil next others)
          have span : seg.marker + (copiedBytes getRecBits seg rec).length = seg.packedLength := by
            rw [HaKeyseg.packedLength_eq]
            unfold copiedBytes HaKeyseg.pack
            rw [step.whole]
            by_cases text : seg.type = .vartext1
            · rw [if_pos text, if_pos text, slice_length, step.pack text]
              omega
            · rw [if_neg text, if_neg text]
              by_cases bits : seg.uneven
              · have counted := seg.bitsCounted bits.1 bits.2
                rw [if_pos bits, List.length_cons, slice_length]
                omega
              · rw [if_neg bits, slice_length]
                omega
          rw [span] at behind
          obtain ⟨readableRest, bitsRest, images⟩ := ih later behind
          refine ⟨⟨readable, readableRest⟩, ⟨fun _ uneven => ?_, bitsRest⟩, ?_⟩
          · rw [image]
            exact if_pos (step.bits uneven)
          · rw [packedImages, image, images]
            rfl

theorem keysEqual_iff {other : Bytes} {segs : List HaKeyseg} :
    KeysEqual getRecBits other m segs off ↔ ∀ pair ∈ packedImages m segs off,
      (recImage getRecBits pair.1 other).Same pair.1.charset pair.2 := by
  induction segs generalizing off with
  | nil => simp [KeysEqual, packedImages]
  | cons seg rest ih => rw [KeysEqual, ih, packedImages, List.forall_mem_cons]

section

variable {kd : FmKeydef} {packed : Bytes} (made : KeyMade rec kd.seg)
  (holds : slice packed 0 (madeBytes getRecBits rec kd.seg).length =
    madeBytes getRecBits rec kd.seg)

include made holds

theorem fmKeyCmp_made (other : Bytes) :
    fmKeyCmp getRecBits kd other packed = 0 ↔ ∀ seg ∈ kd.seg,
      (recImage getRecBits seg other).Same seg.charset (recImage getRecBits seg rec) := by
  obtain ⟨readable, bits, images⟩ := madeKey_reads made holds
  unfold fmKeyCmp
  rw [keyCmp_aligned readable bits, keysEqual_iff, images, List.forall_mem_map]

theorem fmHashnr_made : fmHashnr kd packed = fmRecHashnr getRecBits kd rec := by
  obtain ⟨readable, _, images⟩ := madeKey_reads made holds
  rw [fmRecHashnr_eq, fmHashnr, hashnr_walk readable, images, List.foldl_map]

end

theorem fmMakeKey_holds (kd : FmKeydef) (m rec : Bytes) :
    slice (fmMakeKey getRecBits kd m rec) 0 (madeBytes getRecBits rec kd.seg).length =
      madeBytes getRecBits rec kd.seg := by
  rw [fmMakeKey_eq]
  exact slice_memcpy m 0 _

theorem madeBytes_length_le (rec : Bytes) (segs : List HaKeyseg) :
    (madeBytes getRecBits rec segs).length ≤ (segs.map HaKeyseg.packedLength).sum := by
  induction segs with
  | nil => exact Nat.le_refl 0
  | cons seg rest ih =>
      rw [madeBytes_cons, List.length_append, List.length_append, markerBytes_length,
        List.map_cons, List.sum_cons, HaKeyseg.packedLength_eq]
      have copied : (copiedBytes getRecBits seg rec).length ≤ seg.pack + seg.length := by
        have whole := charLength_le seg rec
        unfold copiedBytes HaKeyseg.pack
        by_cases text : seg.type = .vartext1
        · rw [if_pos text, if_pos text, slice_length]
          have pack := seg.packLength text
          omega
        · rw [if_neg text, if_neg text]
          by_cases bits : seg.uneven
          · have counted := seg.bitsCounted bits.1 bits.2
            rw [if_pos bits, List.length_cons, slice_length]
            omega
          · rw [if_neg bits, slice_length]
            omega
      omega

end

/-! ### A VARCHAR with one length byte -/

theorem noBits : FieldKeyType.vartext1 = .bit → 0 ≠ 0 → 0 < 2 := by decide

def shortKeydef : FmKeydef :=
  fmPrepareKeydef true [⟨.vartext1, 0, 2, caselessCharset, 0, 0, 0, 0, 0, noBits⟩]

/-- The first character is read as the upper byte of the length. -/
theorem fmMakeKey_broken :
    let record : Bytes := fun i => [1, 0, 5].getD i 0
    fmKeyCmp getRecBits shortKeydef record
      (fmMakeKey getRecBits shortKeydef (fun _ => 0) record) ≠ 0 := by
  decide +kernel

end Fastmem
