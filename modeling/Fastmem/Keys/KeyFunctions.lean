/-
Key definitions and the functions that hash and compare keys (fm_hash.cc, the
segment part of fm_create.cc).

A pointer is the bytes from it on; a cursor into a packed key is an offset. The
collation functions of a charset and get_rec_bits belong to the server: a
charset is what the code calls of it, and `getRecBits` is a parameter. Hash
values are those of a 64-bit ulong.
-/

import Fastmem.Core.Share

set_option autoImplicit false

namespace Fastmem

/-! ### Bytes -/

abbrev Bytes := Nat → UInt8

/-- The bytes from offset `pos` to `pos + length`. -/
def slice (m : Bytes) (pos length : Nat) : List UInt8 := (List.range' pos length).map m

def uint2korr (m : Bytes) (pos : Nat) : Nat := (m pos).toNat + 256 * (m (pos + 1)).toNat

/-! ### Key definitions -/

/-- What the code uses of CHARSET_INFO. A string argument is the bytes between its pointers,
and the two words of a hash change together. -/
structure Charset where
  mbmaxlen : Nat
  charpos : List UInt8 → Nat → Nat
  strnncollsp : List UInt8 → List UInt8 → Int
  hashSort : List UInt8 → UInt64 × UInt64 → UInt64 × UInt64

/-- The segment types that are left after fm_prepare_create_info. -/
inductive KeyType
  | text
  | vartext1
  | bit
  | binary
  deriving DecidableEq, Repr

/-- HA_KEYSEG. In a VARCHAR segment `bitStart` is the number of length bytes in the record. -/
structure HaKeyseg where
  type : KeyType
  start : Nat
  length : Nat
  charset : Charset
  nullBit : UInt8
  nullPos : Nat
  bitStart : Nat
  bitLength : Nat
  bitPos : Nat
  packLength : type = .vartext1 → bitStart = 1 ∨ bitStart = 2
  bitsCounted : type = .bit → bitLength ≠ 0 → 0 < length

def HaKeyseg.uneven (seg : HaKeyseg) : Prop := seg.type = .bit ∧ seg.bitLength ≠ 0

instance (seg : HaKeyseg) : Decidable seg.uneven :=
  inferInstanceAs (Decidable (seg.type = .bit ∧ seg.bitLength ≠ 0))

def HaKeyseg.packedLength (seg : HaKeyseg) : Nat :=
  (if seg.nullBit ≠ 0 then 1 else 0) + (if seg.type = .vartext1 then 2 else 0) + seg.length

/-- FM_KEYDEF; `nosame` and `nullPartKey` are the flags HA_NOSAME and HA_NULL_PART_KEY. -/
structure FmKeydef where
  seg : List HaKeyseg
  nosame : Bool
  nullPartKey : Bool
  length : Nat
  length_eq : length = (seg.map HaKeyseg.packedLength).sum

/-! ### fm_prepare_create_info: segments -/

/-- What `field->key_type()` returns; `other` stands for the types that become
HA_KEYTYPE_BINARY. -/
inductive FieldKeyType
  | text
  | vartext1
  | vartext2
  | varbinary1
  | varbinary2
  | bit
  | other
  deriving DecidableEq, Repr

/-- A key part of the server with its field. -/
structure KeyPart where
  keyType : FieldKeyType
  offset : Nat
  length : Nat
  charset : Charset
  nullBit : UInt8
  nullPos : Nat
  bitLen : Nat
  bitOfs : Nat
  bitPtr : Nat
  bitsCounted : keyType = .bit → bitLen ≠ 0 → 0 < length

def FieldKeyType.segmentType : FieldKeyType → KeyType
  | .text => .text
  | .vartext1 | .vartext2 | .varbinary1 | .varbinary2 => .vartext1
  | .bit => .bit
  | .other => .binary

/-- `bit_start` holds a bit offset, then a number of length bytes. -/
def KeyPart.bitStart (part : KeyPart) : Nat :=
  match part.keyType with
  | .bit => part.bitOfs
  | .vartext1 | .varbinary1 => 1
  | .vartext2 | .varbinary2 => 2
  | .text | .other => 0

def KeyPart.segment (part : KeyPart) : HaKeyseg where
  type := part.keyType.segmentType
  start := part.offset
  length := part.length
  charset := part.charset
  nullBit := part.nullBit
  nullPos := if part.nullBit ≠ 0 then part.nullPos else 0
  bitStart := part.bitStart
  bitLength := if part.keyType = .bit then part.bitLen else 0
  bitPos := if part.keyType = .bit then part.bitPtr else 0
  packLength variable_ := by
    unfold KeyPart.bitStart
    cases kind : part.keyType <;> rw [kind] at variable_ <;>
      first
        | exact .inl rfl
        | exact .inr rfl
        | cases variable_
  bitsCounted bits := by
    have kind : part.keyType = .bit := by
      cases kind : part.keyType <;> rw [kind] at bits <;>
        first
          | rfl
          | cases bits
    rw [if_pos kind]
    exact part.bitsCounted kind

/-- The length the loop over the parts of a key adds up. -/
def packedKeyLength : List KeyPart → Nat
  | [] => 0
  | part :: rest =>
      let marker := if part.nullBit ≠ 0 then 1 else 0
      let pack :=
        match part.keyType with
        | .vartext1 | .vartext2 | .varbinary1 | .varbinary2 => 2
        | .text | .bit | .other => 0
      part.length + marker + pack + packedKeyLength rest

theorem packedKeyLength_eq (parts : List KeyPart) :
    packedKeyLength parts =
      ((parts.map KeyPart.segment).map HaKeyseg.packedLength).sum := by
  induction parts with
  | nil => rfl
  | cons part rest ih =>
      have first : part.segment.packedLength = part.length +
          (if part.nullBit ≠ 0 then 1 else 0) +
          (match part.keyType with
            | .vartext1 | .vartext2 | .varbinary1 | .varbinary2 => 2
            | .text | .bit | .other => 0) := by
        unfold HaKeyseg.packedLength
        cases kind : part.keyType <;>
          simp only [KeyPart.segment, kind, FieldKeyType.segmentType, reduceCtorEq, if_true,
            if_false] <;>
          omega
      rw [List.map_cons, List.map_cons, List.sum_cons, first, ← ih]
      rfl

/-- The flags of a key keep HA_NOSAME; HA_NULL_PART_KEY is masked out. -/
def fmPrepareKeydef (nosame : Bool) (parts : List KeyPart) : FmKeydef where
  seg := parts.map KeyPart.segment
  nosame := nosame
  nullPartKey := false
  length := packedKeyLength parts
  length_eq := packedKeyLength_eq parts

/-! ### Hashing -/

def hashByte (nr : UInt64 × UInt64) (byte : UInt8) : UInt64 × UInt64 :=
  (nr.1 ^^^ (((nr.1.toUInt32 &&& 63).toUInt64 + nr.2) * byte.toUInt64 + (nr.1 <<< 8)), nr.2 + 3)

def hashNull (nr : UInt64 × UInt64) : UInt64 × UInt64 := (nr.1 ^^^ ((nr.1 <<< 1) ||| 1), nr.2)

/-- The part of a segment of fm_hashnr after its null byte: `key` already stands past the
data bytes, `pos` before them. -/
def hashnrValue (seg : HaKeyseg) (packed : Bytes) (pos key : Nat) (nr : UInt64 × UInt64) :
    Nat × UInt64 × UInt64 :=
  let cs := seg.charset
  match seg.type with
  | .text =>
      let length :=
        if cs.mbmaxlen > 1 then
          min seg.length (cs.charpos (slice packed pos seg.length) (seg.length / cs.mbmaxlen))
        else seg.length
      (key, cs.hashSort (slice packed pos length) nr)
  | .vartext1 =>
      let length := uint2korr packed pos
      let length :=
        if cs.mbmaxlen > 1 then
          min length (cs.charpos (slice packed (pos + 2) length) (seg.length / cs.mbmaxlen))
        else length
      (key + 2, cs.hashSort (slice packed (pos + 2) length) nr)
  | .bit | .binary => (key, (slice packed pos (key - pos)).foldl hashByte nr)

def hashnrSegment (packed : Bytes) (state : Nat × UInt64 × UInt64) (seg : HaKeyseg) :
    Nat × UInt64 × UInt64 :=
  let pos := state.1
  let key := pos + seg.length
  if seg.nullBit ≠ 0 then
    if packed pos ≠ 0 then
      (if seg.type = .vartext1 then key + 1 + 2 else key + 1, hashNull state.2)
    else
      hashnrValue seg packed (pos + 1) (key + 1) state.2
  else
    hashnrValue seg packed pos key state.2

def fmHashnr (kd : FmKeydef) (packed : Bytes) : UInt64 :=
  (kd.seg.foldl (hashnrSegment packed) (0, 1, 4)).2.1

section

variable (getRecBits : Bytes → Nat → Nat → UInt8)

def recBits (seg : HaKeyseg) (rec : Bytes) : UInt8 :=
  getRecBits (fun i => rec (seg.bitPos + i)) seg.bitStart seg.bitLength

def recLength (seg : HaKeyseg) (rec : Bytes) : Nat :=
  if seg.bitStart = 1 then (rec seg.start).toNat else uint2korr rec seg.start

def recHashnrSegment (rec : Bytes) (nr : UInt64 × UInt64) (seg : HaKeyseg) : UInt64 × UInt64 :=
  let cs := seg.charset
  let pos := seg.start
  if seg.nullBit ≠ 0 ∧ rec seg.nullPos &&& seg.nullBit ≠ 0 then
    hashNull nr
  else
    match seg.type with
    | .text =>
        let length :=
          if cs.mbmaxlen > 1 then
            min (cs.charpos (slice rec pos seg.length) (seg.length / cs.mbmaxlen)) seg.length
          else seg.length
        cs.hashSort (slice rec pos length) nr
    | .vartext1 =>
        let length := recLength seg rec
        let length :=
          if cs.mbmaxlen > 1 then
            min length (cs.charpos (slice rec (pos + seg.bitStart) length)
              (seg.length / cs.mbmaxlen))
          else min length seg.length
        cs.hashSort (slice rec (pos + seg.bitStart) length) nr
    | .bit | .binary =>
        if seg.uneven then
          (slice rec pos (seg.length - 1)).foldl hashByte
            (hashByte nr (recBits getRecBits seg rec))
        else
          (slice rec pos seg.length).foldl hashByte nr

def fmRecHashnr (kd : FmKeydef) (rec : Bytes) : UInt64 :=
  (kd.seg.foldl (recHashnrSegment getRecBits rec) (1, 4)).1

/-! ### Comparing -/

/-- Whether two records differ in a segment that is not NULL in either. -/
def recKeyDiffer (seg : HaKeyseg) (rec1 rec2 : Bytes) : Bool :=
  let cs := seg.charset
  match seg.type with
  | .text =>
      let pos := seg.start
      let cut (rec : Bytes) : Nat :=
        if cs.mbmaxlen > 1 then
          min (cs.charpos (slice rec pos seg.length) (seg.length / cs.mbmaxlen)) seg.length
        else seg.length
      cs.strnncollsp (slice rec1 pos (cut rec1)) (slice rec2 pos (cut rec2)) != 0
  | .vartext1 =>
      -- the pointer moves past the length: by one byte, or by two whatever bit_start is
      let pos := if seg.bitStart = 1 then seg.start + 1 else seg.start + 2
      let cut (rec : Bytes) : Nat :=
        let length := recLength seg rec
        if cs.mbmaxlen > 1 then
          min (cs.charpos (slice rec pos length) (seg.length / cs.mbmaxlen)) length
        else min length seg.length
      cs.strnncollsp (slice rec1 pos (cut rec1)) (slice rec2 pos (cut rec2)) != 0
  | .bit | .binary =>
      if seg.uneven then
        recBits getRecBits seg rec1 != recBits getRecBits seg rec2 ||
          slice rec1 seg.start (seg.length - 1) != slice rec2 seg.start (seg.length - 1)
      else
        slice rec1 seg.start seg.length != slice rec2 seg.start seg.length

/-- Whether the loop of fm_rec_key_cmp returns 1 at a segment. -/
def recKeyCmpSegment (seg : HaKeyseg) (rec1 rec2 : Bytes) : Bool :=
  if seg.nullBit ≠ 0 then
    if rec1 seg.nullPos &&& seg.nullBit ≠ rec2 seg.nullPos &&& seg.nullBit then true
    else if rec1 seg.nullPos &&& seg.nullBit ≠ 0 then false
    else recKeyDiffer getRecBits seg rec1 rec2
  else
    recKeyDiffer getRecBits seg rec1 rec2

def fmRecKeyCmp (kd : FmKeydef) (rec1 rec2 : Bytes) : Int :=
  if kd.seg.any fun seg => recKeyCmpSegment getRecBits seg rec1 rec2 then 1 else 0

/-- The part of a segment of fm_key_cmp after its null byte: `none` where the function
returns 1, else the cursor before the loop header moves it. -/
def keyCmpValue (seg : HaKeyseg) (rec packed : Bytes) (key : Nat) : Option Nat :=
  let cs := seg.charset
  match seg.type with
  | .text =>
      let pos := seg.start
      let cut (m : Bytes) (pos : Nat) : Nat :=
        if cs.mbmaxlen > 1 then
          min (cs.charpos (slice m pos seg.length) (seg.length / cs.mbmaxlen)) seg.length
        else seg.length
      if cs.strnncollsp (slice rec pos (cut rec pos)) (slice packed key (cut packed key)) ≠ 0 then
        none
      else
        some key
  | .vartext1 =>
      let pos := seg.start + seg.bitStart
      let lengthRec := recLength seg rec
      let lengthKey := uint2korr packed key
      let key := key + 2
      let cutKey :=
        if cs.mbmaxlen > 1 then
          min lengthKey (cs.charpos (slice packed key lengthKey) (seg.length / cs.mbmaxlen))
        else lengthKey
      let cutRec :=
        if cs.mbmaxlen > 1 then
          min lengthRec (cs.charpos (slice rec pos lengthRec) (seg.length / cs.mbmaxlen))
        else min lengthRec seg.length
      if cs.strnncollsp (slice rec pos cutRec) (slice packed key cutKey) ≠ 0 then none
      else some key
  | .bit | .binary =>
      if seg.uneven then
        if recBits getRecBits seg rec ≠ packed key then none
        else if slice rec seg.start (seg.length - 1) ≠ slice packed (key + 1) (seg.length - 1) then
          none
        else some (key + 1)
      else
        if slice rec seg.start seg.length ≠ slice packed key seg.length then none else some key

def keyCmpSegment (seg : HaKeyseg) (rec packed : Bytes) (key : Nat) : Option Nat :=
  if seg.nullBit ≠ 0 then
    let foundNull : UInt8 := if rec seg.nullPos &&& seg.nullBit ≠ 0 then 1 else 0
    if foundNull ≠ packed key then none
    else if foundNull ≠ 0 then some (if seg.type = .vartext1 then key + 1 + 2 else key + 1)
    else keyCmpValue getRecBits seg rec packed (key + 1)
  else
    keyCmpValue getRecBits seg rec packed key

/-- The loop of fm_key_cmp; its header moves the cursor by `seg->length`. -/
def keyCmpFrom (rec packed : Bytes) : List HaKeyseg → Nat → Int
  | [], _ => 0
  | seg :: rest, key =>
      match keyCmpSegment getRecBits seg rec packed key with
      | none => 1
      | some key => keyCmpFrom rec packed rest (key + seg.length)

def fmKeyCmp (kd : FmKeydef) (rec packed : Bytes) : Int :=
  keyCmpFrom getRecBits rec packed kd.seg 0

end

def fmIfNullInKey (kd : FmKeydef) (record : Bytes) : Bool :=
  kd.seg.any fun seg => seg.nullBit != 0 && record seg.nullPos &&& seg.nullBit != 0

end Fastmem
