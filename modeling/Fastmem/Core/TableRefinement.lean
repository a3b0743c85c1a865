/-
The core as an abstract table: a finite map from references (slot, generation)
to records.

`TableStep` says what each call means on the map. The refinement theorem matches
every serial run of the core with a run of abstract steps, call by call and
result by result. Uniqueness of the live rows on unique keys is part of the
invariant: an update checks only the keys it changes.
-/

import Fastmem.Core.SerialRuns
import Mathlib.Data.Set.Finite.Basic

set_option autoImplicit false

namespace Fastmem

variable {n : Nat}

abbrev Ref := Nat × UInt32

abbrev Table (n : Nat) := Ref → Option (Rec n)

/-- A live row, other than the one under `skip`, equals the record on a unique key on which
the record has no NULL part. -/
def Table.Conflict (D : ShareDef n) (T : Table n) (skip : Option Ref) (rec : Rec n) : Prop :=
  ∃ k, k < D.keys ∧ dupChecked (D.keydef k) rec = true ∧
    ∃ ref r, some ref ≠ skip ∧ T ref = some r ∧ (D.keydef k).ops.cmpRecRec r rec = 0

def Table.Listed (T : Table n) (found : List (Nat × Rec n)) : Prop :=
  (found.map Prod.fst).Nodup ∧ ∀ idx rec, (idx, rec) ∈ found ↔ ∃ g, T (idx, g) = some rec

/-- What a call means. `room` says whether a slot could be allocated. -/
def TableStep (D : ShareDef n) (room : Prop) (T : Table n) :
    (call : SerialCall n) → call.Res → Table n → Prop
  | .insertRow rec, .ok idx, T' => room ∧ ¬ T.Conflict D none rec ∧
      ∃ g, T (idx, g) = none ∧ T' = Function.update T (idx, g) (some rec)
  | .insertRow rec, .error (.dupKey _), T' => room ∧ T.Conflict D none rec ∧ T' = T
  | .insertRow _, .error e, T' => (e = .full ∨ e = .nomem) ∧ ¬ room ∧ T' = T
  | .updateRowLocked idx g _ new, .ok _, T' => (T (idx, g)).isSome ∧
      ¬ T.Conflict D (some (idx, g)) new ∧ T' = Function.update T (idx, g) (some new)
  | .updateRowLocked idx g _ new, .error (.dupKey _), T' => (T (idx, g)).isSome ∧
      T.Conflict D (some (idx, g)) new ∧ T' = T
  | .updateRowLocked idx g _ _, .error e, T' => e = .deleted ∧ T (idx, g) = none ∧ T' = T
  | .updateRow idx g _ new, .ok _, T' => (T (idx, g)).isSome ∧
      ¬ T.Conflict D (some (idx, g)) new ∧ T' = Function.update T (idx, g) (some new)
  | .updateRow .., .error _, T' => T' = T
  | .deleteRow idx g, .ok _, T' | .deleteRowLocked idx g, .ok _, T' => (T (idx, g)).isSome ∧
      T' = Function.update T (idx, g) none
  | .deleteRow idx g, .error e, T' | .deleteRowLocked idx g, .error e, T' => e = .deleted ∧
      T (idx, g) = none ∧ T' = T
  | .clear, _, T' => T' = fun _ => none
  | .readRow idx g, result, T' =>
      (result = match T (idx, g) with
        | some rec => .ok rec
        | none => .error .deleted) ∧ T' = T
  | .find key packed, .ok (idx, rec), T' => (∃ g, T (idx, g) = some rec) ∧
      (D.keydef key).ops.cmpRecKey rec packed = 0 ∧ T' = T
  | .find key packed, .error e, T' => e = .notFound ∧
      (∀ ref r, T ref = some r → (D.keydef key).ops.cmpRecKey r packed ≠ 0) ∧ T' = T
  | .scan, result, T' => T.Listed result ∧ T' = T

inductive TableRun (D : ShareDef n) (start : Table n) : List (Served n) → Table n → Prop
  | nil : TableRun D start [] start
  | snoc {served : List (Served n)} {T T' : Table n} {one : Served n}
      (before : TableRun D start served T)
      (step : TableStep D one.room T one.call one.result T') :
      TableRun D start (served ++ [one]) T'

def table (s : Core n) : Table n := fun ref =>
  if (s.slot ref.1).state = .active ∧ (s.slot ref.1).gen = ref.2 then
    some (s.slot ref.1).data
  else none

/-- Besides, a record that matches a packed key hashes as the key does. -/
structure KeysConsistent (D : ShareDef n) : Prop extends KeysEquivalent D where
  packed : ∀ k, k < D.keys → ∀ (a : Rec n) (p : PackedKey),
    (D.keydef k).ops.cmpRecKey a p = 0 → (D.keydef k).ops.hashRec a = (D.keydef k).ops.hashKey p

section Refinement

variable {D : ShareDef n} {s s' : Core n} {gran : Gran} {idx : Nat} {g : UInt32}

theorem table_eq_some {ref : Ref} {r : Rec n} :
    table s ref = some r ↔ rows s ref.1 = some (ref.2, r) := by
  rw [rows_eq_some]
  unfold table
  constructor
  · intro found
    by_cases live : (s.slot ref.1).state = .active ∧ (s.slot ref.1).gen = ref.2
    · rw [if_pos live] at found
      exact ⟨live.1, live.2, Option.some.inj found⟩
    · rw [if_neg live] at found
      cases found
  · rintro ⟨active, same, image⟩
    rw [if_pos ⟨active, same⟩, image]

theorem table_congr (same : rows s' = rows s) : table s' = table s := by
  funext ref
  apply Option.ext
  intro r
  rw [table_eq_some, table_eq_some, same]

theorem table_eq_none : table s (idx, g) = none ↔ ∀ r, rows s idx ≠ some (g, r) := by
  rw [Option.eq_none_iff_forall_ne_some]
  apply forall_congr'
  intro r
  rw [Ne, table_eq_some]

theorem table_update (rec : Option (Rec n))
    (changed : rows s' = Function.update (rows s) idx (rec.map fun r => (g, r)))
    (only : ∀ g' r, rows s idx = some (g', r) → g' = g) :
    table s' = Function.update (table s) (idx, g) rec := by
  funext ref
  apply Option.ext
  intro r
  rw [table_eq_some, changed]
  by_cases here : ref = (idx, g)
  · subst here
    rw [Function.update_self, Function.update_self]
    cases rec <;> simp
  · rw [Function.update_of_ne here, table_eq_some]
    by_cases slot : ref.1 = idx
    · subst slot
      rw [Function.update_self]
      have different : ref.2 ≠ g := fun same => here (Prod.ext rfl same)
      constructor
      · intro found
        cases rec with
        | none => cases found
        | some _ =>
            simp only [Option.map_some, Option.some.injEq, Prod.mk.injEq] at found
            exact absurd found.1.symm different
      · intro found
        exact absurd (only _ _ found) different
    · rw [Function.update_of_ne slot]

def UniqueRows (D : ShareDef n) (s : Core n) : Prop :=
  ∀ k, k < D.keys → ∀ i j gi ri gj rj, i ≠ j → rows s i = some (gi, ri) →
    rows s j = some (gj, rj) → dupChecked (D.keydef k) ri = true →
    (D.keydef k).ops.cmpRecRec ri rj ≠ 0

theorem conflict_iff {skip : Option Ref} {rec : Rec n} :
    (table s).Conflict D skip rec ↔ ∃ k, k < D.keys ∧ dupChecked (D.keydef k) rec = true ∧
      ∃ i g r, some (i, g) ≠ skip ∧ rows s i = some (g, r) ∧
        (D.keydef k).ops.cmpRecRec r rec = 0 := by
  unfold Table.Conflict
  simp only [table_eq_some, Prod.exists]

theorem conflict_none_iff {rec : Rec n} :
    (table s).Conflict D none rec ↔ ∃ k, k < D.keys ∧ duplicates D s rec k := by
  rw [conflict_iff]
  unfold duplicates
  simp

/-- On the unchanged keys the old record stands in for the new one. -/
theorem conflict_update_iff (consistent : KeysConsistent D) (unique : UniqueRows D s)
    {old new : Rec n} (row : rows s idx = some (g, old)) :
    (table s).Conflict D (some (idx, g)) new ↔
      ∃ k ∈ changedKeys D old new, duplicates D s new k := by
  rw [conflict_iff]
  constructor
  · rintro ⟨k, valid, checked, i, g', r, other, row', equal⟩
    have different : i ≠ idx := by
      rintro rfl
      rw [row] at row'
      cases row'
      exact other rfl
    refine ⟨k, mem_changedKeys.mpr ⟨valid, fun unchanged => ?_⟩, checked, i, g', r, row', equal⟩
    have oldEqual := consistent.trans k valid r new old equal
      (consistent.symm k valid old new unchanged)
    refine unique k valid i idx g' r g old different row' row ?_ oldEqual
    rw [consistent.nulls k valid r new equal]
    exact checked
  · rintro ⟨k, changed, checked, i, g', r, row', equal⟩
    obtain ⟨valid, unequal⟩ := mem_changedKeys.mp changed
    refine ⟨k, valid, checked, i, g', r, ?_, row', equal⟩
    intro same
    obtain ⟨rfl, rfl⟩ := Prod.mk.inj (Option.some.inj same)
    rw [row] at row'
    cases row'
    exact unequal equal

theorem UniqueRows.place (consistent : KeysConsistent D) (unique : UniqueRows D s)
    {rec : Rec n} (fresh : ∀ k, k < D.keys → dupChecked (D.keydef k) rec = true →
      ∀ i g' r, i ≠ idx → rows s i = some (g', r) → (D.keydef k).ops.cmpRecRec r rec ≠ 0)
    (placed : rows s' = Function.update (rows s) idx (some (g, rec))) : UniqueRows D s' := by
  intro k valid i j gi ri gj rj different rowI rowJ checked equal
  rw [placed] at rowI rowJ
  by_cases atI : i = idx
  · subst atI
    rw [Function.update_self] at rowI
    cases rowI
    rw [Function.update_of_ne (Ne.symm different)] at rowJ
    exact fresh k valid checked j gj rj (Ne.symm different) rowJ
      (consistent.symm k valid _ _ equal)
  · rw [Function.update_of_ne atI] at rowI
    by_cases atJ : j = idx
    · subst atJ
      rw [Function.update_self] at rowJ
      cases rowJ
      rw [consistent.nulls k valid ri rec equal] at checked
      exact fresh k valid checked i gi ri different rowI equal
    · rw [Function.update_of_ne atJ] at rowJ
      exact unique k valid i j gi ri gj rj different rowI rowJ checked equal

theorem UniqueRows.remove (unique : UniqueRows D s)
    (removed : rows s' = Function.update (rows s) idx none) : UniqueRows D s' := by
  intro k valid i j gi ri gj rj different rowI rowJ
  have kept : ∀ i row, rows s' i = some row → rows s i = some row := by
    intro i row found
    rw [removed] at found
    by_cases here : i = idx
    · subst here
      rw [Function.update_self] at found
      cases found
    · rwa [Function.update_of_ne here] at found
  exact unique k valid i j gi ri gj rj different (kept i _ rowI) (kept j _ rowJ)

theorem UniqueRows.congr (unique : UniqueRows D s) (same : rows s' = rows s) :
    UniqueRows D s' := by
  unfold UniqueRows
  rw [same]
  exact unique

/-! ### One call -/

theorem insert_refines (consistent : KeysConsistent D) (unique : UniqueRows D s) {rec : Rec n}
    {result : Except Err Nat} (specified : insertSpec D s rec result s') :
    TableStep D (canAlloc D s) (table s) (.insertRow rec) result (table s') ∧
      UniqueRows D s' := by
  cases result with
  | ok idx =>
      obtain ⟨room, noDup, absent, g, added⟩ := specified
      have noConflict : ¬ (table s).Conflict D none rec := by
        rw [conflict_none_iff]
        rintro ⟨k, valid, duplicate⟩
        exact noDup k valid duplicate
      refine ⟨⟨room, noConflict, g, ?_, ?_⟩, unique.place consistent ?_ added⟩
      · rw [table_eq_none, absent]
        simp
      · refine table_update (some rec) added ?_
        intro g' r found
        rw [absent] at found
        cases found
      · intro k valid checked i g' r _ row equal
        exact noDup k valid ⟨checked, i, g', r, row, equal⟩
  | error e =>
      cases e with
      | dupKey errkey =>
          obtain ⟨room, duplicate, same⟩ := specified
          exact ⟨⟨room, conflict_none_iff.mpr duplicate, table_congr same⟩, unique.congr same⟩
      | notFound | eof | deleted | full | nomem =>
          obtain ⟨reason, noRoom, same⟩ := specified
          exact ⟨⟨reason, noRoom, table_congr same⟩, unique.congr same⟩

theorem update_refines (consistent : KeysConsistent D) (unique : UniqueRows D s)
    {old new : Rec n} (specified : updateSpec D s idx g old new (.ok ()) s') :
    (table s (idx, g)).isSome ∧ ¬ (table s).Conflict D (some (idx, g)) new ∧
      table s' = Function.update (table s) (idx, g) (some new) ∧ UniqueRows D s' := by
  obtain ⟨row, noDup, changed⟩ := specified
  have noConflict : ¬ (table s).Conflict D (some (idx, g)) new := by
    rw [conflict_update_iff consistent unique row]
    rintro ⟨k, member, duplicate⟩
    exact noDup k member duplicate
  refine ⟨?_, noConflict, ?_, unique.place consistent ?_ changed⟩
  · rw [table_eq_some.mpr row]
    rfl
  · refine table_update (some new) changed ?_
    intro g' r found
    rw [row] at found
    cases found
    rfl
  · intro k valid checked i g' r different row' equal
    refine noConflict (conflict_iff.mpr ⟨k, valid, checked, i, g', r, ?_, row', equal⟩)
    intro same
    exact different (Prod.mk.inj (Option.some.inj same)).1

theorem delete_refines (unique : UniqueRows D s) {result : Except Err Unit}
    (specified : deleteSpec s idx g result s') :
    (match result with
      | .ok _ => (table s (idx, g)).isSome ∧
          table s' = Function.update (table s) (idx, g) none
      | .error e => e = .deleted ∧ table s (idx, g) = none ∧ table s' = table s) ∧
      UniqueRows D s' := by
  cases result with
  | ok _ =>
      obtain ⟨⟨r, row⟩, removed⟩ := specified
      refine ⟨⟨?_, ?_⟩, unique.remove removed⟩
      · rw [table_eq_some.mpr row]
        rfl
      · refine table_update none removed ?_
        intro g' r' found
        rw [row] at found
        cases found
        rfl
  | error e =>
      obtain ⟨reason, dead, same⟩ := specified
      exact ⟨⟨reason, table_eq_none.mpr dead, table_congr same⟩, unique.congr same⟩

theorem read_refines :
    readOutcome s idx true g = match table s (idx, g) with
      | some rec => .ok rec
      | none => .error .deleted := by
  unfold readOutcome table
  by_cases live : (s.slot idx).state = .active ∧ (s.slot idx).gen = g
  · rw [if_pos live, if_pos ⟨live.1, fun _ => live.2⟩]
  · rw [if_neg live, if_neg fun both => live ⟨both.1, both.2 rfl⟩]

theorem find_refines (consistent : KeysConsistent D) {key : Nat} {packed : PackedKey}
    (valid : key < D.keys) {result : Except Err (Nat × Rec n)}
    (specified : callSpec D s (.find key packed) result s') :
    TableStep D (canAlloc D s) (table s) (.find key packed) result (table s') := by
  obtain ⟨⟨chain, _, members, rfl⟩, rfl⟩ := specified
  cases found : (chain key (fmBucket (D.keydef key) ((D.keydef key).ops.hashKey packed))).find?
      (passes s' fun buf => (D.keydef key).ops.cmpRecKey buf packed = 0) with
  | some i =>
      have passed := List.find?_some found
      simp only [passes, Bool.and_eq_true, decide_eq_true_eq] at passed
      have row : rows s' i = some ((s'.slot i).gen, (s'.slot i).data) :=
        rows_eq_some.mpr ⟨passed.1, rfl, rfl⟩
      exact ⟨⟨_, table_eq_some.mpr row⟩, passed.2, rfl⟩
  | none =>
      refine ⟨rfl, ?_, rfl⟩
      intro ref r row equal
      obtain ⟨active, _, rfl⟩ := rows_eq_some.mp (table_eq_some.mp row)
      have home : homes D s' key ref.1 =
          some (fmBucket (D.keydef key) ((D.keydef key).ops.hashKey packed)) := by
        rw [← consistent.packed key valid _ packed equal]
        exact if_pos ⟨valid, active⟩
      have missed := List.find?_eq_none.mp found ref.1 ((members _ _ _).mpr home)
      simp [passes, active, equal] at missed

theorem scan_refines (allocated : ∀ i, (s.slot i).state = .active → i < s.slotCount) :
    (table s).Listed ((liveFrom s 0).map fun i => (i, (s.slot i).data)) := by
  constructor
  · rw [List.map_map]
    have same : (Prod.fst ∘ fun i => (i, (s.slot i).data)) = id := rfl
    rw [same, List.map_id]
    exact List.Nodup.filter _ (List.nodup_range' ..)
  · intro idx rec
    simp only [List.mem_map, mem_liveFrom, Prod.mk.injEq, table_eq_some, rows_eq_some]
    constructor
    · rintro ⟨i, ⟨_, _, active⟩, rfl, rfl⟩
      exact ⟨_, active, rfl, rfl⟩
    · rintro ⟨g, active, rfl, rfl⟩
      exact ⟨idx, ⟨Nat.zero_le _, allocated idx active, active⟩, rfl, rfl⟩

theorem call_refines (consistent : KeysConsistent D) (rep : Rep D s none)
    (unique : UniqueRows D s) (call : SerialCall n) (allowed : call.Allowed D s)
    {result : call.Res} (specified : callSpec D s call result s') :
    TableStep D (canAlloc D s) (table s) call result (table s') ∧ UniqueRows D s' := by
  cases call with
  | insertRow rec => exact insert_refines consistent unique specified
  | updateRow idx g old new =>
      cases result with
      | ok _ =>
          obtain ⟨live, noConflict, changed, unique'⟩ :=
            update_refines consistent unique specified
          exact ⟨⟨live, noConflict, changed⟩, unique'⟩
      | error e => exact ⟨table_congr specified, unique.congr specified⟩
  | updateRowLocked idx g old new =>
      cases result with
      | ok _ =>
          obtain ⟨live, noConflict, changed, unique'⟩ :=
            update_refines consistent unique specified
          exact ⟨⟨live, noConflict, changed⟩, unique'⟩
      | error e =>
          cases e with
          | dupKey errkey =>
              obtain ⟨row, duplicate, same⟩ := specified
              refine ⟨⟨?_, (conflict_update_iff consistent unique row).mpr duplicate,
                table_congr same⟩, unique.congr same⟩
              rw [table_eq_some.mpr row]
              rfl
          | notFound | eof | deleted | full | nomem =>
              obtain ⟨reason, dead, same⟩ := specified
              exact ⟨⟨reason, table_eq_none.mpr dead, table_congr same⟩, unique.congr same⟩
  | deleteRow idx g =>
      obtain ⟨step, unique'⟩ := delete_refines unique specified
      refine ⟨?_, unique'⟩
      cases result with
      | ok _ => exact step
      | error e => exact step
  | deleteRowLocked idx g =>
      obtain ⟨step, unique'⟩ := delete_refines unique specified
      refine ⟨?_, unique'⟩
      cases result with
      | ok _ => exact step
      | error e => exact step
  | clear =>
      have gone : rows s' = fun _ => none := specified
      refine ⟨?_, ?_⟩
      · change table s' = fun _ => none
        funext ref
        exact table_eq_none.mpr fun r row => by
          rw [gone] at row
          cases row
      · intro k valid i j gi ri gj rj different row
        rw [gone] at row
        cases row
  | readRow idx g =>
      obtain ⟨rfl, rfl⟩ := specified
      exact ⟨⟨read_refines, rfl⟩, unique⟩
  | find key packed =>
      refine ⟨find_refines consistent allowed specified, ?_⟩
      rw [specified.2]
      exact unique
  | scan =>
      obtain ⟨rfl, rfl⟩ := specified
      exact ⟨⟨scan_refines rep.allocated, rfl⟩, unique⟩

end Refinement

/-! ### Runs -/

theorem SerialRun.refines_from {D : ShareDef n} {gran : Gran} (consistent : KeysConsistent D)
    {start s : Core n} {served : List (Served n)} (rep : Rep D start none) (quiet : Quiet start)
    (unique : UniqueRows D start) (run : SerialRun D gran start served s) :
    TableRun D (table start) served (table s) ∧ UniqueRows D s ∧ Rep D s none ∧ Quiet s := by
  induction run with
  | nil => exact ⟨TableRun.nil, unique, rep, quiet⟩
  | @snoc _ s s' t call result before allowed ran ih =>
      obtain ⟨refined, unique, rep, quiet⟩ := ih
      obtain ⟨result', s'', ran', rep', quiet', specified⟩ :=
        call_runs (t := t) gran consistent.hashes rep quiet call allowed
      obtain ⟨rfl, rfl⟩ := ran.deterministic ran'
      obtain ⟨step, unique'⟩ := call_refines consistent rep unique call allowed specified
      exact ⟨refined.snoc step, unique', rep', quiet'⟩

theorem SerialRun.refines {D : ShareDef n} {gran : Gran} (consistent : KeysConsistent D)
    {garbage : Nat → Rec n} {heap : Heap} {served : List (Served n)} {s : Core n}
    (run : SerialRun D gran (Core.fresh garbage heap) served s) :
    TableRun D (fun _ => none) served (table s) ∧ UniqueRows D s := by
  have noRow : UniqueRows D (Core.fresh garbage heap) := by
    intro k valid i j gi ri gj rj different row
    simp [rows, Core.fresh] at row
  have empty : table (Core.fresh garbage heap) = fun _ => none := by
    funext ref
    simp [table, Core.fresh]
  obtain ⟨refined, unique, _⟩ :=
    run.refines_from consistent (Rep.fresh D garbage heap) (fun _ => rfl) noRow
  rw [empty] at refined
  exact ⟨refined, unique⟩

theorem table_finite {D : ShareDef n} {s : Core n} (rep : Rep D s none) :
    {ref | table s ref ≠ none}.Finite := by
  refine ((activeSlots s).finite_toSet.image fun i => (i, (s.slot i).gen)).subset ?_
  intro ref live
  obtain ⟨r, row⟩ := Option.ne_none_iff_exists'.mp live
  obtain ⟨active, same, _⟩ := rows_eq_some.mp (table_eq_some.mp row)
  refine ⟨ref.1, ?_, Prod.ext rfl same⟩
  simp [activeSlots, active, rep.allocated ref.1 active]

/-- Every serial run of the core is, call by call, a run of the abstract table, and from its end
every allowed call returns what the table says. -/
theorem serialRun_refines (D : ShareDef n) (gran : Gran) (consistent : KeysConsistent D)
    (garbage : Nat → Rec n) (heap : Heap) (served : List (Served n)) (s : Core n)
    (run : SerialRun D gran (Core.fresh garbage heap) served s) :
    TableRun D (fun _ => none) served (table s) ∧ {ref | table s ref ≠ none}.Finite ∧
      ∀ (t : Nat) (call : SerialCall n), call.Allowed D s → ∃ result s',
        Runs t (call.program D gran) s result s' ∧
        TableStep D (canAlloc D s) (table s) call result (table s') := by
  obtain ⟨refined, unique⟩ := run.refines consistent
  obtain ⟨rep, quiet⟩ := run.rep consistent.hashes
  refine ⟨refined, table_finite rep, fun t call allowed => ?_⟩
  obtain ⟨result, s', ran, _, _, specified⟩ :=
    call_runs (t := t) gran consistent.hashes rep quiet call allowed
  exact ⟨result, s', ran, (call_refines consistent rep unique call allowed specified).1⟩

theorem byteTable_consistent : KeysConsistent byteTable where
  symm k _ a b equal := by
    rw [byteTable_cmp] at *
    exact equal.symm
  trans k _ a b c first second := by
    rw [byteTable_cmp] at *
    exact first.trans second
  hashes := byteTable_hashes
  nulls _ _ _ _ _ := rfl
  packed k _ a p matched := by
    change (if p = [a 0] then (0 : Int) else 1) = 0 at matched
    change (a 0).toUInt32 = (p.headD 0).toUInt32
    have same : p = [a 0] := by simpa using matched
    rw [same]
    rfl

/-- The eight calls answer as the abstract table, and so does a delete after them. -/
theorem serialRun_refines_byteTable :
    byteServed.1.length = 8 ∧ TableRun byteTable (fun _ => none) byteServed.1 (table byteServed.2) ∧
      ∃ result s', Runs 1 (fmCoreDeleteRow byteTable .whole 1 0) byteServed.2 result s' ∧
        TableStep byteTable (canAlloc byteTable byteServed.2) (table byteServed.2) (.deleteRow 1 0)
          result (table s') := by
  obtain ⟨refined, _, returns⟩ :=
    serialRun_refines byteTable .whole byteTable_consistent _ _ _ _ byteServed_run
  exact ⟨byteServed_length, refined, returns 1 (.deleteRow 1 0) byteServed_second⟩

end Fastmem
