/-
Index scans by one handler: index_read_map, then index_next until it fails, with
no write in between.

index_next looks for the key it finds in the key buffer. index_read_map leaves
its key there unless the key is unique: the flag that would except unique keys
with NULL parts is masked out when the key is created. A scan of a unique key
goes on with whatever an earlier lookup left in the buffer.
-/

import Fastmem.Handler.IndexTraversal

set_option autoImplicit false

namespace Fastmem

open Prog (perform iterate)
open Machine

variable {n : Nat} {t : Nat} {s : Core n} {T : TableShare n} {gran : Gran} {h : Handler}

def indexScanRound (T : TableShare n) (gran : Gran) (state : Handler × List (Option Nat × Rec n)) :
    CoreProg n (Handler × List (Option Nat × Rec n) ⊕ List (Option Nat × Rec n)) := do
  let (next, h) ← indexNext T gran state.1
  match next with
  | .error _ => return .inr state.2
  | .ok record => return .inl (h, state.2 ++ [(h.currentSlot, record)])

def indexScan (T : TableShare n) (gran : Gran) (key : PackedKey) (h : Handler) :
    CoreProg n (List (Option Nat × Rec n)) := do
  let (first, h) ← indexReadMap T gran key h
  match first with
  | .error _ => return []
  | .ok record => iterate (h, [(h.currentSlot, record)]) (indexScanRound T gran)

/-- The scan returns every live row that matches the key once, and no other row. -/
def ScanExact (T : TableShare n) (gran : Gran) (t : Nat) (s : Core n) (key : PackedKey)
    (h : Handler) : Prop :=
  ∃ returned s', Runs t (indexScan T gran key h) s returned s' ∧
    (returned.map Prod.fst).Nodup ∧
    ∀ slot record, (slot, record) ∈ returned ↔ ∃ i g, slot = some i ∧
      rows s i = some (g, record) ∧ (T.core.keydef h.activeIndex).ops.cmpRecKey record key = 0

def InOneBucket (T : TableShare n) (s : Core n) (k : Nat) (key : PackedKey) : Prop :=
  ∀ i, Matches T s k key i →
    fmCoreKeyBucket (T.core.keydef k) (s.slot i).data = keyBucket T k key

/-- Behind the first row of the chain that matches the key, the bytes in the buffer match the
rows that the key matches. -/
def BufferAgrees (T : TableShare n) (s : Core n) (k : Nat) (key buffer : PackedKey) : Prop :=
  ∀ before first behind, Threaded s.cell (Cell.next k) (.head k (keyBucket T k key))
      (before ++ first :: behind) →
    Matches T s k key first → (∀ j ∈ before, ¬ Matches T s k key j) →
    ∀ j ∈ behind, Matches T s k key j ↔
      keyBucket T k buffer = keyBucket T k key ∧ Matches T s k buffer j

/-- The bytes are a whole key: what follows them in a buffer is not read. -/
structure WholeKey (T : TableShare n) (k : Nat) (key : PackedKey) : Prop where
  length : key.length = (T.keydef k).length
  hash : ∀ tail, (T.core.keydef k).ops.hashKey (key ++ tail) = (T.core.keydef k).ops.hashKey key
  compare : ∀ tail record, (T.core.keydef k).ops.cmpRecKey record (key ++ tail) =
    (T.core.keydef k).ops.cmpRecKey record key

/-! ### What a scan returns -/

def Core.entryAt (s : Core n) (i : Nat) : Option Nat × Rec n := (some i, (s.slot i).data)

section Scan

variable {chain : ChainLists} (chains : Chains s.cell chain)
  (settled : ∀ i, (s.slot i).seq % 2 = 0)

include chains settled

theorem indexRest_runs {inx cur : Nat} (returned : List (Option Nat × Rec n))
    (on : h.currentSlot = some cur) (last : h.lastinx = some inx) :
    ∃ s', Runs t (iterate (h, returned) (indexScanRound T gran))
      { s with owner := rowOwner t h.held }
      (returned ++ ((pastCursor (some cur) (chain inx (keyBucket T inx h.lastkey))).filter
        (hits T s inx h.lastkey)).map s.entryAt) s' := by
  generalize length : (pastCursor (some cur) (chain inx (keyBucket T inx h.lastkey))).length = size
  -- on how much of the chain is left behind the position
  induction size using Nat.strongRecOn generalizing h cur returned with
  | ind size ih =>
    have next := indexNext_runs (T := T) (s := { s with owner := rowOwner t h.held })
      chains settled rfl gran last
    rw [on] at next
    cases found : (pastCursor (some cur) (chain inx (keyBucket T inx h.lastkey))).find?
        (hits T s inx h.lastkey) with
    | none =>
        rw [show hits T { s with owner := rowOwner t h.held } inx h.lastkey =
          hits T s inx h.lastkey from rfl, found] at next
        obtain ⟨h', ran⟩ := next
        rw [List.filter_eq_nil_iff.mpr (List.find?_eq_none.mp found), List.map_nil,
          List.append_nil]
        exact ⟨_, Exec.iterate_leave (runs_bind ran (runs_pure _ _))⟩
    | some i =>
        rw [show hits T { s with owner := rowOwner t h.held } inx h.lastkey =
          hits T s inx h.lastkey from rfl, found] at next
        obtain ⟨h', ran, on', sameInx, sameKey⟩ := next
        obtain ⟨hit, skipped, rest, split, missed⟩ := List.find?_eq_some_iff_append.mp found
        -- the chain with both positions
        have member : i ∈ pastCursor (some cur) (chain inx (keyBucket T inx h.lastkey)) := by
          rw [split]
          exact List.mem_append_right _ (List.mem_cons_self ..)
        obtain ⟨idx, before, after, same, whole, _⟩ := mem_pastCursor member
        obtain rfl : cur = idx := Option.some.inj same
        have distinct := chains.nodup inx (keyBucket T inx h.lastkey)
        rw [whole] at distinct
        have notBefore : cur ∉ before := fun inBefore =>
          (List.nodup_append.mp distinct).2.2 cur inBefore cur (List.mem_cons_self ..) rfl
        rw [whole, pastCursor_append notBefore] at split length
        have again : chain inx (keyBucket T inx h.lastkey) =
            (before ++ cur :: skipped) ++ i :: rest := by
          rw [whole, split]
          simp
        have distinct' := chains.nodup inx (keyBucket T inx h.lastkey)
        rw [again] at distinct'
        have notEarlier : i ∉ before ++ cur :: skipped := fun earlier =>
          (List.nodup_append.mp distinct').2.2 i earlier i (List.mem_cons_self ..) rfl
        have behind : pastCursor (some i) (chain inx (keyBucket T inx h'.lastkey)) = rest := by
          rw [sameKey, again, pastCursor_append notEarlier]
        have shorter : rest.length < size := by
          rw [← length, split, List.length_append, List.length_cons]
          omega
        obtain ⟨s', later⟩ := ih rest.length shorter (returned ++ [s.entryAt i]) on'.slot
          (sameInx.trans last) (by rw [behind])
        refine ⟨s', ?_⟩
        rw [behind, sameKey, List.append_assoc] at later
        have matches_ : (pastCursor (some cur) (chain inx (keyBucket T inx h.lastkey))).filter
            (hits T s inx h.lastkey) = i :: rest.filter (hits T s inx h.lastkey) := by
          have none : skipped.filter (hits T s inx h.lastkey) = [] :=
            List.filter_eq_nil_iff.mpr fun j inSkipped => by simpa using missed j inSkipped
          rw [whole, pastCursor_append notBefore, split, List.filter_append, none, List.nil_append,
            List.filter_cons_of_pos hit]
        rw [matches_, List.map_cons]
        refine Exec.iterate_again (runs_bind ran ?_) later
        rw [show s.entryAt i = (h'.currentSlot, (s.slot i).data) from by rw [on'.slot]; rfl]
        exact runs_pure _ _

theorem indexScan_runs (gran : Gran) (alone : s.owner = rowOwner t h.held) (key : PackedKey) :
    match (chain h.activeIndex (keyBucket T h.activeIndex key)).find?
        (hits T s h.activeIndex key) with
    | none => Runs t (indexScan T gran key h) s [] s
    | some i => ∃ s', Runs t (indexScan T gran key h) s
        ((i :: (pastCursor (some i) (chain h.activeIndex (keyBucket T h.activeIndex
            (h.keyAfter (T.keydef h.activeIndex) key)))).filter
          (hits T s h.activeIndex (h.keyAfter (T.keydef h.activeIndex) key))).map s.entryAt) s' := by
  have first := indexReadMap_runs (T := T) chains settled alone gran key
  cases found : (chain h.activeIndex (keyBucket T h.activeIndex key)).find?
      (hits T s h.activeIndex key) with
  | none =>
      rw [found] at first
      obtain ⟨e, h', ran⟩ := first
      exact runs_bind ran (runs_pure _ s)
  | some i =>
      rw [found] at first
      obtain ⟨h', ran, on, inx, kept, _⟩ := first
      obtain ⟨s', rest⟩ : ∃ s', Runs t (iterate (h', [s.entryAt i]) (indexScanRound T gran))
          { s with owner := rowOwner t h'.held } _ s' :=
        indexRest_runs chains settled [s.entryAt i] on.slot inx
      refine ⟨s', runs_bind ran ?_⟩
      rw [kept] at rest
      rw [List.map_cons]
      rw [show s.entryAt i = (h'.currentSlot, (s.slot i).data) from by rw [on.slot]; rfl] at rest ⊢
      exact rest

end Scan

/-! ### When a scan is exact -/

theorem scanExact_iff_items {key : PackedKey} {items : List Nat} {s' : Core n}
    (active : ∀ i ∈ items, (s.slot i).state = .active)
    (ran : Runs t (indexScan T gran key h) s (items.map s.entryAt) s') :
    ScanExact T gran t s key h ↔
      items.Nodup ∧ ∀ i, i ∈ items ↔ Matches T s h.activeIndex key i := by
  have slots : (items.map s.entryAt).map Prod.fst = items.map some := by
    rw [List.map_map]
    rfl
  have entries : ∀ i record, (some i, record) ∈ items.map s.entryAt ↔
      i ∈ items ∧ (s.slot i).data = record := by
    intro i record
    simp only [List.mem_map, Core.entryAt, Prod.mk.injEq, Option.some.injEq]
    constructor
    · rintro ⟨j, member, rfl, same⟩
      exact ⟨member, same⟩
    · rintro ⟨member, same⟩
      exact ⟨i, member, rfl, same⟩
  constructor
  · rintro ⟨returned, s₂, ran', once, exactly⟩
    obtain ⟨rfl, _⟩ := ran.deterministic ran'
    rw [slots] at once
    refine ⟨List.Nodup.of_map _ once, fun i => ?_⟩
    rw [matches_iff]
    have here := exactly (some i) (s.slot i).data
    rw [entries] at here
    constructor
    · intro member
      obtain ⟨j, g, same, row, equal⟩ := here.mp ⟨member, rfl⟩
      exact ⟨active i member, equal⟩
    · rintro ⟨live, equal⟩
      exact (here.mpr ⟨i, _, rfl, rows_eq_some.mpr ⟨live, rfl, rfl⟩, equal⟩).1
  · rintro ⟨distinct, exactly⟩
    refine ⟨_, s', ran, ?_, fun slot record => ?_⟩
    · rw [slots]
      exact distinct.map (Option.some_injective _)
    · constructor
      · intro member
        obtain ⟨i, inItems, same⟩ := List.mem_map.mp member
        cases same
        obtain ⟨live, equal⟩ := matches_iff.mp ((exactly i).mp inItems)
        exact ⟨i, _, rfl, rows_eq_some.mpr ⟨live, rfl, rfl⟩, equal⟩
      · rintro ⟨i, g, rfl, row, equal⟩
        obtain ⟨live, _, rfl⟩ := rows_eq_some.mp row
        exact (entries i _).mpr ⟨(exactly i).mpr (matches_iff.mpr ⟨live, equal⟩), rfl⟩

theorem dropWhile_firstMatch {k : Nat} {key : PackedKey} {before behind : List Nat} {first : Nat}
    (row : Matches T s k key first) (missed : ∀ j ∈ before, ¬ Matches T s k key j) :
    (before ++ first :: behind).dropWhile (fun j => !hits T s k key j) = first :: behind := by
  have skipped : ∀ j ∈ before, (!hits T s k key j) = true := by
    intro j member
    rw [Bool.not_eq_true', Bool.eq_false_iff, Ne, hits_iff]
    exact missed j member
  rw [List.dropWhile_append_of_pos skipped]
  apply List.dropWhile_cons_of_neg
  rw [hits_iff.mpr row]
  decide

theorem BufferAgrees.one_of_two {k i j : Nat} {key buffer : PackedKey}
    (agrees : BufferAgrees T s k key buffer) (bucket : InOneBucket T s k key)
    (rep : Rep T.core s none) (valid : k < T.core.keys) (different : i ≠ j)
    (left : Matches T s k key i) (right : Matches T s k key j) :
    Matches T s k buffer i ∨ Matches T s k buffer j := by
  obtain ⟨chain, chains, members⟩ := rep.placed
  have inChain : ∀ l, Matches T s k key l → l ∈ chain k (keyBucket T k key) := fun l row =>
    (mem_chain_iff members valid row).mpr (bucket l row)
  cases found : (chain k (keyBucket T k key)).find? (hits T s k key) with
  | none => exact absurd (hits_iff.mpr left) (List.find?_eq_none.mp found i (inChain i left))
  | some first =>
      obtain ⟨hit, before, behind, split, missed⟩ := List.find?_eq_some_iff_append.mp found
      have noEarlier : ∀ l ∈ before, ¬ Matches T s k key l := by
        intro l member earlier
        have miss := missed l member
        rw [hits_iff.mpr earlier] at miss
        cases miss
      have behindFirst := agrees before first behind (split ▸ chains.threaded k _)
        (hits_iff.mp hit) noEarlier
      have later : ∀ l, Matches T s k key l → l ≠ first → Matches T s k buffer l := by
        intro l row other
        have member := inChain l row
        rw [split, List.mem_append, List.mem_cons] at member
        rcases member with earlier | same | after
        · exact absurd row (noEarlier l earlier)
        · exact absurd same other
        · exact ((behindFirst l after).mp row).2
      by_cases isFirst : i = first
      · exact Or.inr (later j right fun same => different (isFirst.trans same.symm))
      · exact Or.inl (later i left isFirst)

theorem scanExact_iff (gran : Gran) (rep : Rep T.core s none) (alone : s.owner = rowOwner t h.held)
    (valid : h.activeIndex < T.core.keys) (key : PackedKey) :
    ScanExact T gran t s key h ↔ InOneBucket T s h.activeIndex key ∧
      BufferAgrees T s h.activeIndex key (h.keyAfter (T.keydef h.activeIndex) key) := by
  obtain ⟨chain, chains, members⟩ := rep.placed
  have scanned := indexScan_runs (T := T) chains rep.settled gran alone key
  generalize h.keyAfter (T.keydef h.activeIndex) key = buffer at scanned ⊢
  generalize isIndex : h.activeIndex = k at scanned valid ⊢
  have threaded := chains.threaded k (keyBucket T k key)
  cases found : (chain k (keyBucket T k key)).find? (hits T s k key) with
  | none =>
      rw [found] at scanned
      have missing : ∀ i ∈ chain k (keyBucket T k key), ¬ Matches T s k key i := fun i member row =>
        List.find?_eq_none.mp found i member (hits_iff.mpr row)
      have nothing : ∀ i ∈ ([] : List Nat), (s.slot i).state = .active := nofun
      rw [scanExact_iff_items nothing scanned, isIndex]
      constructor
      · rintro ⟨_, exactly⟩
        have noRow : ∀ i, ¬ Matches T s k key i := fun i row => by
          cases (exactly i).mpr row
        exact ⟨fun i row => absurd row (noRow i), fun _ first _ _ row => absurd row (noRow first)⟩
      · rintro ⟨bucket, _⟩
        refine ⟨List.nodup_nil, fun i => ⟨nofun, fun row => ?_⟩⟩
        exact absurd row (missing i ((mem_chain_iff members valid row).mpr (bucket i row)))
  | some first =>
      rw [found] at scanned
      obtain ⟨s', ran⟩ := scanned
      obtain ⟨hit, before, behind, split, missed⟩ := List.find?_eq_some_iff_append.mp found
      have row : Matches T s k key first := hits_iff.mp hit
      have noEarlier : ∀ j ∈ before, ¬ Matches T s k key j := fun j member earlier => by
        have miss := missed j member
        rw [hits_iff.mpr earlier] at miss
        cases miss
      have inChain : ∀ j, j ∈ chain k (keyBucket T k key) ↔ j ∈ before ∨ j = first ∨ j ∈ behind := by
        intro j
        rw [split, List.mem_append, List.mem_cons]
      have distinct := chains.nodup k (keyBucket T k key)
      rw [split] at distinct
      have notBefore : first ∉ before := fun inBefore =>
        (List.nodup_append.mp distinct).2.2 first inBefore first (List.mem_cons_self ..) rfl
      have notBehind := List.nodup_cons.mp (List.nodup_append.mp distinct).2.1
      -- the slots behind the first row are reached only in its own bucket
      have past : ∀ j, j ∈ pastCursor (some first) (chain k (keyBucket T k buffer)) ↔
          j ∈ behind ∧ keyBucket T k buffer = keyBucket T k key := by
        intro j
        by_cases same : keyBucket T k buffer = keyBucket T k key
        · rw [same, split, pastCursor_append notBefore]
          simp
        · refine iff_of_false (fun member => ?_) fun both => same both.2
          obtain ⟨idx, ahead, after, isFirst, whole, _⟩ := mem_pastCursor member
          obtain rfl : first = idx := Option.some.inj isFirst
          refine same (chains.disjoint k _ _ first ?_ ((inChain first).mpr (Or.inr (Or.inl rfl))))
          rw [whole]
          exact List.mem_append_right _ (List.mem_cons_self ..)
      have items : ∀ j, j ∈ first :: (pastCursor (some first)
          (chain k (keyBucket T k buffer))).filter (hits T s k buffer) ↔
          j = first ∨ j ∈ behind ∧ keyBucket T k buffer = keyBucket T k key ∧
            Matches T s k buffer j := by
        intro j
        rw [List.mem_cons, List.mem_filter, past, hits_iff, and_assoc]
      have once : (first :: (pastCursor (some first) (chain k (keyBucket T k buffer))).filter
          (hits T s k buffer)).Nodup := by
        refine List.nodup_cons.mpr ⟨fun member => ?_, List.Nodup.filter _ ?_⟩
        · exact notBehind.1 ((past first).mp (List.mem_filter.mp member).1).1
        · by_cases same : keyBucket T k buffer = keyBucket T k key
          · rw [same, split, pastCursor_append notBefore]
            exact notBehind.2
          · rw [List.eq_nil_iff_forall_not_mem.mpr fun j member => same ((past j).mp member).2]
            exact List.nodup_nil
      have active : ∀ j ∈ first :: (pastCursor (some first)
          (chain k (keyBucket T k buffer))).filter (hits T s k buffer),
          (s.slot j).state = .active := by
        intro j member
        rcases (items j).mp member with rfl | ⟨_, _, other⟩
        · exact row.active
        · exact other.active
      rw [scanExact_iff_items active ran, isIndex]
      simp only [items]
      constructor
      · rintro ⟨_, exactly⟩
        constructor
        · intro j found
          refine (mem_chain_iff members valid found).mp ((inChain j).mpr (Or.inr ?_))
          exact ((exactly j).mpr found).imp id And.left
        · intro before' first' behind' threaded' row' noEarlier' j member
          -- both splits are at the first match
          have same : first :: behind = first' :: behind' := by
            rw [← dropWhile_firstMatch row noEarlier, ← dropWhile_firstMatch row' noEarlier',
              ← split, threaded.unique threaded']
          cases same
          rw [← exactly j]
          constructor
          · rintro (rfl | ⟨_, both⟩)
            · exact absurd member notBehind.1
            · exact both
          · exact fun both => Or.inr ⟨member, both⟩
      · rintro ⟨bucket, agrees⟩
        have behindFirst := agrees before first behind (split ▸ threaded) row noEarlier
        refine ⟨once, fun j => ⟨?_, fun found => ?_⟩⟩
        · rintro (rfl | ⟨member, both⟩)
          · exact row
          · exact (behindFirst j member).mpr both
        · have member := (mem_chain_iff members valid found).mpr (bucket j found)
          rcases (inChain j).mp member with earlier | rfl | later
          · exact absurd found (noEarlier j earlier)
          · exact Or.inl rfl
          · exact Or.inr ⟨later, (behindFirst j later).mp found⟩

/-- A key whose bytes are kept in the buffer finds the rows it would find. -/
theorem WholeKey.agrees {k : Nat} {key : PackedKey} (whole : WholeKey T k key) (tail : PackedKey) :
    BufferAgrees T s k key (key ++ tail) := by
  intro before first behind _ _ _ j _
  have bucket : keyBucket T k (key ++ tail) = keyBucket T k key := by
    unfold keyBucket
    rw [whole.hash]
  rw [matches_iff, matches_iff, whole.compare]
  simp [bucket]

/-- A scan is exact when the rows that match its key are in one bucket and what index_next looks
for matches the same rows behind the first: the key, or for a unique key the bytes that an
earlier lookup left in the buffer. -/
theorem indexScan_iff (T : TableShare n) (gran : Gran) (t : Nat) (s : Core n)
    (rep : Rep T.core s none) (h : Handler) (alone : s.owner = rowOwner t h.held)
    (valid : h.activeIndex < T.core.keys)
    (built : ∃ nosame parts, T.keydef h.activeIndex = fmPrepareKeydef nosame parts)
    (key : PackedKey) :
    (ScanExact T gran t s key h ↔ InOneBucket T s h.activeIndex key ∧
      BufferAgrees T s h.activeIndex key
        (if (T.keydef h.activeIndex).nosame then h.lastkey
          else (h.keepKey (T.keydef h.activeIndex) key).lastkey)) ∧
    (WholeKey T h.activeIndex key → (T.keydef h.activeIndex).nosame = false →
      (ScanExact T gran t s key h ↔ InOneBucket T s h.activeIndex key)) := by
  have noFlag : (T.keydef h.activeIndex).nullPartKey = false := by
    obtain ⟨nosame, parts, isBuilt⟩ := built
    rw [isBuilt]
    rfl
  have always := scanExact_iff gran rep alone valid key
  rw [Handler.keyAfter, noFlag, Bool.not_false, Bool.and_true] at always
  refine ⟨always, fun whole repeated => ?_⟩
  have kept : (h.keepKey (T.keydef h.activeIndex) key).lastkey =
      key ++ h.lastkey.drop (T.keydef h.activeIndex).length := by
    unfold Handler.keepKey
    rw [← whole.length, List.take_length]
  rw [always, repeated, if_neg Bool.false_ne_true, kept]
  exact and_iff_left (whole.agrees _)

/-! ### A table with two NULLs -/

def nullKeydef : FmKeydef :=
  fmPrepareKeydef true [⟨.other, 1, 1, caselessCharset, 1, 0, 0, 0, 0, wholeByte⟩]

def nullTable : TableShare 2 where
  core := fmCoreInitShare 1 4 2 (fun _ => fmKeyOps getRecBits nullKeydef) (fun _ => true)
    oneKey_le fourRecords_le twoBuckets_pow
  keydef _ := nullKeydef

def nullRow : Rec 2 := fun i => if i = 0 then 1 else 0

theorem nullTable_hashes : HashesAgree nullTable.core := by
  have wired : WiredTo getRecBits nullTable.core nullTable.keydef := fun _ _ => ⟨rfl, rfl⟩
  refine (wired.keysEquivalent fun k _ seg member => ?_).hashes
  obtain rfl := List.mem_singleton.mp member
  exact caselessCharset_lawful

/-- The packed key NULL finds records with the null bit, which hash as it does. -/
theorem nullKey_hash {record : Rec 2}
    (equal : (nullTable.core.keydef 0).ops.cmpRecKey record [1, 0] = 0) :
    (nullTable.core.keydef 0).ops.hashRec record =
      (nullTable.core.keydef 0).ops.hashKey [1, 0] := by
  have bit : record.toBytes 0 = record 0 := rfl
  by_cases null : record 0 &&& 1 = 0
  · have found : (nullTable.core.keydef 0).ops.cmpRecKey record [1, 0] = 1 := by
      simp [nullTable, fmCoreInitShare, fmKeyOps, fmKeyCmp, keyCmpFrom, keyCmpSegment, nullKeydef,
        fmPrepareKeydef, KeyPart.segment, PackedKey.toBytes, bit, null]
    rw [found] at equal
    cases equal
  · simp [nullTable, fmCoreInitShare, fmKeyOps, fmRecHashnr, recHashnrSegment, fmHashnr,
      hashnrSegment, nullKeydef, fmPrepareKeydef, KeyPart.segment, PackedKey.toBytes, bit, null]

def readingHandler (buffer : PackedKey) : Handler :=
  ⟨none, 0, none, buffer, 0, -1, HaState.none, false, 0, false, false, none⟩

theorem nullKey_whole : WholeKey nullTable 0 [1, 0] where
  length := rfl
  hash _ := rfl
  compare _ _ := rfl

theorem nullTable_twoNulls : ∃ s : Core 2, Rep nullTable.core s none ∧ Quiet s ∧
    (∃ served, SerialRun nullTable.core .whole
      (Core.fresh (fun _ _ => 0) ⟨fun _ => true, 0, 0⟩) served s) ∧
    ∃ i j g g', i ≠ j ∧ rows s i = some (g, nullRow) ∧ rows s j = some (g', nullRow) :=
  twoEqualRows nullTable_hashes (fun _ _ => rfl) .whole _ _ (by decide) (.inr ⟨by decide, rfl⟩)

/-- A handler that was just opened reads the first of two NULLs only. -/
theorem indexScan_broken : ∃ (s : Core 2) (served : List (Served 2)),
    SerialRun nullTable.core .whole (Core.fresh (fun _ _ => 0) ⟨fun _ => true, 0, 0⟩) served s ∧
      ¬ ScanExact nullTable .whole 0 s [1, 0] (readingHandler [0, 0]) := by
  obtain ⟨s, rep, quiet, ⟨served, run⟩, i, j, g, g', different, left, right⟩ := nullTable_twoNulls
  refine ⟨s, served, run, fun complete => ?_⟩
  obtain ⟨bucket, agrees⟩ := (scanExact_iff .whole rep (quiet_rowOwner quiet)
    (by decide : (0 : Nat) < nullTable.core.keys) [1, 0]).mp complete
  have equal : (nullTable.core.keydef 0).ops.cmpRecKey nullRow [1, 0] = 0 := by decide
  have differs : (nullTable.core.keydef 0).ops.cmpRecKey nullRow [0, 0] ≠ 0 := by decide
  rcases BufferAgrees.one_of_two agrees bucket rep (by decide) different ⟨g, _, left, equal⟩
    ⟨g', _, right, equal⟩ with ⟨_, _, row, zero⟩ | ⟨_, _, row, zero⟩
  · rw [left] at row
    cases row
    exact differs zero
  · rw [right] at row
    cases row
    exact differs zero

/-- Both NULLs are read once the same key is in the buffer. -/
theorem indexScan_iff_nullTable : ∃ s : Core 2, Rep nullTable.core s none ∧
    (∃ i j, i ≠ j ∧ Matches nullTable s 0 [1, 0] i ∧ Matches nullTable s 0 [1, 0] j) ∧
    ScanExact nullTable .whole 0 s [1, 0] (readingHandler [1, 0]) := by
  obtain ⟨s, rep, quiet, _, i, j, g, g', different, left, right⟩ := nullTable_twoNulls
  have equal : (nullTable.core.keydef 0).ops.cmpRecKey nullRow [1, 0] = 0 := by decide
  refine ⟨s, rep, ⟨i, j, different, ⟨g, _, left, equal⟩, ⟨g', _, right, equal⟩⟩, ?_⟩
  refine (indexScan_iff nullTable .whole 0 s rep (readingHandler [1, 0]) (quiet_rowOwner quiet)
    (by decide) ⟨true, _, rfl⟩ [1, 0]).1.mpr ⟨?_, ?_⟩
  · intro l row
    have hash := nullKey_hash (matches_iff.mp row).2
    exact congrArg (fmBucket (nullTable.core.keydef 0)) hash
  · exact nullKey_whole.agrees []

end Fastmem
