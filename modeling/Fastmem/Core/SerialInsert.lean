/-
Serial behaviour of insert: linking the new slot key by key, the rollback after
a duplicate, and the publication.

`insertRow_runs` says that the call returns, that it keeps the representation
invariant and leaves every lock free, and what it does to the live rows. Records
that compare equal on a key are assumed to hash alike on it.
-/

import Fastmem.Core.Representation

set_option autoImplicit false

namespace Fastmem

open Prog (perform iterate forEach foldEach)
open Machine

variable {n : Nat} {t : Nat} {D : ShareDef n} {s : Core n} {gran : Gran} {idx : Nat}
  {place : Places}

def HashesAgree (D : ShareDef n) : Prop :=
  ∀ k, k < D.keys → ∀ left right : Rec n, (D.keydef k).ops.cmpRecRec left right = 0 →
    (D.keydef k).ops.hashRec left = (D.keydef k).ops.hashRec right

/-- Comparison is an equivalence on every key; equal records hash alike and agree on NULL
parts. -/
structure KeysEquivalent (D : ShareDef n) : Prop where
  symm : ∀ k, k < D.keys → ∀ a b : Rec n, (D.keydef k).ops.cmpRecRec a b = 0 →
    (D.keydef k).ops.cmpRecRec b a = 0
  trans : ∀ k, k < D.keys → ∀ a b c : Rec n, (D.keydef k).ops.cmpRecRec a b = 0 →
    (D.keydef k).ops.cmpRecRec b c = 0 → (D.keydef k).ops.cmpRecRec a c = 0
  hashes : HashesAgree D
  nulls : ∀ k, k < D.keys → ∀ a b : Rec n, (D.keydef k).ops.cmpRecRec a b = 0 →
    dupChecked (D.keydef k) a = dupChecked (D.keydef k) b

def duplicates (D : ShareDef n) (s : Core n) (rec : Rec n) (k : Nat) : Prop :=
  dupChecked (D.keydef k) rec = true ∧ ∃ i g r, rows s i = some (g, r) ∧
    (D.keydef k).ops.cmpRecRec r rec = 0

theorem rows_eq_some {i : Nat} {g : UInt32} {r : Rec n} :
    rows s i = some (g, r) ↔
      (s.slot i).state = .active ∧ (s.slot i).gen = g ∧ (s.slot i).data = r := by
  unfold rows
  by_cases active : (s.slot i).state = .active <;> simp [active]

/-! ### The duplicate check -/

/-- What a duplicate check that walks the bucket of the record finds: any live row that
equals the record hashes to that bucket. -/
theorem dupCheck_finds {k : Nat} (gran : Gran) (rec : Rec n) (hashes : HashesAgree D)
    (valid : k < D.keys) (settled : ∀ i, (s.slot i).seq % 2 = 0) (placed : Placed s.cell place)
    (agree : ∀ i, (s.slot i).state = .active → place k i = homes D s k i) :
    ∃ dup, Runs t (fmCoreDupCheck D gran k (fmCoreKeyBucket (D.keydef k) rec) rec) s dup s ∧
      (dup = true ↔ duplicates D s rec k) := by
  obtain ⟨chain, chains, members⟩ := placed
  refine ⟨_, dupCheck_runs chains settled, ?_⟩
  rw [Bool.and_eq_true, List.any_eq_true]
  unfold duplicates
  apply and_congr Iff.rfl
  constructor
  · rintro ⟨i, _, passed⟩
    unfold passes at passed
    simp only [Bool.and_eq_true, decide_eq_true_eq] at passed
    exact ⟨i, _, _, rows_eq_some.mpr ⟨passed.1, rfl, rfl⟩, passed.2⟩
  · rintro ⟨i, g, r, row, equal⟩
    obtain ⟨active, rfl, rfl⟩ := rows_eq_some.mp row
    refine ⟨i, (members _ _ _).mpr ?_, ?_⟩
    · rw [agree i active]
      unfold homes fmCoreKeyBucket
      rw [if_pos ⟨valid, active⟩, hashes k valid _ _ equal]
    · unfold passes
      simp [active, equal]

/-! ### Insert -/

def placeKeys (D : ShareDef n) (place : Places) (idx : Nat) (rec : Rec n) (keys : List Nat) :
    Places :=
  fun k i => if i = idx ∧ k ∈ keys then some (fmCoreKeyBucket (D.keydef k) rec) else place k i

theorem placeKeys_nil (rec : Rec n) : placeKeys D place idx rec [] = place := by
  funext k i
  simp [placeKeys]

theorem placeKeys_cons (rec : Rec n) (k : Nat) (keys : List Nat) :
    placeKeys D (setPlace place k idx (some (fmCoreKeyBucket (D.keydef k) rec))) idx rec keys =
      placeKeys D place idx rec (k :: keys) := by
  funext k' i
  unfold placeKeys setPlace
  grind

theorem insertLinkKeys_runs (gran : Gran) (rec : Rec n) (hashes : HashesAgree D)
    (keys : List Nat)
    (s : Core n) (unlocked : ∀ k b, s.owner (.bucket k b) = none)
    (settled : ∀ i, (s.slot i).seq % 2 = 0) (inactive : (s.slot idx).state ≠ .active)
    (place : Places) (placed : Placed s.cell place)
    (agree : ∀ k i, (s.slot i).state = .active → place k i = homes D s k i)
    (distinct : keys.Nodup) (valid : ∀ k ∈ keys, k < D.keys)
    (loose : ∀ k ∈ keys, place k idx = none) :
    ∃ dup cell, Runs t (insertLinkKeys D gran rec idx keys) s dup { s with cell := cell } ∧
      SameFree s.cell cell ∧
      match dup with
      | none => Placed cell (placeKeys D place idx rec keys) ∧
          ∀ k ∈ keys, ¬ duplicates D s rec k
      | some k => ∃ linked rest, keys = linked ++ k :: rest ∧
          Placed cell (placeKeys D place idx rec linked) ∧ duplicates D s rec k := by
  induction keys generalizing s place with
  | nil =>
      refine ⟨none, s.cell, runs_pure none s, SameFree.refl _, ?_, by simp⟩
      rw [placeKeys_nil]
      exact placed
  | cons k rest ih =>
      have inRange := valid k (List.mem_cons_self ..)
      let b := fmCoreKeyBucket (D.keydef k) rec
      have free : s.owner (.bucket k b) = none := unlocked k b
      obtain ⟨dup, checked, found⟩ := dupCheck_finds (t := t)
        (s := s.setOwner (.bucket k b) (some t)) gran rec hashes inRange settled placed (agree k)
      by_cases again : dup = true
      · refine ⟨some k, s.cell, ?_, SameFree.refl _, [], rest, rfl, ?_, found.mp again⟩
        · refine runs_perform_bind (exec_lock free) (runs_bind checked ?_)
          rw [if_pos again]
          refine runs_perform_bind rfl ?_
          rw [setOwner_release free]
          exact runs_pure (some k) s
        · rw [placeKeys_nil]
          exact placed
      · obtain ⟨cell, linked, placedHere, sameFree⟩ := chainLink_placed (t := t) (b := b)
          (s := s.setOwner (.bucket k b) (some t)) placed (loose k (List.mem_cons_self ..))
        have notRest : k ∉ rest := (List.nodup_cons.mp distinct).1
        have agreeHere : ∀ k' i, (s.slot i).state = .active →
            setPlace place k idx (some b) k' i = homes D s k' i := by
          intro k' i active
          have other : ¬ (k' = k ∧ i = idx) := by
            rintro ⟨_, rfl⟩
            exact inactive active
          unfold setPlace
          rw [if_neg other]
          exact agree k' i active
        have looseHere : ∀ k' ∈ rest, setPlace place k idx (some b) k' idx = none := by
          intro k' member
          have other : ¬ (k' = k ∧ idx = idx) := by
            rintro ⟨rfl, _⟩
            exact notRest member
          unfold setPlace
          rw [if_neg other]
          exact loose k' (List.mem_cons_of_mem k member)
        obtain ⟨outcome, cell', ran, sameRest, specified⟩ := ih { s with cell := cell }
          unlocked settled inactive (setPlace place k idx (some b)) placedHere agreeHere
          (List.nodup_cons.mp distinct).2
          (fun k' member => valid k' (List.mem_cons_of_mem k member)) looseHere
        refine ⟨outcome, cell', ?_, sameFree.trans sameRest, ?_⟩
        · refine runs_perform_bind (exec_lock free) (runs_bind checked ?_)
          rw [if_neg again]
          refine runs_bind linked (runs_perform_bind rfl ?_)
          rw [release_cell free]
          exact ran
        · cases outcome with
          | none =>
              rw [placeKeys_cons] at specified
              refine ⟨specified.1, ?_⟩
              intro k' member
              rcases List.mem_cons.mp member with rfl | later
              · exact fun duplicate => again (found.mpr duplicate)
              · exact specified.2 k' later
          | some k' =>
              obtain ⟨before, after, split, placedAfter, duplicate⟩ := specified
              rw [placeKeys_cons] at placedAfter
              exact ⟨k :: before, after, congrArg (k :: ·) split, placedAfter, duplicate⟩

theorem insertRollback_runs (rec : Rec n) (k : Nat) (s : Core n)
    (unlocked : ∀ k b, s.owner (.bucket k b) = none) (place : Places)
    (placed : Placed s.cell place)
    (linked : ∀ k', k' < k → place k' idx = some (fmCoreKeyBucket (D.keydef k') rec)) :
    ∃ cell, Runs t (insertRollback D rec idx k) s (0 - 1) { s with cell := cell } ∧
      SameFree s.cell cell ∧
      Placed cell (fun k' i => if i = idx ∧ k' < k then none else place k' i) := by
  induction k generalizing s place with
  | zero =>
      refine ⟨s.cell, runs_pure _ s, SameFree.refl _, ?_⟩
      simpa using placed
  | succ k ih =>
      let b := fmCoreKeyBucket (D.keydef k) rec
      obtain ⟨cell, unlinked, placedHere, sameFree⟩ := chainUnlink_placed (t := t)
        (s := s.setOwner (.bucket k b) (some t)) placed (linked k (Nat.lt_succ_self k))
      obtain ⟨cell', ran, sameRest, placedRest⟩ := ih { s with cell := cell } unlocked
        (setPlace place k idx none) placedHere (by
          intro k' below
          unfold setPlace
          rw [if_neg (by omega)]
          exact linked k' (by omega))
      refine ⟨cell', runs_locked (unlocked k b) unlinked ran, sameFree.trans sameRest, ?_⟩
      have same : (fun k' i => if i = idx ∧ k' < k + 1 then none else place k' i) =
          fun k' i => if i = idx ∧ k' < k then none else setPlace place k idx none k' i := by
        funext k' i
        unfold setPlace
        grind
      rw [same]
      exact placedRest

theorem Rep.fill (rep : Rep D s (some idx)) (rec : Rec n) :
    Rep D (s.setSlot idx ((s.slot idx).withData rec)) (some idx) ∧
      rows (s.setSlot idx ((s.slot idx).withData rec)) = rows s := by
  have inactive := (rep.spareSlot idx rfl).2
  have states : ∀ i, ((s.setSlot idx ((s.slot idx).withData rec)).slot i).state =
      (s.slot i).state := by
    intro i
    by_cases same : i = idx
    · subst same
      simp [Core.setSlot, Slot.withData]
    · simp [Core.setSlot, same]
  have others : ∀ i, (s.slot i).state = .active →
      (s.setSlot idx ((s.slot idx).withData rec)).slot i = s.slot i := by
    intro i active
    refine Function.update_of_ne ?_ ..
    rintro rfl
    exact inactive active
  have sameHomes : homes D (s.setSlot idx ((s.slot idx).withData rec)) = homes D s := by
    funext k i
    unfold homes
    rw [states]
    by_cases active : (s.slot i).state = .active
    · rw [others i active]
    · simp [active]
  constructor
  · refine ⟨?_, ?_, ?_, ?_, ?_, ?_, rep.capped⟩
    · rw [sameHomes]
      exact rep.placed
    · simp only [states]
      exact rep.freelist
    · simp only [states]
      exact rep.allocated
    · simp only [states]
      exact rep.spareSlot
    · simp only [activeSlots, states]
      exact rep.counted
    · intro i
      by_cases same : i = idx
      · subst same
        simpa [Core.setSlot, Slot.withData] using rep.settled i
      · simpa [Core.setSlot, same] using rep.settled i
  · funext i
    unfold rows
    rw [states]
    by_cases active : (s.slot i).state = .active
    · rw [others i active]
    · simp [active]

theorem Rep.giveBack (rep : Rep D s (some idx)) :
    ∃ cell, Runs t (fmCoreFreeSlot idx) s () { s with cell := cell } ∧
      Rep D { s with cell := cell } none := by
  obtain ⟨free, freelist, inside, all⟩ := rep.freelist
  obtain ⟨below, inactive⟩ := rep.spareSlot idx rfl
  have fresh : idx ∉ free := fun member => (inside idx member).2.2 rfl
  obtain ⟨cell, freed, freelist', sameChains⟩ := freeSlot_freed (t := t) freelist fresh
  refine ⟨cell, freed, rep.placed.same sameChains, ⟨idx :: free, freelist', ?_, ?_⟩,
    rep.allocated, ?_, rep.counted, rep.settled, rep.capped⟩
  · intro i member
    rcases List.mem_cons.mp member with rfl | member
    · exact ⟨below, inactive, by simp⟩
    · exact ⟨(inside i member).1, (inside i member).2.1, by simp⟩
  · intro i below' limit inactive' _
    by_cases same : i = idx
    · exact same ▸ List.mem_cons_self ..
    · exact List.mem_cons_of_mem idx
        (all i below' limit inactive' fun clash => same (Option.some.inj clash).symm)
  · intro i impossible
    cases impossible

theorem Rep.publish {cell : Cell → Option Nat} (rep : Rep D s (some idx))
    (sameFree : SameFree s.cell cell)
    (placed : Placed cell (placeKeys D (homes D s) idx (s.slot idx).data (List.range D.keys))) :
    Rep D { s.setSlot idx { s.slot idx with state := .active } with
      cell := cell, records := s.records + 1 } none := by
  obtain ⟨below, inactive⟩ := rep.spareSlot idx rfl
  let s' : Core n := { s.setSlot idx { s.slot idx with state := .active } with
      cell := cell, records := s.records + 1 }
  have here : s'.slot idx = { s.slot idx with state := .active } := Function.update_self ..
  have others : ∀ i, i ≠ idx → s'.slot i = s.slot i := fun i different =>
    Function.update_of_ne different ..
  change Rep D s' none
  constructor
  · have sameHomes : homes D s' = placeKeys D (homes D s) idx (s.slot idx).data
        (List.range D.keys) := by
      funext k i
      unfold placeKeys homes
      by_cases same : i = idx
      · subst same
        rw [here]
        simp [inactive]
      · rw [others i same]
        simp [same]
    rw [sameHomes]
    exact placed
  · obtain ⟨free, freelist, inside, all⟩ := rep.freelist
    refine ⟨free, freelist.same sameFree, ?_, ?_⟩
    · intro i member
      obtain ⟨below', inactive', different⟩ := inside i member
      rw [others i fun same => different (congrArg some same.symm)]
      exact ⟨below', inactive', by simp⟩
    · intro i below' limit inactive' _
      have different : i ≠ idx := by
        rintro rfl
        exact inactive' (congrArg Slot.state here)
      rw [others i different] at inactive'
      exact all i below' limit inactive' fun clash => different (Option.some.inj clash).symm
  · intro i active
    by_cases same : i = idx
    · subst same
      exact below
    · rw [others i same] at active
      exact rep.allocated i active
  · intro i impossible
    cases impossible
  · have grown : activeSlots s' = insert idx (activeSlots s) := by
      ext i
      unfold activeSlots
      simp only [Finset.mem_filter, Finset.mem_range, Finset.mem_insert]
      by_cases same : i = idx
      · subst same
        simp only [here, true_or, iff_true, and_true]
        exact below
      · rw [others i same]
        simp only [same, false_or]
        exact Iff.rfl
    have fresh : idx ∉ activeSlots s := by
      simp [activeSlots, inactive]
    change s.records + 1 = _
    rw [grown, Finset.card_insert_of_notMem fresh, rep.counted]
    simp
  · intro i
    by_cases same : i = idx
    · subst same
      rw [here]
      exact rep.settled i
    · rw [others i same]
      exact rep.settled i
  · exact rep.capped

theorem Rep.withCell {cell : Cell → Option Nat} {spare : Option Nat} (rep : Rep D s spare)
    (sameFree : SameFree s.cell cell) (placed : Placed cell (homes D s)) :
    Rep D { s with cell := cell } spare := by
  obtain ⟨free, freelist, inside, all⟩ := rep.freelist
  exact ⟨placed, ⟨free, freelist.same sameFree, inside, all⟩, rep.allocated, rep.spareSlot,
    rep.counted, rep.settled, rep.capped⟩

def insertSpec (D : ShareDef n) (s : Core n) (rec : Rec n) (result : Except Err Nat)
    (s' : Core n) : Prop :=
  match result with
  | .ok idx => canAlloc D s ∧ (∀ k, k < D.keys → ¬ duplicates D s rec k) ∧
      rows s idx = none ∧ ∃ g, rows s' = Function.update (rows s) idx (some (g, rec))
  | .error (.dupKey _) => canAlloc D s ∧ (∃ k, k < D.keys ∧ duplicates D s rec k) ∧
      rows s' = rows s
  | .error e => (e = .full ∨ e = .nomem) ∧ ¬ canAlloc D s ∧ rows s' = rows s

theorem duplicates_congr {s' : Core n} (same : rows s' = rows s) (rec : Rec n) (k : Nat) :
    duplicates D s' rec k ↔ duplicates D s rec k := by
  unfold duplicates
  rw [same]

theorem homes_inactive {i : Nat} (inactive : (s.slot i).state ≠ .active) (k : Nat) :
    homes D s k i = none :=
  if_neg fun both => inactive both.2

private theorem range_split {keys k : Nat} {before after : List Nat}
    (split : List.range keys = before ++ k :: after) (k' : Nat) : k' ∈ before ↔ k' < k := by
  have increasing : (before ++ k :: after).Pairwise (· < ·) := split ▸ List.pairwise_lt_range
  rw [List.pairwise_append, List.pairwise_cons] at increasing
  have all := List.mem_range (m := k') (n := keys)
  have here := List.mem_range (m := k) (n := keys)
  rw [split, List.mem_append, List.mem_cons] at all here
  constructor
  · intro member
    exact increasing.2.2 k' member k (List.mem_cons_self ..)
  · intro earlier
    have below := here.mp (Or.inr (Or.inl rfl))
    rcases all.mpr (by omega) with member | rfl | later
    · exact member
    · exact absurd earlier (Nat.lt_irrefl _)
    · exact absurd (increasing.2.1.1 k' later) (by omega)

theorem insertRow_runs (hashes : HashesAgree D) (rep : Rep D s none) (quiet : Quiet s)
    (rec : Rec n) :
    ∃ result s', Runs t (fmCoreInsertRow D gran rec) s result s' ∧ Rep D s' none ∧ Quiet s' ∧
      insertSpec D s rec result s' := by
  have held := rep.withOwner (Function.update s.owner .structMutex (some t))
  obtain ⟨slot, s₁, allocated, sameRows, sameOwner, possible, rep₁⟩ :=
    allocSlot_runs (t := t) held fun i => by simp [quiet (.wlock i)]
  have released : ∀ l, Function.update s₁.owner .structMutex none l = none := by
    intro l
    rw [sameOwner]
    by_cases same : l = .structMutex
    · simp [same]
    · simp [same, quiet l]
  cases slot with
  | none =>
      refine ⟨_, _, runs_perform_bind (exec_lock (quiet _)) (runs_bind allocated
        (runs_perform_bind rfl (runs_perform_bind rfl (runs_pure _ _)))),
        rep₁.withOwner _, released, ?_⟩
      have impossible : ¬ canAlloc D s := fun can => by
        simpa using possible.mpr can
      by_cases full : D.chunkCap ≤ s₁.chunkCnt
      · rw [show (s₁.setOwner .structMutex none).chunkCnt = s₁.chunkCnt from rfl, if_pos full]
        exact ⟨Or.inl rfl, impossible, sameRows⟩
      · rw [show (s₁.setOwner .structMutex none).chunkCnt = s₁.chunkCnt from rfl, if_neg full]
        exact ⟨Or.inr rfl, impossible, sameRows⟩
  | some idx =>
      have can : canAlloc D s := possible.mp rfl
      obtain ⟨rep₂, rows₂⟩ := rep₁.fill rec
      have inactive := (rep₂.spareSlot idx rfl).2
      have unlocked : ∀ k b, s₁.owner (.bucket k b) = none := by
        intro k b
        rw [sameOwner]
        exact (owner_setOwner_of_ne (by simp)).trans (quiet _)
      obtain ⟨dup, cell, linked, sameFree, specified⟩ := insertLinkKeys_runs (t := t)
        gran rec hashes (List.range D.keys) (s₁.setSlot idx ((s₁.slot idx).withData rec))
        unlocked rep₂.settled inactive
        (homes D _) rep₂.placed (fun _ _ _ => rfl) List.nodup_range
        (fun k member => List.mem_range.mp member) (fun k _ => homes_inactive inactive k)
      have rowsAfter : rows (s₁.setSlot idx ((s₁.slot idx).withData rec)) = rows s :=
        rows₂.trans sameRows
      have dups : ∀ k, duplicates D (s₁.setSlot idx ((s₁.slot idx).withData rec)) rec k ↔
          duplicates D s rec k := fun k =>
        duplicates_congr rowsAfter rec k
      cases dup with
      | none =>
          obtain ⟨placed, noDup⟩ := specified
          have published := rep₂.publish sameFree (by
            simpa [Core.setSlot, Slot.withData] using placed)
          refine ⟨.ok idx, _, runs_perform_bind (exec_lock (quiet _)) (runs_bind allocated
            (runs_bind (memcpyIn_runs rec) (runs_bind linked (runs_perform_bind rfl
              (runs_perform_bind rfl (runs_perform_bind rfl (runs_pure _ _))))))),
            published.withOwner _, released, can, fun k below => ?_, ?_, ?_⟩
          · exact fun duplicate => noDup k (List.mem_range.mpr below) ((dups k).mpr duplicate)
          · rw [← rowsAfter]
            exact if_neg inactive
          · refine ⟨(s₁.slot idx).gen, ?_⟩
            rw [← rowsAfter]
            funext i
            by_cases same : i = idx
            · subst same
              simp [rows, Core.setSlot, Core.setOwner, Slot.withData]
            · simp [rows, Core.setSlot, Core.setOwner, same]
      | some k =>
          obtain ⟨before, after, split, placed, duplicate⟩ := specified
          have below : k < D.keys := by
            rw [← List.mem_range, split]
            simp
          have earlier := range_split split
          have linkedBefore : ∀ k', k' < k → placeKeys D
              (homes D (s₁.setSlot idx ((s₁.slot idx).withData rec))) idx rec before k' idx =
              some (fmCoreKeyBucket (D.keydef k') rec) := by
            intro k' below'
            simp [placeKeys, (earlier k').mpr below']
          obtain ⟨cell', unlinked, sameFree', placed'⟩ := insertRollback_runs (t := t)
            rec k { s₁.setSlot idx ((s₁.slot idx).withData rec) with cell := cell } unlocked _
            placed linkedBefore
          have restored : (fun k' i => if i = idx ∧ k' < k then none else placeKeys D
              (homes D (s₁.setSlot idx ((s₁.slot idx).withData rec))) idx rec before k' i) =
              homes D (s₁.setSlot idx ((s₁.slot idx).withData rec)) := by
            funext k' i
            simp only [placeKeys, earlier k']
            by_cases here : i = idx ∧ k' < k
            · rw [if_pos here, here.1]
              exact (homes_inactive inactive k').symm
            · rw [if_neg here, if_neg here]
          rw [restored] at placed'
          have rep₃ := rep₂.withCell (sameFree.trans sameFree') placed'
          obtain ⟨cell'', freed, rep₄⟩ := rep₃.giveBack (t := t)
          refine ⟨.error (.dupKey 0), _, runs_perform_bind (exec_lock (quiet _))
            (runs_bind allocated (runs_bind (memcpyIn_runs rec) (runs_bind linked
              (runs_bind unlinked (runs_bind freed (runs_perform_bind rfl
                (runs_pure _ _))))))), rep₄.withOwner _, released, can,
            ⟨k, below, (dups k).mp duplicate⟩, rowsAfter⟩

end Fastmem
