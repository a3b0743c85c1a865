/-
Index traversals by one handler.

A traversal of the rows that match a key is an index_read_map followed by
index_next. Its position is a slot number. delete_row forgets that number, and a
slot another handler deleted is in no chain; fm_core_find_next starts to test
chain nodes only behind its position, so a traversal whose row is gone ends there.
-/

import Fastmem.Handler.RowOperations
import Fastmem.Keys.RecordKeys

set_option autoImplicit false

namespace Fastmem

open Prog (perform iterate)
open Machine

variable {n : Nat} {t : Nat} {s : Core n} {T : TableShare n} {gran : Gran} {h : Handler}

/-! ### The locks of a handler -/

def Handler.held (h : Handler) : Option Nat := if h.rowLocked then h.lockedSlot else none

/-- Thread `t` has the lock of this slot; every other lock is free. -/
def rowOwner (t : Nat) (row : Option Nat) : Lock → Option Nat
  | .wlock idx => if row = some idx then some t else none
  | _ => none

theorem update_rowOwner_none (t : Nat) (row : Option Nat) {idx : Nat} (held : row = some idx) :
    Function.update (rowOwner t row) (.wlock idx) none = rowOwner t none := by
  funext l
  by_cases here : l = .wlock idx
  · rw [here, Function.update_self]
    rfl
  · rw [Function.update_of_ne here, held]
    cases l with
    | wlock other =>
        have different : ¬ some idx = some other := fun same =>
          here (Option.some.inj same ▸ rfl)
        exact if_neg different
    | bucket k b => rfl
    | structMutex => rfl

theorem update_rowOwner_some (t idx : Nat) :
    Function.update (rowOwner t none) (.wlock idx) (some t) = rowOwner t (some idx) := by
  funext l
  by_cases here : l = .wlock idx
  · rw [here, Function.update_self]
    exact (if_pos rfl).symm
  · rw [Function.update_of_ne here]
    cases l with
    | wlock other =>
        have different : ¬ some idx = some other := fun same =>
          here (Option.some.inj same ▸ rfl)
        exact (if_neg different).symm
    | bucket k b => rfl
    | structMutex => rfl

def Handler.unlocked (h : Handler) : Handler :=
  if h.rowLocked then { h with rowLocked := false, lockedSlot := none } else h

theorem Handler.unlocked_held (h : Handler) : h.unlocked.held = none := by
  unfold unlocked held
  by_cases locked : h.rowLocked = true <;> simp [locked]

theorem unlockCurrentRow_runs (alone : s.owner = rowOwner t h.held) :
    Runs t (unlockCurrentRow h) s h.unlocked { s with owner := rowOwner t none } := by
  obtain ⟨slot, g, inx, key, len, errkey, update, check, active, write, locked, row⟩ := h
  cases locked with
  | false =>
      rw [show rowOwner t none = s.owner from alone.symm]
      exact runs_pure _ s
  | true =>
      cases row with
      | none =>
          rw [show rowOwner t none = s.owner from alone.symm]
          exact runs_pure _ s
      | some idx =>
          have back : s.setOwner (.wlock idx) none = { s with owner := rowOwner t none } := by
            unfold Core.setOwner
            rw [show s.owner = rowOwner t (some idx) from alone, update_rowOwner_none t _ rfl]
          refine runs_perform_bind rfl ?_
          rw [back]
          exact runs_pure _ _

def Handler.locking (h : Handler) (idx : Nat) : Handler :=
  { h with rowLocked := true, lockedSlot := some idx }

theorem lockCurrentRow_runs {idx : Nat} (current : h.currentSlot = some idx)
    (alone : s.owner = rowOwner t h.held) :
    Runs t (lockCurrentRow h) s (h.locking idx)
      { s with owner := rowOwner t (some idx) } := by
  unfold lockCurrentRow
  rw [current]
  by_cases already : h.rowLocked = true ∧ h.lockedSlot = some idx
  · simp only [if_pos already]
    have sameHandler : h.locking idx = h := by
      unfold Handler.locking
      rw [← already.1, ← already.2]
    have sameState : ({ s with owner := rowOwner t (some idx) } : Core n) = s := by
      rw [← show h.held = some idx from (if_pos already.1).trans already.2, ← alone]
    rw [sameHandler, sameState]
    exact runs_pure _ s
  · simp only [if_neg already]
    have free : ({ s with owner := rowOwner t none } : Core n).owner (.wlock idx) = none := rfl
    refine runs_bind (unlockCurrentRow_runs alone) (runs_perform_bind (exec_lock free) ?_)
    have taken : ({ s with owner := rowOwner t none } : Core n).setOwner (.wlock idx) (some t) =
        { s with owner := rowOwner t (some idx) } := by
      unfold Core.setOwner
      rw [update_rowOwner_some]
    have sameHandler : h.unlocked.locking idx = h.locking idx := by
      unfold Handler.locking Handler.unlocked
      by_cases locked : h.rowLocked = true <;> simp [locked]
    rw [taken, ← sameHandler]
    exact runs_pure _ _

/-! ### Reads -/

structure Handler.On (h : Handler) (s : Core n) (idx : Nat) : Prop where
  slot : h.currentSlot = some idx
  gen : h.currentGen = (s.slot idx).gen

theorem fmRereadLocked_runs {idx : Nat} (current : h.currentSlot = some idx)
    (active : (s.slot idx).state = .active) (even : (s.slot idx).seq % 2 = 0) :
    Runs t (fmRereadLocked gran h) s
      (.ok (s.slot idx).data, { h with currentGen := (s.slot idx).gen }) s := by
  obtain ⟨slot, g, inx, key, len, errkey, update, check, index, write, locked, row⟩ := h
  obtain rfl : slot = some idx := current
  have read : readOutcome s idx true (s.slot idx).gen = .ok (s.slot idx).data :=
    if_pos ⟨active, fun _ => rfl⟩
  refine runs_perform_bind rfl (runs_bind (readRow_runs even true (s.slot idx).gen) ?_)
  rw [read]
  exact runs_pure _ s

def Handler.SameKey (h h' : Handler) : Prop := h'.lastinx = h.lastinx ∧ h'.lastkey = h.lastkey

theorem afterRead_runs {idx : Nat} (gran : Gran) (gone : HaErr) (on : h.On s idx)
    (active : (s.slot idx).state = .active) (even : (s.slot idx).seq % 2 = 0)
    (alone : s.owner = rowOwner t h.held) :
    ∃ h', Runs t (afterRead gran gone (s.slot idx).data h) s (.ok (s.slot idx).data, h')
        { s with owner := rowOwner t h'.held } ∧
      h'.On s idx ∧ h.SameKey h' ∧
      (h.writeStmt = true → h'.writeStmt = true ∧ h'.held = some idx) := by
  unfold afterRead
  by_cases write : h.writeStmt = true
  · rw [if_pos write]
    refine ⟨{ h.locking idx with currentGen := (s.slot idx).gen }, ?_, ⟨on.slot, rfl⟩, ⟨rfl, rfl⟩,
      fun _ => ⟨write, rfl⟩⟩
    exact runs_bind (lockCurrentRow_runs on.slot alone)
      (runs_bind (fmRereadLocked_runs on.slot active even) (runs_pure _ _))
  · rw [if_neg write]
    refine ⟨h, ?_, on, ⟨rfl, rfl⟩, fun impossible => absurd impossible write⟩
    rw [← alone]
    exact runs_pure _ s

def keyBucket (T : TableShare n) (k : Nat) (key : PackedKey) : Nat :=
  fmBucket (T.core.keydef k) ((T.core.keydef k).ops.hashKey key)

/-- `read_row == FM_ERR_OK && cmp_rec_key == 0` of a chain node. -/
def hits (T : TableShare n) (s : Core n) (k : Nat) (key : PackedKey) : Nat → Bool :=
  passes s fun buf => (T.core.keydef k).ops.cmpRecKey buf key = 0

def Matches (T : TableShare n) (s : Core n) (k : Nat) (key : PackedKey) (i : Nat) : Prop :=
  ∃ g r, rows s i = some (g, r) ∧ (T.core.keydef k).ops.cmpRecKey r key = 0

theorem hits_iff {k : Nat} {key : PackedKey} {i : Nat} :
    hits T s k key i = true ↔ Matches T s k key i := by
  unfold hits passes
  rw [Bool.and_eq_true, decide_eq_true_eq, decide_eq_true_eq]
  constructor
  · rintro ⟨active, same⟩
    exact ⟨_, _, rows_eq_some.mpr ⟨active, rfl, rfl⟩, same⟩
  · rintro ⟨g, r, row, same⟩
    obtain ⟨active, rfl, rfl⟩ := rows_eq_some.mp row
    exact ⟨active, same⟩

theorem Matches.active {k : Nat} {key : PackedKey} {i : Nat} (row : Matches T s k key i) :
    (s.slot i).state = .active := by
  obtain ⟨g, r, live, _⟩ := row
  exact (rows_eq_some.mp live).1

theorem matches_iff {k i : Nat} {key : PackedKey} : Matches T s k key i ↔
    (s.slot i).state = .active ∧ (T.core.keydef k).ops.cmpRecKey (s.slot i).data key = 0 := by
  rw [← hits_iff]
  unfold hits passes
  rw [Bool.and_eq_true, decide_eq_true_eq, decide_eq_true_eq]

theorem mem_chain_iff {chain : ChainLists} {k i : Nat} {key : PackedKey}
    (members : ∀ k b i, i ∈ chain k b ↔ homes T.core s k i = some b) (valid : k < T.core.keys)
    (row : Matches T s k key i) : i ∈ chain k (keyBucket T k key) ↔
      fmCoreKeyBucket (T.core.keydef k) (s.slot i).data = keyBucket T k key := by
  rw [members, homes, if_pos ⟨valid, row.active⟩, Option.some.injEq]

/-- The key buffer after a successful index_read_map: only the key of a unique key without the
flag of a NULL part is not kept. -/
def Handler.keyAfter (h : Handler) (kd : FmKeydef) (key : PackedKey) : PackedKey :=
  if kd.nosame && !kd.nullPartKey then h.lastkey else (h.keepKey kd key).lastkey

section Lookup

variable {chain : ChainLists} (chains : Chains s.cell chain)
  (settled : ∀ i, (s.slot i).seq % 2 = 0) (alone : s.owner = rowOwner t h.held)

include chains settled alone

theorem fmFindKey_runs (gran : Gran) (inx : Nat) (key : PackedKey) :
    match (chain inx (keyBucket T inx key)).find? (hits T s inx key) with
    | none => ∃ h', Runs t (fmFindKey T gran inx key h) s (.error .keyNotFound, h') s
    | some i => ∃ h', Runs t (fmFindKey T gran inx key h) s (.ok (s.slot i).data, h') s ∧
        h'.On s i ∧ h'.writeStmt = h.writeStmt ∧ h'.held = h.held ∧ h'.lastinx = some inx ∧
        h'.lastkey = h.keyAfter (T.keydef inx) key := by
  have looked : Runs t (fmCoreFind T.core gran inx key) s (findOutcome s
      (fun buf => (T.core.keydef inx).ops.cmpRecKey buf key = 0)
      (chain inx (keyBucket T inx key))) s :=
    find_runs (chains.threaded _ _) (fun i _ => settled i) (by rw [alone]; rfl)
  cases found : (chain inx (keyBucket T inx key)).find? (hits T s inx key) with
  | none =>
      rw [findOutcome_none found] at looked
      exact ⟨_, runs_bind looked (runs_pure _ s)⟩
  | some i =>
      rw [findOutcome_some found] at looked
      refine ⟨_, runs_bind looked (runs_perform_bind rfl (runs_pure _ s)), ⟨rfl, rfl⟩, ?_, ?_, rfl,
        ?_⟩
      · dsimp only
        split <;> rfl
      · unfold Handler.held
        dsimp only
        split <;> rfl
      · unfold Handler.keyAfter
        dsimp only
        split <;> rfl

theorem fmFindNextKey_runs (gran : Gran) (inx : Nat) (key : PackedKey) (cur : Option Nat) :
    match (pastCursor cur (chain inx (keyBucket T inx key))).find? (hits T s inx key) with
    | none => ∃ h', Runs t (fmFindNextKey T gran inx key cur h) s (.error .keyNotFound, h') s ∧
        h'.update.noKey = false
    | some i => ∃ h', Runs t (fmFindNextKey T gran inx key cur h) s (.ok (s.slot i).data, h') s ∧
        h'.On s i ∧ h'.writeStmt = h.writeStmt ∧ h'.held = h.held ∧ h'.lastinx = some inx ∧
        (key = h.lastkey → h'.lastkey = h.lastkey) := by
  have looked : Runs t (fmCoreFindNext T.core gran inx key cur) s (findOutcome s
      (fun buf => (T.core.keydef inx).ops.cmpRecKey buf key = 0)
      (pastCursor cur (chain inx (keyBucket T inx key)))) s :=
    findNext_runs cur (chains.threaded _ _) settled fun b => by rw [alone]; rfl
  cases found : (pastCursor cur (chain inx (keyBucket T inx key))).find? (hits T s inx key) with
  | none =>
      rw [findOutcome_none found] at looked
      exact ⟨_, runs_bind looked (runs_pure _ s), rfl⟩
  | some i =>
      rw [findOutcome_some found] at looked
      refine ⟨_, runs_bind looked (runs_perform_bind rfl (runs_pure _ s)), ⟨rfl, rfl⟩, ?_, ?_, rfl,
        ?_⟩
      · dsimp only
        split <;> rfl
      · unfold Handler.held
        dsimp only
        split <;> rfl
      · rintro rfl
        -- a copy of the buffer onto itself
        dsimp only
        split
        · exact List.take_append_drop _ _
        · rfl

theorem indexReadMap_runs (gran : Gran) (key : PackedKey) :
    match (chain h.activeIndex (keyBucket T h.activeIndex key)).find?
        (hits T s h.activeIndex key) with
    | none => ∃ e h', Runs t (indexReadMap T gran key h) s (.error e, h') s
    | some i => ∃ h', Runs t (indexReadMap T gran key h) s (.ok (s.slot i).data, h')
          { s with owner := rowOwner t h'.held } ∧
        h'.On s i ∧ h'.lastinx = some h.activeIndex ∧
        h'.lastkey = h.keyAfter (T.keydef h.activeIndex) key ∧
        (h.writeStmt = true → h'.writeStmt = true ∧ h'.held = some i) := by
  have looked := fmFindKey_runs (T := T) chains settled alone gran h.activeIndex key
  cases found : (chain h.activeIndex (keyBucket T h.activeIndex key)).find?
      (hits T s h.activeIndex key) with
  | none =>
      rw [found] at looked
      obtain ⟨h', ran⟩ := looked
      exact ⟨_, h', runs_bind (runs_bind ran (runs_pure _ s)) (runs_pure _ s)⟩
  | some i =>
      rw [found] at looked
      obtain ⟨h₁, ran, on, write, held, inx, kept⟩ := looked
      have active := (hits_iff.mp (List.find?_some found)).active
      obtain ⟨h', read, on', same, locked⟩ := afterRead_runs gran .keyNotFound on active
        (settled i) (alone.trans (by rw [held]))
      exact ⟨h', runs_bind (runs_bind ran (runs_bind read (runs_pure _ _))) (runs_pure _ _), on',
        same.1.trans inx, same.2.trans kept,
        by rw [← write]; exact locked⟩

theorem indexNext_runs (gran : Gran) {inx : Nat} (last : h.lastinx = some inx) :
    match (pastCursor h.currentSlot (chain inx (keyBucket T inx h.lastkey))).find?
        (hits T s inx h.lastkey) with
    | none => ∃ h', Runs t (indexNext T gran h) s (.error .endOfFile, h') s
    | some i => ∃ h', Runs t (indexNext T gran h) s (.ok (s.slot i).data, h')
          { s with owner := rowOwner t h'.held } ∧ h'.On s i ∧ h.SameKey h' := by
  have looked := fmFindNextKey_runs (T := T) chains settled alone gran inx h.lastkey h.currentSlot
  cases found : (pastCursor h.currentSlot (chain inx (keyBucket T inx h.lastkey))).find?
      (hits T s inx h.lastkey) with
  | none =>
      rw [found] at looked
      obtain ⟨h', ran, known⟩ := looked
      have ended : Runs t (readNext T gran h) s (.missed .endOfFile, h') s := by
        unfold readNext
        rw [last]
        refine runs_bind ran ?_
        simp only [known, and_self, if_true]
        exact runs_pure _ s
      exact ⟨h', runs_bind ended (runs_pure _ s)⟩
  | some i =>
      rw [found] at looked
      obtain ⟨h₁, ran, on, write, held, inx', kept⟩ := looked
      have active := (hits_iff.mp (List.find?_some found)).active
      obtain ⟨h', read, on', same, _⟩ := afterRead_runs gran .keyNotFound on active
        (settled i) (alone.trans (by rw [held]))
      have found : Runs t (readNext T gran h) s (.row (s.slot i).data, h')
          { s with owner := rowOwner t h'.held } := by
        unfold readNext
        rw [last]
        exact runs_bind ran (runs_bind read (runs_pure _ _))
      exact ⟨h', runs_bind found (runs_pure _ _), on', same.1.trans (inx'.trans last.symm),
        same.2.trans (kept rfl)⟩

end Lookup

/-! ### Deletes -/

theorem Handler.held_eq {idx : Nat} (held : h.held = some idx) :
    h.rowLocked = true ∧ h.lockedSlot = some idx := by
  unfold Handler.held at held
  by_cases locked : h.rowLocked = true
  · rw [if_pos locked] at held
    exact ⟨locked, held⟩
  · rw [if_neg locked] at held
    cases held

theorem deleteCurrentRow_runs {idx : Nat} (gran : Gran) (rep : Rep T.core s none)
    (on : h.On s idx) (write : h.writeStmt = true) (held : h.held = some idx)
    (active : (s.slot idx).state = .active) (alone : s.owner = rowOwner t h.held) :
    ∃ h' s', Runs t (deleteRow T gran (s.slot idx).data h) s (.ok (), h') s' ∧
      Rep T.core s' none ∧ s'.owner = rowOwner t none ∧
      rows s' = Function.update (rows s) idx none ∧
      h'.currentSlot = none ∧ h'.held = none := by
  obtain ⟨locked, lockedSlot⟩ := Handler.held_eq held
  have taken : Runs t (takeCurrentRow h) s (true, h) s := by
    unfold takeCurrentRow
    rw [if_pos ⟨write, locked, lockedSlot.trans on.slot.symm⟩]
    exact runs_pure _ s
  obtain ⟨result, s', deleted, rep', kept, spec⟩ :
      ∃ result s', Runs t (fmCoreDeleteRowLocked T.core gran idx h.currentGen) s result s' ∧
        Rep T.core s' none ∧ s'.owner = s.owner ∧ deleteSpec s idx h.currentGen result s' :=
    deleteRowLocked_runs gran h.currentGen rep (fun k b => by rw [alone]; rfl) (by rw [alone]; rfl)
  have live : rows s idx = some (h.currentGen, (s.slot idx).data) :=
    rows_eq_some.mpr ⟨active, on.gen.symm, rfl⟩
  cases result with
  | error e => exact absurd live (spec.2.1 _)
  | ok done =>
      let gone : Handler := { h with
        update := { HaState.none with deleted := true }
        currentSlot := none }
      have checked : readOutcome s idx true h.currentGen = .ok (s.slot idx).data :=
        if_pos ⟨active, fun _ => on.gen.symm⟩
      have removed : Runs t (fmDeleteLocked T gran (s.slot idx).data h) s (.ok (), gone) s' := by
        unfold fmDeleteLocked
        rw [on.slot]
        by_cases check : h.readCheckUsed = true
        · simp only [if_pos check]
          have read : Runs t (fmCoreReadRow gran idx true h.currentGen) s
              (.ok (s.slot idx).data) s :=
            checked ▸ readRow_runs (rep.settled idx) true h.currentGen
          refine runs_bind read ?_
          simp only [ne_eq, not_true_eq_false, if_false]
          exact runs_bind deleted (runs_pure _ _)
        · simp only [if_neg check]
          exact runs_bind deleted (runs_pure _ _)
      have unlocks : Runs t (unlockCurrentRow gone) s' gone.unlocked
          { s' with owner := rowOwner t none } :=
        unlockCurrentRow_runs (kept.trans alone)
      refine ⟨gone.unlocked, _, runs_bind taken (runs_bind removed (runs_bind unlocks
        (runs_pure _ _))), rep'.withOwner _, rfl, spec.2, ?_, gone.unlocked_held⟩
      unfold Handler.unlocked
      split <;> rfl

/-! ### Deleting what a traversal returns -/

/-- index_read_map, then delete_row and index_next in turn until index_next fails. -/
def deleteMatches (T : TableShare n) (gran : Gran) (key : PackedKey) (h : Handler) :
    CoreProg n (HaErr × Handler) := do
  let (first, h) ← indexReadMap T gran key h
  match first with
  | .error e => return (e, h)
  | .ok record =>
      iterate (record, h) fun (record, h) => do
        let (_, h) ← deleteRow T gran record h
        let (next, h) ← indexNext T gran h
        match next with
        | .ok record => return .inl (record, h)
        | .error e => return .inr (e, h)

/-- Only the first row of the traversal is deleted: delete_row leaves no position, and
index_next finds nothing behind none. -/
theorem deleteMatches_runs {chain : ChainLists} (gran : Gran) (key : PackedKey)
    (rep : Rep T.core s none) (chains : Chains s.cell chain) (write : h.writeStmt = true)
    (alone : s.owner = rowOwner t h.held) :
    ∃ result s', Runs t (deleteMatches T gran key h) s result s' ∧
      match (chain h.activeIndex (keyBucket T h.activeIndex key)).find?
          (hits T s h.activeIndex key) with
      | none => rows s' = rows s
      | some i => rows s' = Function.update (rows s) i none := by
  have looked := indexReadMap_runs (T := T) chains rep.settled alone gran key
  cases found : (chain h.activeIndex (keyBucket T h.activeIndex key)).find?
      (hits T s h.activeIndex key) with
  | none =>
      rw [found] at looked
      obtain ⟨e, h', ran⟩ := looked
      exact ⟨_, s, runs_bind ran (runs_pure _ s), rfl⟩
  | some i =>
      rw [found] at looked
      obtain ⟨h₁, ran, on, _, _, locked⟩ := looked
      have active := (hits_iff.mp (List.find?_some found)).active
      obtain ⟨h₂, s₂, deleted, rep₂, owner₂, rowsAfter, forgotten, held₂⟩ :=
        deleteCurrentRow_runs (t := t) gran (rep.withOwner (rowOwner t h₁.held))
          ⟨on.slot, on.gen⟩ (locked write).1 (locked write).2 active rfl
      obtain ⟨chain₂, chains₂, _⟩ := rep₂.placed
      have next : ∃ e h₃, Runs t (indexNext T gran h₂) s₂ (.error e, h₃) s₂ := by
        cases inx : h₂.lastinx with
        | none =>
            refine ⟨.wrongIndex, h₂, ?_⟩
            unfold indexNext readNext
            rw [inx]
            exact runs_bind (runs_pure _ s₂) (runs_pure _ s₂)
        | some k =>
            have ended := indexNext_runs (T := T) chains₂ rep₂.settled
              (owner₂.trans (by rw [held₂])) gran inx
            rw [forgotten, pastCursor_none] at ended
            obtain ⟨h₃, ran₃⟩ := ended
            exact ⟨_, h₃, ran₃⟩
      obtain ⟨e, h₃, ran₃⟩ := next
      refine ⟨(e, h₃), s₂, runs_bind ran (Exec.iterate_leave ?_), rowsAfter⟩
      exact runs_bind deleted (runs_bind ran₃ (runs_pure _ s₂))

/-! ### When a traversal survives -/

def DeletesMatches (T : TableShare n) (gran : Gran) (t : Nat) (s : Core n) (key : PackedKey)
    (h : Handler) : Prop :=
  ∃ result s', Runs t (deleteMatches T gran key h) s result s' ∧
    ∀ i, (Matches T s h.activeIndex key i → rows s' i = none) ∧
      (¬ Matches T s h.activeIndex key i → rows s' i = rows s i)

def Continues (T : TableShare n) (gran : Gran) (t : Nat) (s : Core n) (inx : Nat) (h : Handler) :
    Prop :=
  (∃ i, Matches T s inx h.lastkey i) →
    ∃ record h' s' i g, Runs t (indexNext T gran h) s (.ok record, h') s' ∧
      h'.currentSlot = some i ∧ rows s' i = some (g, record) ∧
      (T.core.keydef inx).ops.cmpRecKey record h.lastkey = 0

def Handler.Gone (h : Handler) (s : Core n) : Prop :=
  ∀ idx r, h.currentSlot = some idx → rows s idx ≠ some (h.currentGen, r)

structure OneMatch (T : TableShare n) (s : Core n) (k : Nat) (key : PackedKey) : Prop where
  unique : ∀ i j, Matches T s k key i → Matches T s k key j → i = j
  bucket : ∀ i, Matches T s k key i →
    fmCoreKeyBucket (T.core.keydef k) (s.slot i).data = keyBucket T k key

def MatchBehind (T : TableShare n) (s : Core n) (k : Nat) (key : PackedKey) (cur : Option Nat) :
    Prop :=
  ∃ idx before after, cur = some idx ∧
    Threaded s.cell (Cell.next k) (.head k (keyBucket T k key)) (before ++ idx :: after) ∧
    ∃ i ∈ after, Matches T s k key i

theorem deletesMatches_iff (gran : Gran) (rep : Rep T.core s none)
    (alone : s.owner = rowOwner t h.held) (write : h.writeStmt = true)
    (valid : h.activeIndex < T.core.keys) (key : PackedKey) :
    DeletesMatches T gran t s key h ↔ OneMatch T s h.activeIndex key := by
  obtain ⟨chain, chains, members⟩ := rep.placed
  obtain ⟨result, s', ran, rowsAfter⟩ :=
    deleteMatches_runs (t := t) gran key rep chains write alone
  have exact_ : DeletesMatches T gran t s key h ↔
      ∀ i, (Matches T s h.activeIndex key i → rows s' i = none) ∧
        (¬ Matches T s h.activeIndex key i → rows s' i = rows s i) := by
    constructor
    · rintro ⟨result', s₂, ran', deletes⟩
      obtain ⟨_, rfl⟩ := ran.deterministic ran'
      exact deletes
    · intro deletes
      exact ⟨result, s', ran, deletes⟩
  have present : ∀ i, Matches T s h.activeIndex key i → rows s i ≠ none := by
    rintro i ⟨g, r, row, _⟩ missing
    rw [row] at missing
    cases missing
  rw [exact_]
  cases found : (chain h.activeIndex (keyBucket T h.activeIndex key)).find?
      (hits T s h.activeIndex key) with
  | none =>
      rw [found] at rowsAfter
      constructor
      · intro deletes
        have noMatch : ∀ i, ¬ Matches T s h.activeIndex key i := fun i row =>
          present i row (rowsAfter ▸ (deletes i).1 row)
        exact ⟨fun i _ row => absurd row (noMatch i), fun i row => absurd row (noMatch i)⟩
      · intro one i
        refine ⟨fun row => ?_, fun _ => by rw [rowsAfter]⟩
        have home : homes T.core s h.activeIndex i = some (keyBucket T h.activeIndex key) := by
          rw [← one.bucket i row]
          exact if_pos ⟨valid, row.active⟩
        exact absurd (hits_iff.mpr row) (List.find?_eq_none.mp found i ((members _ _ _).mpr home))
  | some first =>
      rw [found] at rowsAfter
      have hit : Matches T s h.activeIndex key first := hits_iff.mp (List.find?_some found)
      constructor
      · intro deletes
        have only : ∀ i, Matches T s h.activeIndex key i → i = first := by
          intro i row
          by_contra different
          have deleted := (deletes i).1 row
          rw [rowsAfter, Function.update_of_ne different] at deleted
          exact present i row deleted
        refine ⟨fun i j left right => (only i left).trans (only j right).symm, fun i row => ?_⟩
        have home := (members _ _ _).mp (List.mem_of_find?_eq_some found)
        rw [only i row]
        rw [homes, if_pos ⟨valid, hit.active⟩] at home
        exact Option.some.inj home
      · intro one i
        rw [rowsAfter]
        constructor
        · intro row
          rw [one.unique i first row hit, Function.update_self]
        · intro different
          have other : i ≠ first := fun same => different (same ▸ hit)
          rw [Function.update_of_ne other]

theorem continues_iff (gran : Gran) (rep : Rep T.core s none)
    (alone : s.owner = rowOwner t h.held) {inx : Nat} (last : h.lastinx = some inx) :
    Continues T gran t s inx h ↔ (∀ i, ¬ Matches T s inx h.lastkey i) ∨
      MatchBehind T s inx h.lastkey h.currentSlot := by
  obtain ⟨chain, chains, _⟩ := rep.placed
  have next := indexNext_runs (T := T) chains rep.settled alone gran last
  cases found : (pastCursor h.currentSlot (chain inx (keyBucket T inx h.lastkey))).find?
      (hits T s inx h.lastkey) with
  | none =>
      rw [found] at next
      obtain ⟨h', ran⟩ := next
      have behind : ¬ MatchBehind T s inx h.lastkey h.currentSlot := by
        rintro ⟨idx, before, after, current, threaded, i, member, row⟩
        have same := (chains.threaded inx (keyBucket T inx h.lastkey)).unique threaded
        have distinct := threaded.nodup
        have notBefore : idx ∉ before := fun inBefore =>
          (List.nodup_append.mp distinct).2.2 idx inBefore idx (List.mem_cons_self ..) rfl
        rw [current, same, pastCursor_append notBefore] at found
        exact List.find?_eq_none.mp found i member (hits_iff.mpr row)
      constructor
      · intro continues
        refine .inl fun i row => ?_
        obtain ⟨record, h₂, s₂, j, g, ran', _⟩ := continues ⟨i, row⟩
        cases (ran.deterministic ran').1
      · rintro (noMatch | match_)
        · rintro ⟨i, row⟩
          exact absurd row (noMatch i)
        · exact absurd match_ behind
  | some i =>
      rw [found] at next
      obtain ⟨h', ran, on, _⟩ := next
      have hit : Matches T s inx h.lastkey i := hits_iff.mp (List.find?_some found)
      constructor
      · intro _
        obtain ⟨idx, before, after, current, split, member⟩ :=
          mem_pastCursor (List.mem_of_find?_eq_some found)
        exact .inr ⟨idx, before, after, current, split ▸ chains.threaded inx _, i, member, hit⟩
      · intro _ _
        obtain ⟨g, r, row, equal⟩ := hit
        obtain ⟨active, rfl, rfl⟩ := rows_eq_some.mp row
        exact ⟨_, h', _, i, _, ran, on.slot, row, equal⟩

/-- When deleting along a traversal deletes all matching rows, and when a traversal whose row
is gone goes on. -/
theorem indexTraversal_iff (T : TableShare n) (gran : Gran) (t : Nat) (s : Core n)
    (rep : Rep T.core s none) (h : Handler) (alone : s.owner = rowOwner t h.held) :
    (∀ key, h.writeStmt = true → h.activeIndex < T.core.keys →
      (DeletesMatches T gran t s key h ↔ OneMatch T s h.activeIndex key)) ∧
    ∀ inx, h.lastinx = some inx → h.Gone s →
      (Continues T gran t s inx h ↔ (∀ i, ¬ Matches T s inx h.lastkey i) ∨
        MatchBehind T s inx h.lastkey h.currentSlot) :=
  ⟨fun key write valid => deletesMatches_iff gran rep alone write valid key,
    fun _ last _ => continues_iff gran rep alone last⟩

/-! ### A table with two equal rows -/

theorem Rep.canAlloc {D : ShareDef n} (rep : Rep D s none) {i : Nat} (below : i < s.slotCount)
    (limit : i < D.maxRecords) (inactive : (s.slot i).state ≠ .active) : canAlloc D s := by
  obtain ⟨free, freelist, _, all⟩ := rep.freelist
  have member : i ∈ free := all i below limit inactive (by simp)
  cases free with
  | nil => cases member
  | cons first rest =>
      left
      rw [freelist.1]
      simp

theorem Rep.slotCount_pos {D : ShareDef n} (rep : Rep D s none) {i : Nat} {g : UInt32} {r : Rec n}
    (row : rows s i = some (g, r)) : fmChunkSize ≤ s.slotCount := by
  have below := rep.allocated i (rows_eq_some.mp row).1
  unfold Core.slotCount at below ⊢
  have some_ : 0 < s.chunkCnt := by
    by_contra none_
    rw [Nat.eq_zero_of_not_pos none_, Nat.zero_mul] at below
    cases below
  exact Nat.le_mul_of_pos_left _ some_

section EqualRows

variable {D : ShareDef n} (hashes : HashesAgree D) {record : Rec n}
  (unchecked : ∀ k < D.keys, dupChecked (D.keydef k) record = false)

include hashes unchecked

theorem takesRow (gran : Gran) (rep : Rep D s none) (quiet : Quiet s) (room : canAlloc D s) :
    ∃ idx s' g, Runs 0 (fmCoreInsertRow D gran record) s (.ok idx) s' ∧
      Rep D s' none ∧ Quiet s' ∧ rows s idx = none ∧
      rows s' = Function.update (rows s) idx (some (g, record)) := by
  obtain ⟨result, s', ran, rep', quiet', spec⟩ :=
    call_runs (t := 0) gran hashes rep quiet (.insertRow record) trivial
  cases result with
  | ok idx =>
      obtain ⟨_, _, free, g, rowsAfter⟩ := spec
      exact ⟨idx, s', g, ran, rep', quiet', free, rowsAfter⟩
  | error e =>
      cases e with
      | dupKey errkey =>
          obtain ⟨_, ⟨k, valid, checked, _⟩, _⟩ := spec
          rw [unchecked k valid] at checked
          cases checked
      | notFound | eof | deleted | full | nomem => exact absurd room spec.2.1

theorem twoEqualRows (gran : Gran) (garbage : Nat → Rec n) (heap : Heap)
    (large : 2 ≤ D.maxRecords) (room : canAlloc D (Core.fresh garbage heap)) :
    ∃ s : Core n, Rep D s none ∧ Quiet s ∧
      (∃ served, SerialRun D gran (Core.fresh garbage heap) served s) ∧
      ∃ i j g g', i ≠ j ∧ rows s i = some (g, record) ∧ rows s j = some (g', record) := by
  obtain ⟨i, s₁, g₁, ran₁, rep₁, quiet₁, _, rows₁⟩ :=
    takesRow hashes unchecked gran (Rep.fresh D garbage heap) (fun _ => rfl) room
  have row₁ : rows s₁ i = some (g₁, record) := by rw [rows₁, Function.update_self]
  have chunk := rep₁.slotCount_pos row₁
  have room₁ : canAlloc D s₁ := by
    -- Slot 0 or slot 1 is not the one just taken.
    obtain ⟨free, small, different⟩ : ∃ free, free < 2 ∧ free ≠ i := by
      by_cases zero : i = 0
      · exact ⟨1, by decide, by omega⟩
      · exact ⟨0, by decide, by omega⟩
    have vacant : rows s₁ free = none := by
      rw [rows₁, Function.update_of_ne different]
      rfl
    have below : free < s₁.slotCount := by
      unfold fmChunkSize at chunk
      omega
    apply rep₁.canAlloc below (by omega)
    intro active
    rw [rows, if_pos active] at vacant
    cases vacant
  obtain ⟨j, s₂, g₂, ran₂, rep₂, quiet₂, vacant, rows₂⟩ :=
    takesRow hashes unchecked gran rep₁ quiet₁ room₁
  have different : i ≠ j := by
    rintro rfl
    rw [row₁] at vacant
    cases vacant
  let call : SerialCall n := .insertRow record
  have first : SerialRun D gran (Core.fresh garbage heap) ([] ++ [⟨call, .ok i, _⟩]) s₁ :=
    SerialRun.snoc SerialRun.nil (show call.Allowed D _ from trivial) ran₁
  have second : SerialRun D gran (Core.fresh garbage heap)
      ([] ++ [⟨call, .ok i, _⟩] ++ [⟨call, .ok j, _⟩]) s₂ :=
    first.snoc (show call.Allowed D s₁ from trivial) ran₂
  refine ⟨s₂, rep₂, quiet₂, ⟨_, second⟩, i, j, g₁, g₂, different, ?_, ?_⟩
  · rw [rows₂, Function.update_of_ne different, row₁]
  · rw [rows₂, Function.update_self]

end EqualRows

def byteKeydef : FmKeydef :=
  fmPrepareKeydef false [⟨.other, 0, 1, caselessCharset, 0, 0, 0, 0, 0, wholeByte⟩]

def twinTable : TableShare 1 where
  core := fmCoreInitShare 1 4 2 (fun _ => fmKeyOps getRecBits byteKeydef) (fun _ => false)
    byteTable.keys_le byteTable.max_le (byteTable.nbuckets_pow 0)
  keydef _ := byteKeydef

theorem twinTable_hashes : HashesAgree twinTable.core := by
  have wired : WiredTo getRecBits twinTable.core twinTable.keydef := fun _ _ => ⟨rfl, rfl⟩
  refine (wired.keysEquivalent fun k _ seg member => ?_).hashes
  obtain rfl := List.mem_singleton.mp member
  exact caselessCharset_lawful

def writingHandler : Handler :=
  ⟨none, 0, none, [], 0, -1, HaState.none, false, 0, true, false, none⟩

theorem twinTable_twoSevens : ∃ s : Core 1, Rep twinTable.core s none ∧ Quiet s ∧
    (∃ served, SerialRun twinTable.core .whole byteStart served s) ∧
    ∃ i j, i ≠ j ∧ Matches twinTable s 0 [7] i ∧ Matches twinTable s 0 [7] j := by
  obtain ⟨s, rep, quiet, run, i, j, g, g', different, left, right⟩ :=
    twoEqualRows twinTable_hashes (fun _ _ => rfl) .whole (fun _ _ => 0)
      ⟨fun _ => true, 0, 0⟩ (by decide) (.inr ⟨by decide, rfl⟩)
  have equal : (twinTable.core.keydef 0).ops.cmpRecKey (fun _ => 7) [7] = 0 := by decide +kernel
  exact ⟨s, rep, quiet, run, i, j, different, ⟨g, _, left, equal⟩, ⟨g', _, right, equal⟩⟩

theorem quiet_rowOwner {s : Core n} (quiet : Quiet s) : s.owner = rowOwner t none := by
  funext l
  rw [quiet l]
  cases l <;> rfl

/-- One of two equal rows survives a DELETE by their key. -/
theorem indexTraversal_broken : ∃ (s : Core 1) (served : List (Served 1)),
    SerialRun twinTable.core .whole byteStart served s ∧
      (twinTable.keydef writingHandler.activeIndex).nosame = false ∧
      ¬ DeletesMatches twinTable .whole 0 s [7] writingHandler := by
  obtain ⟨s, rep, quiet, ⟨served, run⟩, i, j, different, left, right⟩ := twinTable_twoSevens
  refine ⟨s, served, run, rfl, fun deletes => different ?_⟩
  have one : OneMatch twinTable s 0 [7] :=
    (deletesMatches_iff .whole rep (quiet_rowOwner quiet) rfl (by decide) [7]).mp deletes
  exact one.unique i j left right

/-- Both halves at the table with two rows 7, the second after the handler's own delete. -/
theorem indexTraversal_iff_twinTable : ∃ s : Core 1, Rep twinTable.core s none ∧
    s.owner = rowOwner 0 writingHandler.held ∧
    ¬ DeletesMatches twinTable .whole 0 s [7] writingHandler ∧
    ¬ Continues twinTable .whole 0 s 0 { writingHandler with lastinx := some 0, lastkey := [7] } := by
  obtain ⟨s, rep, quiet, _, i, j, different, left, right⟩ := twinTable_twoSevens
  have alone : s.owner = rowOwner 0 writingHandler.held := quiet_rowOwner quiet
  refine ⟨s, rep, alone, fun deletes => different ?_, fun continues => ?_⟩
  · exact (((indexTraversal_iff twinTable .whole 0 s rep writingHandler alone).1 [7] rfl
      (by decide)).mp deletes).unique i j left right
  · have gone : ({ writingHandler with lastinx := some 0, lastkey := [7] } : Handler).Gone s := by
      intro idx r impossible
      cases impossible
    rcases ((indexTraversal_iff twinTable .whole 0 s rep
      { writingHandler with lastinx := some 0, lastkey := [7] } alone).2 0 rfl gone).mp continues
      with noMatch | ⟨idx, before, after, impossible, _⟩
    · exact noMatch i left
    · cases impossible

end Fastmem
