/-
Statements that change a table by a full scan (ha_fastmem.cc).

An UPDATE or DELETE without an index is rnd_init, then rnd_next with update_row or
delete_row on the row it returns, until the scan ends or a change fails. The scan
position is a slot number of its own: neither a delete, which forgets the current
row, nor an update that moves the row to another key touches it. So each row of
the table is changed once, in the order of the slots, and a refused row ends the
statement with the rows before it changed and the others as they were.
-/

import Fastmem.Concurrent.TidyPrograms
import Fastmem.Core.TableRefinement
import Fastmem.Handler.LooseScans
import Fastmem.Handler.RowHandlers
import Mathlib.Data.List.Sort

set_option autoImplicit false

namespace Fastmem

open Prog (perform iterate)
open Machine

variable {n : Nat}

/-! ### What a statement means -/

inductive Change (n : Nat)
  | keep
  | update (new : Rec n)
  | delete

def Change.applied (record : Rec n) : Change n → Option (Rec n)
  | .keep => some record
  | .update new => some new
  | .delete => none

namespace Table

variable {D : ShareDef n} {T : Table n} {change : Rec n → Change n} {pos idx stop : Nat}
  {g : UInt32} {record : Rec n}

def changed (T : Table n) (change : Rec n → Change n) (within : Nat → Bool) : Table n := fun ref =>
  if within ref.1 then (T ref).bind fun record => (change record).applied record else T ref

/-- The change of the row in this slot is refused, once those from a slot on before it are
changed: its new record equals another row in a unique key. -/
def Refuses (D : ShareDef n) (T : Table n) (change : Rec n → Change n) (pos stop : Nat) : Prop :=
  ∃ g record new, T (stop, g) = some record ∧ change record = .update new ∧
    (T.changed change fun i => decide (pos ≤ i) && decide (i < stop)).Conflict D (some (stop, g)) new

/-- How a statement ends that changes the rows from a slot on: with the end of the table, or at
the first row whose change is refused. -/
inductive Ends (D : ShareDef n) (T : Table n) (change : Rec n → Change n) (pos : Nat) :
    HaErr → Table n → Prop
  | all (accepts : ∀ stop, pos ≤ stop → ¬ T.Refuses D change pos stop) :
      Ends D T change pos .endOfFile (T.changed change fun i => decide (pos ≤ i) && true)
  | refused {stop : Nat} (later : pos ≤ stop) (refuses : T.Refuses D change pos stop)
      (first : ∀ earlier, pos ≤ earlier → earlier < stop → ¬ T.Refuses D change pos earlier) :
      Ends D T change pos .foundDuppKey
        (T.changed change fun i => decide (pos ≤ i) && decide (i < stop))

/-- What a statement over the whole table is to do: change every row, or, if the change of a row
is refused, the rows in the slots before the first such row and no others. -/
def Statement (D : ShareDef n) (T : Table n) (change : Rec n → Change n) (e : HaErr) (T' : Table n) :
    Prop :=
  (e = .endOfFile ∧ (∀ stop, ¬ T.Refuses D change 0 stop) ∧
    T' = fun ref => (T ref).bind fun record => (change record).applied record) ∨
  (e = .foundDuppKey ∧ ∃ stop, T.Refuses D change 0 stop ∧
    (∀ earlier, earlier < stop → ¬ T.Refuses D change 0 earlier) ∧
    T' = T.changed change fun i => decide (i < stop))

theorem Ends.statement {e : HaErr} {T' : Table n} (ends : T.Ends D change 0 e T') :
    T.Statement D change e T' := by
  cases ends with
  | all accepts =>
      refine Or.inl ⟨rfl, fun stop => accepts stop (Nat.zero_le stop), ?_⟩
      funext ref
      exact if_pos (by simp)
  | @refused stop _ refuses first =>
      refine Or.inr ⟨rfl, stop, refuses, fun earlier => first earlier (Nat.zero_le earlier), ?_⟩
      simp only [Nat.zero_le, decide_true, Bool.true_and]

def Empty (T : Table n) (pos idx : Nat) : Prop := ∀ i, pos ≤ i → i < idx → ∀ g, T (i, g) = none

structure Sole (T : Table n) (idx : Nat) (g : UInt32) (record : Rec n) : Prop where
  row : T (idx, g) = some record
  only : ∀ g', g' ≠ g → T (idx, g') = none

theorem changed_none {within : Nat → Bool} {ref : Ref} (absent : T ref = none) :
    T.changed change within ref = none := by
  unfold changed
  rw [absent]
  split <;> rfl

theorem changed_nowhere {within : Nat → Bool} (none : ∀ i g r, T (i, g) = some r → within i = false) :
    T.changed change within = T := by
  funext ref
  cases found : T ref with
  | none => rw [changed_none found]
  | some r =>
      unfold changed
      rw [none ref.1 ref.2 r found]
      exact found

theorem changed_first (before : T.Empty pos idx) (sole : T.Sole idx g record) (order : pos ≤ idx)
    {below : Nat → Bool} (inside : below idx = true) :
    Table.changed (Function.update T (idx, g) ((change record).applied record)) change
        (fun i => decide (idx + 1 ≤ i) && below i) =
      T.changed change fun i => decide (pos ≤ i) && below i := by
  funext ref
  by_cases here : ref = (idx, g)
  · subst here
    unfold changed
    simp only [Function.update_self, Nat.not_succ_le_self, decide_false, Bool.false_and, order,
      decide_true, inside, Bool.and_self, if_true, sole.row, Option.bind_some]
    rfl
  · unfold changed
    rw [Function.update_of_ne here]
    by_cases slot : ref.1 = idx
    · have absent : T ref = none := by
        subst slot
        exact sole.only ref.2 fun same => here (Prod.ext rfl same)
      rw [absent]
      simp
    · rcases Nat.lt_or_ge ref.1 idx with earlier | later
      · have dead : pos ≤ ref.1 → T ref = none := fun above => before ref.1 above earlier ref.2
        by_cases above : pos ≤ ref.1
        · rw [dead above]
          simp
        · simp [above, show ¬ idx + 1 ≤ ref.1 by omega]
      · simp [show pos ≤ ref.1 by omega, show idx + 1 ≤ ref.1 by omega]

theorem not_refuses_of_empty (before : T.Empty pos idx) (above : pos ≤ stop) (below : stop < idx) :
    ¬ T.Refuses D change pos stop := by
  rintro ⟨g, record, _, row, _⟩
  rw [before stop above below g] at row
  cases row

theorem changed_empty (before : T.Empty pos idx) :
    T.changed change (fun i => decide (pos ≤ i) && decide (i < idx)) = T := by
  apply changed_nowhere
  intro i g r row
  by_contra inside
  have both : pos ≤ i ∧ i < idx := by simpa using inside
  rw [before i both.1 both.2 g] at row
  cases row

theorem refuses_first (before : T.Empty pos idx) (sole : T.Sole idx g record) :
    T.Refuses D change pos idx ↔
      ∃ new, change record = .update new ∧ T.Conflict D (some (idx, g)) new := by
  unfold Refuses
  rw [changed_empty before]
  constructor
  · rintro ⟨g', record', new, row, asked, conflict⟩
    have sameGen : g' = g := by
      by_contra different
      rw [sole.only g' different] at row
      cases row
    subst sameGen
    rw [sole.row] at row
    cases row
    exact ⟨new, asked, conflict⟩
  · rintro ⟨new, asked, conflict⟩
    exact ⟨g, record, new, sole.row, asked, conflict⟩

theorem refuses_later (before : T.Empty pos idx) (sole : T.Sole idx g record) (order : pos ≤ idx)
    (later : idx < stop) :
    Table.Refuses D (Function.update T (idx, g) ((change record).applied record)) change (idx + 1)
      stop ↔ T.Refuses D change pos stop := by
  unfold Refuses
  rw [changed_first before sole order (decide_eq_true later)]
  have rowSame : ∀ g', Function.update T (idx, g) ((change record).applied record) (stop, g') =
      T (stop, g') := by
    intro g'
    apply Function.update_of_ne
    intro same
    have slot : stop = idx := congrArg Prod.fst same
    omega
  simp only [rowSame]

theorem Ends.step {e : HaErr} {T' : Table n} (before : T.Empty pos idx)
    (sole : T.Sole idx g record) (order : pos ≤ idx) (accepts : ¬ T.Refuses D change pos idx)
    (rest : Ends D (Function.update T (idx, g) ((change record).applied record)) change (idx + 1) e
      T') : Ends D T change pos e T' := by
  have accepted : ∀ {bound : Nat}, (∀ stop, idx + 1 ≤ stop → stop < bound → ¬ Table.Refuses D
      (Function.update T (idx, g) ((change record).applied record)) change (idx + 1) stop) →
      ∀ stop, pos ≤ stop → stop < bound → ¬ T.Refuses D change pos stop := by
    intro bound others stop above below
    rcases Nat.lt_trichotomy stop idx with earlier | here | later
    · exact not_refuses_of_empty before above earlier
    · rw [here]
      exact accepts
    · rw [← refuses_later before sole order later]
      exact others stop later below
  cases rest with
  | all others =>
      rw [changed_first before sole order rfl]
      refine .all fun stop above => ?_
      exact accepted (fun stop' above' _ => others stop' above') stop above (Nat.lt_succ_self stop)
  | refused later refuses first =>
      rw [changed_first before sole order (decide_eq_true later)]
      exact .refused (by omega) ((refuses_later before sole order later).mp refuses)
        (accepted first)

end Table

/-! ### The calls of a statement -/

section Calls

variable {t : Nat} {s : Core n} {T : TableShare n} {gran : Gran} {h : Handler} {info : Info}

theorem fmScan_end (gran : Gran) (rep : Rep T.core s none) (live : liveFrom s info.scanPos = []) :
    ∃ info', Runs t (fmScan gran info) s (.error .endOfFile, info') s ∧
      info'.held = info.held := by
  have walked := scanWalk_runs (t := t) gran rep.settled (s.slotCount - info.scanPos) info.scanPos rfl
  rw [live] at walked
  obtain ⟨pos', ran⟩ := walked
  exact ⟨_, runs_bind (runs_perform_bind rfl ran) (runs_pure _ s), rfl⟩

theorem fmScan_row (gran : Gran) (rep : Rep T.core s none) {i : Nat} {rest : List Nat}
    (live : liveFrom s info.scanPos = i :: rest) :
    ∃ info', Runs t (fmScan gran info) s (.ok (s.slot i).data, info') s ∧ info'.On s i ∧
      info'.held = info.held ∧ info'.writeStmt = info.writeStmt ∧ info'.scanPos = i + 1 := by
  have walked := scanWalk_runs (t := t) gran rep.settled (s.slotCount - info.scanPos) info.scanPos rfl
  rw [live] at walked
  obtain ⟨_, below, _, ran⟩ := walked
  have small : i < 2 ^ 31 := by
    have capped : s.slotCount ≤ T.core.chunkCap * fmChunkSize :=
      Nat.mul_le_mul_right fmChunkSize rep.capped
    have limit := T.core.slots_lt
    omega
  have slot : toSlot (i + 1 - 1) = some i := if_pos small
  refine ⟨{ info with
    scanPos := i + 1
    currentSlot := some i
    currentGen := (s.slot i).gen
    update := { HaState.none with prevFound := true, nextFound := true, aktiv := true } },
    runs_bind (runs_perform_bind rfl ran) ?_, ⟨rfl, rfl⟩, rfl, rfl, rfl⟩
  simp only [slot]
  exact runs_perform_bind rfl (runs_pure _ s)

theorem rndNext_end (gran : Gran) (rep : Rep T.core s none) (live : liveFrom s info.scanPos = []) :
    ∃ info', Runs t (rndNext gran info) s (.missed .endOfFile, info') s ∧
      info'.held = info.held := by
  obtain ⟨info', ran, held⟩ := fmScan_end gran rep live
  exact ⟨_, runs_bind ran (runs_bind (runs_pure _ s) (runs_pure _ s)), held⟩

theorem rndNext_row (gran : Gran) (rep : Rep T.core s none) (write : info.writeStmt = true)
    (alone : s.owner = rowOwner t info.held) {i : Nat} {rest : List Nat}
    (live : liveFrom s info.scanPos = i :: rest) :
    ∃ info', Runs t (rndNext gran info) s (.row (s.slot i).data, info')
        { s with owner := rowOwner t (some i) } ∧
      info'.On s i ∧ info'.held = some i ∧ info'.writeStmt = true ∧ info'.scanPos = i + 1 := by
  obtain ⟨info', ran, on, held, stmt, next⟩ := fmScan_row gran rep live
  have active : (s.slot i).state = .active :=
    (mem_liveFrom.mp (live ▸ List.mem_cons_self)).2.2
  obtain ⟨h', read, on', _, locked⟩ := afterRead_runs (t := t) gran .recordDeleted on active
    (rep.settled i) (alone.trans (congrArg _ held.symm))
  obtain ⟨write', held'⟩ := locked (stmt.trans write)
  rw [held'] at read
  exact ⟨{ info' with toHandler := h' },
    runs_bind ran (runs_bind (runs_bind read (runs_pure _ _)) (runs_pure _ _)), on', held',
    write', next⟩

structure Handler.Took (h : Handler) (t : Nat) (s : Core n) (idx : Nat) : Prop where
  on : h.On s idx
  write : h.writeStmt = true
  held : h.held = some idx
  active : (s.slot idx).state = .active
  alone : s.owner = rowOwner t h.held

namespace Handler.Took

variable {idx : Nat} (took : h.Took t s idx)
include took

theorem row : rows s idx = some ((s.slot idx).gen, (s.slot idx).data) :=
  rows_eq_some.mpr ⟨took.active, rfl, rfl⟩

theorem writes {write : Handler → CoreProg n (HaResult Unit)} {rc : Except HaErr Unit}
    {after : Handler} {s' : Core n} (ran : Runs t (write h) s (rc, after) s')
    (kept : s'.owner = s.owner) (sameHeld : after.held = h.held) :
    Runs t (do
      let (taken, h) ← takeCurrentRow h
      if !taken then
        return (.error .recordChanged, h)
      else
        let (rc, h) ← write h
        let h ← unlockCurrentRow h
        return (rc, h)) s (rc, after.unlocked) { s' with owner := rowOwner t none } := by
  obtain ⟨locked, lockedSlot⟩ := Handler.held_eq took.held
  have taken : Runs t (takeCurrentRow h) s (true, h) s := by
    unfold takeCurrentRow
    rw [if_pos ⟨took.write, locked, lockedSlot.trans took.on.slot.symm⟩]
    exact runs_pure _ s
  have unlocks : Runs t (unlockCurrentRow after) s' after.unlocked
      { s' with owner := rowOwner t none } :=
    unlockCurrentRow_runs (kept.trans (took.alone.trans (congrArg _ sameHeld.symm)))
  exact runs_bind taken (runs_bind ran (runs_bind unlocks (runs_pure _ _)))

theorem reads (settled : ∀ i, (s.slot i).seq % 2 = 0) :
    Runs t (fmCoreReadRow gran idx true h.currentGen) s (.ok (s.slot idx).data) s := by
  have outcome : readOutcome s idx true h.currentGen = .ok (s.slot idx).data :=
    if_pos ⟨took.active, fun _ => took.on.gen.symm⟩
  rw [← outcome]
  exact readRow_runs (settled idx) true h.currentGen

theorem updates (gran : Gran) (new : Rec n) (hashes : HashesAgree T.core)
    (rep : Rep T.core s none) :
    ∃ result h' s', Runs t (updateRow T gran (s.slot idx).data new h) s
        (result.mapError Err.toHa, h') s' ∧
      Rep T.core s' none ∧ s'.owner = rowOwner t h'.held ∧ h'.writeStmt = true ∧
      updateSpec T.core s idx (s.slot idx).gen (s.slot idx).data new result s' := by
  have checked : Runs t (readCheck gran idx (s.slot idx).data h) s (.ok ()) s := by
    unfold readCheck
    by_cases check : h.readCheckUsed = true
    · rw [if_pos check]
      refine runs_bind (took.reads rep.settled) ?_
      simp only [ne_eq, not_true_eq_false, if_false]
      exact runs_pure _ s
    · rw [if_neg check]
      exact runs_pure _ s
  obtain ⟨result, s', updated, rep', kept, spec⟩ :
      ∃ result s', Runs t (fmCoreUpdateRowLocked T.core gran idx h.currentGen (s.slot idx).data new)
          s result s' ∧ Rep T.core s' none ∧ s'.owner = s.owner ∧
        updateSpec T.core s idx h.currentGen (s.slot idx).data new result s' :=
    updateRowLocked_runs gran new hashes rep (fun k b => by rw [took.alone]; rfl) fun _ _ => rfl
  rw [took.on.gen] at spec
  obtain ⟨after, answered, sameHeld, sameStmt⟩ : ∃ after,
      Runs t (fmUpdateRowLocked T gran (s.slot idx).data new h) s
        (result.mapError Err.toHa, after) s' ∧ after.held = h.held ∧
        after.writeStmt = h.writeStmt := by
    unfold fmUpdateRowLocked fmUpdateLockedOn
    rw [took.on.slot]
    cases result with
    | error e =>
        refine ⟨h.noteErr e, runs_bind checked (runs_bind updated (runs_pure _ s')), ?_, ?_⟩
        · cases e <;> rfl
        · cases e <;> rfl
    | ok _ => exact ⟨_, runs_bind checked (runs_bind updated (runs_pure _ s')), rfl, rfl⟩
  refine ⟨result, after.unlocked, _, took.writes answered kept sameHeld, rep'.withOwner _, ?_, ?_,
    spec⟩
  · rw [after.unlocked_held]
  · rw [← took.write, ← sameStmt]
    unfold Handler.unlocked
    split <;> rfl

theorem deletes (gran : Gran) (rep : Rep T.core s none) :
    ∃ h' s', Runs t (deleteRow T gran (s.slot idx).data h) s (.ok (), h') s' ∧
      Rep T.core s' none ∧ s'.owner = rowOwner t h'.held ∧ h'.writeStmt = true ∧
      deleteSpec s idx (s.slot idx).gen (.ok ()) s' := by
  obtain ⟨result, s', deleted, rep', kept, spec⟩ :
      ∃ result s', Runs t (fmCoreDeleteRowLocked T.core gran idx h.currentGen) s result s' ∧
        Rep T.core s' none ∧ s'.owner = s.owner ∧ deleteSpec s idx h.currentGen result s' :=
    deleteRowLocked_runs gran h.currentGen rep (fun k b => by rw [took.alone]; rfl)
      (by rw [took.alone]; rfl)
  rw [took.on.gen] at spec
  cases result with
  | error e => exact absurd took.row (spec.2.1 _)
  | ok done =>
      let gone : Handler := { h with
        update := { HaState.none with deleted := true }
        currentSlot := none }
      have removed : Runs t (fmDeleteLocked T gran (s.slot idx).data h) s (.ok (), gone) s' := by
        unfold fmDeleteLocked
        rw [took.on.slot]
        by_cases check : h.readCheckUsed = true
        · simp only [if_pos check]
          refine runs_bind (took.reads rep.settled) ?_
          simp only [ne_eq, not_true_eq_false, if_false]
          exact runs_bind deleted (runs_pure _ _)
        · simp only [if_neg check]
          exact runs_bind deleted (runs_pure _ _)
      refine ⟨gone.unlocked, _, took.writes removed kept rfl, rep'.withOwner _, ?_, ?_, spec⟩
      · rw [gone.unlocked_held]
      · rw [← took.write]
        unfold Handler.unlocked
        split <;> rfl

end Handler.Took

end Calls

/-! ### Statements -/

def changeRow (T : TableShare n) (gran : Gran) (record : Rec n) (change : Change n) (h : Handler) :
    CoreProg n (HaResult Unit) :=
  match change with
  | .keep => return (.ok (), h)
  | .update new => updateRow T gran record new h
  | .delete => deleteRow T gran record h

def statementRound (T : TableShare n) (gran : Gran) (change : Rec n → Change n) (info : Info) :
    CoreProg n (Info ⊕ HaErr × Info) := do
  let (res, info) ← rndNext gran info
  match res.returned with
  | .error e => return .inr (e, info)
  | .ok record =>
      let (rc, h) ← changeRow T gran record (change record) info.toHandler
      match rc with
      | .error e => return .inr (e, { info with toHandler := h })
      | .ok _ => return .inl { info with toHandler := h }

/-- A statement that changes a table by a full scan, between its two external_lock calls. -/
def scanStatement (T : TableShare n) (gran : Gran) (change : Rec n → Change n) (info : Info) :
    CoreProg n (HaErr × Info) := do
  let h ← externalLock .wrlck info.toHandler
  let info ← rndInit true { info with toHandler := h }
  let (e, info) ← iterate info (statementRound T gran change)
  let h ← externalLock .unlck info.toHandler
  return (e, { info with toHandler := h })

section Statements

variable {t : Nat} {s s' : Core n} {T : TableShare n} {gran : Gran} {h : Handler} {info : Info}
  {idx pos : Nat}

theorem liveFrom_congr (rep : Rep T.core s none) (rep' : Rep T.core s' none)
    (same : ∀ i, pos ≤ i → rows s' i = rows s i) : liveFrom s' pos = liveFrom s pos := by
  have increasing : ∀ s : Core n, (liveFrom s pos).Pairwise (· < ·) := fun s =>
    List.Pairwise.filter _ List.pairwise_lt_range'
  have live : ∀ {s : Core n}, Rep T.core s none → ∀ i,
      i ∈ liveFrom s pos ↔ pos ≤ i ∧ (rows s i).isSome = true := by
    intro s rep i
    rw [mem_liveFrom]
    unfold rows
    by_cases active : (s.slot i).state = .active
    · simp [active, rep.allocated i active]
    · simp [active]
  apply List.Pairwise.eq_of_mem_iff (increasing s') (increasing s)
  intro i
  rw [live rep', live rep]
  constructor
  · rintro ⟨above, found⟩
    rw [same i above] at found
    exact ⟨above, found⟩
  · rintro ⟨above, found⟩
    rw [← same i above] at found
    exact ⟨above, found⟩

structure Between (T : TableShare n) (t : Nat) (s : Core n) (h : Handler) : Prop where
  rep : Rep T.core s none
  unique : UniqueRows T.core s
  alone : s.owner = rowOwner t h.held
  write : h.writeStmt = true

theorem changeRow_runs (gran : Gran) (change : Change n) (consistent : KeysConsistent T.core)
    (rep : Rep T.core s none) (unique : UniqueRows T.core s) (took : h.Took t s idx) :
    ∃ rc h' s', Runs t (changeRow T gran (s.slot idx).data change h) s (rc, h') s' ∧
      Between T t s' h' ∧ (∀ i, i ≠ idx → rows s' i = rows s i) ∧
      ((rc = .ok () ∧
          (∀ new, change = .update new →
            ¬ (table s).Conflict T.core (some (idx, (s.slot idx).gen)) new) ∧
          table s' = Function.update (table s) (idx, (s.slot idx).gen)
            (change.applied (s.slot idx).data)) ∨
        (rc = .error .foundDuppKey ∧ table s' = table s ∧ ∃ new, change = .update new ∧
          (table s).Conflict T.core (some (idx, (s.slot idx).gen)) new)) := by
  cases change with
  | keep =>
      refine ⟨.ok (), h, s, runs_pure _ s, ⟨rep, unique, took.alone, took.write⟩, fun _ _ => rfl,
        Or.inl ⟨rfl, fun new clash => (by cases clash), ?_⟩⟩
      exact (Function.update_eq_self_iff.mpr (table_eq_some.mpr took.row).symm).symm
  | delete =>
      obtain ⟨h', s', ran, rep', alone, write, spec⟩ := took.deletes gran rep
      obtain ⟨deleted, unique'⟩ := delete_refines unique spec
      refine ⟨.ok (), h', s', ran, ⟨rep', unique', alone, write⟩, fun i other => ?_,
        Or.inl ⟨rfl, fun new clash => (by cases clash), deleted.2⟩⟩
      rw [spec.2, Function.update_of_ne other]
  | update new =>
      obtain ⟨result, h', s', ran, rep', alone, write, spec⟩ :=
        took.updates gran new consistent.hashes rep
      cases result with
      | ok _ =>
          obtain ⟨_, noConflict, updated, unique'⟩ := update_refines consistent unique spec
          refine ⟨.ok (), h', s', ran, ⟨rep', unique', alone, write⟩, fun i other => ?_,
            Or.inl ⟨rfl, fun new' same => ?_, updated⟩⟩
          · rw [spec.2.2, Function.update_of_ne other]
          · cases same
            exact noConflict
      | error e =>
          cases e with
          | dupKey errkey =>
              obtain ⟨row, duplicate, same⟩ := spec
              refine ⟨.error .foundDuppKey, h', s', ran,
                ⟨rep', unique.congr same, alone, write⟩, fun i _ => congrFun same i,
                Or.inr ⟨rfl, table_congr same, new, rfl, ?_⟩⟩
              exact (conflict_update_iff consistent unique row).mpr duplicate
          | deleted => exact absurd took.row (spec.2.1 _)
          | notFound | eof | full | nomem => cases spec.1

theorem ends_all {D : ShareDef n} (change : Rec n → Change n)
    (none : ∀ i, pos ≤ i → ∀ g, table s (i, g) = none) :
    (table s).Ends D change pos .endOfFile (table s) := by
  have unchanged : (table s).changed change (fun i => decide (pos ≤ i) && true) = table s := by
    apply Table.changed_nowhere
    intro i g r row
    by_contra inside
    rw [none i (by simpa using inside) g] at row
    cases row
  have accepts : ∀ stop, pos ≤ stop → ¬ (table s).Refuses D change pos stop := by
    rintro stop above ⟨g, record, _, row, _⟩
    rw [none stop above g] at row
    cases row
  have ends := Table.Ends.all accepts
  rwa [unchanged] at ends

theorem table_sole (row : rows s idx = some ((s.slot idx).gen, (s.slot idx).data)) :
    (table s).Sole idx (s.slot idx).gen (s.slot idx).data := by
  refine ⟨table_eq_some.mpr row, fun g different => table_eq_none.mpr fun r other => ?_⟩
  rw [row] at other
  exact different (congrArg Prod.fst (Option.some.inj other)).symm

/-- The loop of a statement, by induction on the rows that its scan has still to come to. -/
theorem statementLoop_runs (gran : Gran) (change : Rec n → Change n)
    (consistent : KeysConsistent T.core) (items : List Nat) :
    ∀ (s : Core n) (info : Info), liveFrom s info.scanPos = items → Between T t s info.toHandler →
      ∃ e info' s', Runs t (iterate info (statementRound T gran change)) s (e, info') s' ∧
        Rep T.core s' none ∧ UniqueRows T.core s' ∧ s'.owner = rowOwner t info'.held ∧
        (table s).Ends T.core change info.scanPos e (table s') := by
  induction items with
  | nil =>
      intro s info live between
      obtain ⟨info', ran, held⟩ := rndNext_end gran between.rep live
      refine ⟨.endOfFile, info', s, Exec.iterate_leave (runs_bind ran (runs_pure _ s)), between.rep,
        between.unique, between.alone.trans (congrArg _ held.symm), ends_all change ?_⟩
      intro i above g
      rw [table_eq_none]
      intro r row
      have active := (rows_eq_some.mp row).1
      have member := mem_liveFrom.mpr ⟨above, between.rep.allocated i active, active⟩
      rw [live] at member
      cases member
  | cons i rest ih =>
      intro s info live between
      obtain ⟨sameRest, _, above, _⟩ : rest = liveFrom s (i + 1) ∧ i < s.slotCount ∧
          info.scanPos ≤ i ∧ _ := by
        have walked := scanWalk_runs (t := t) gran between.rep.settled
          (s.slotCount - info.scanPos) info.scanPos rfl
        rw [live] at walked
        exact walked
      obtain ⟨info₁, read, on, held, write, scanPos⟩ :=
        rndNext_row gran between.rep between.write between.alone live
      have active : (s.slot i).state = .active :=
        (mem_liveFrom.mp (live ▸ List.mem_cons_self)).2.2
      let locked : Core n := { s with owner := rowOwner t (some i) }
      have took : info₁.Took t locked i :=
        ⟨⟨on.slot, on.gen⟩, write, held, active, by rw [held]⟩
      obtain ⟨rc, h₂, s₂, changed, after, others, outcome⟩ := changeRow_runs (s := locked) gran
        (change (s.slot i).data) consistent (between.rep.withOwner _) between.unique took
      have before : (table s).Empty info.scanPos i := by
        intro j from_ until_ g
        rw [table_eq_none]
        intro r row
        have live' := (rows_eq_some.mp row).1
        have member := mem_liveFrom.mpr ⟨from_, between.rep.allocated j live', live'⟩
        rw [live, sameRest] at member
        cases member with
        | head => exact Nat.lt_irrefl _ until_
        | tail _ later =>
            have := (mem_liveFrom.mp later).1
            omega
      have sole : (table s).Sole i (s.slot i).gen (s.slot i).data := table_sole took.row
      have refuses : (table s).Refuses T.core change info.scanPos i ↔
          ∃ new, change (s.slot i).data = .update new ∧
            (table s).Conflict T.core (some (i, (s.slot i).gen)) new :=
        Table.refuses_first before sole
      rcases outcome with ⟨rfl, accepts, updated⟩ | ⟨rfl, same, refused⟩
      · have liveAfter : liveFrom s₂ (i + 1) = rest := by
          rw [sameRest]
          exact liveFrom_congr between.rep after.rep fun j later => others j (by omega)
        obtain ⟨e, info', s', ran, rep', unique', alone', ends⟩ :=
          ih s₂ { info₁ with toHandler := h₂ } (by rw [← scanPos] at liveAfter; exact liveAfter)
            after
        refine ⟨e, info', s', Exec.iterate_again (runs_bind read (runs_bind changed (runs_pure _ _)))
          ran, rep', unique', alone', Table.Ends.step before sole above ?_ ?_⟩
        · rw [refuses]
          rintro ⟨new, asked, conflict⟩
          exact accepts new asked conflict
        · have ends' : (table s₂).Ends T.core change (i + 1) e (table s') := scanPos ▸ ends
          rw [updated] at ends'
          exact ends'
      · refine ⟨.foundDuppKey, { info₁ with toHandler := h₂ }, s₂,
          Exec.iterate_leave (runs_bind read (runs_bind changed (runs_pure _ _))), after.rep,
          after.unique, after.alone, ?_⟩
        have ends := Table.Ends.refused above (refuses.mpr refused)
          fun earlier from_ until_ => Table.not_refuses_of_empty before from_ until_
        rw [Table.changed_empty before] at ends
        rw [same]
        exact ends

end Statements

/-- A statement by full scan changes the table row by row as it was asked to and gives every lock
back. -/
theorem scanStatement_exact (T : TableShare n) (gran gran' : Gran)
    (consistent : KeysConsistent T.core) (garbage : Nat → Rec n) (heap : Heap)
    (served : List (Served n)) (s : Core n)
    (run : SerialRun T.core gran' (Core.fresh garbage heap) served s) (t : Nat) (info : Info)
    (free : info.rowLocked = false) (change : Rec n → Change n) :
    ∃ e info' s', Runs t (scanStatement T gran change info) s (e, info') s' ∧
      Rep T.core s' none ∧ Quiet s' ∧ UniqueRows T.core s' ∧
      (table s).Statement T.core change e (table s') := by
  obtain ⟨rep, quiet⟩ := run.rep consistent.hashes
  have unique := (run.refines consistent).2
  have held : info.held = none := if_neg (by rw [free]; exact Bool.false_ne_true)
  let writing : Handler := { info.toHandler with writeStmt := true }
  let start : Info := fmScanInit { info with toHandler := writing }
  have alone : s.owner = rowOwner t start.held := by
    rw [show start.held = none from held]
    exact quiet_rowOwner quiet
  have opened : Runs t (rndInit true { info with toHandler := writing }) s start s := by
    have unlocked : writing.unlocked = writing := if_neg (by rw [free]; exact Bool.false_ne_true)
    have unlocks := unlockCurrentRow_runs (t := t) (s := s) (h := writing) alone
    rw [unlocked, ← show s.owner = rowOwner t none from quiet_rowOwner quiet] at unlocks
    exact runs_bind unlocks (runs_pure _ s)
  obtain ⟨e, info', s', ran, rep', unique', alone', ends⟩ := statementLoop_runs gran change
    consistent (liveFrom s 0) s start rfl ⟨rep, unique, alone, rfl⟩
  let reading : Handler := { info'.toHandler with writeStmt := false }
  have closed : Runs t (externalLock .unlck info'.toHandler) s' reading.unlocked
      { s' with owner := rowOwner t none } :=
    unlockCurrentRow_runs alone'
  refine ⟨e, { info' with toHandler := reading.unlocked }, _, runs_bind (runs_pure _ s)
    (runs_bind opened (runs_bind ran (runs_bind closed (runs_pure _ _)))), rep'.withOwner _, ?_,
    unique', ends.statement⟩
  intro l
  cases l <;> rfl

def threeServed : List (Served 1) × Core 1 :=
  serve byteShare.core .whole 100
    [.insertRow fun _ => 7, .insertRow fun _ => 8, .insertRow fun _ => 5] ([], byteStart)

def changeToSix (record : Rec 1) : Change 1 :=
  if record ⟨0, Nat.one_pos⟩ = 8 then .delete else .update fun _ => 6

theorem changeToSix_ends :
    ((coreMachine 1).evaluate 0 400 (scanStatement byteShare .whole changeToSix openedInfo)
      threeServed.2).map (fun done => (done.1.1, [0, 1, 2].map fun i => table done.2 (i, 0))) =
    some (.foundDuppKey, [some fun _ => 6, none, some fun _ => 5]) := by
  decide +kernel

/-- The third row is refused, with the first changed and the second gone. -/
theorem scanStatement_exact_changeToSix : ∃ info' s',
    Runs 0 (scanStatement byteShare .whole changeToSix openedInfo) threeServed.2
      (.foundDuppKey, info') s' ∧
    (∃ stop, (table threeServed.2).Refuses byteTable changeToSix 0 stop ∧
      table s' = (table threeServed.2).changed changeToSix fun i => decide (i < stop)) ∧
    table s' (0, 0) = some (fun _ => 6) ∧ table s' (1, 0) = none ∧
    table s' (2, 0) = some fun _ => 5 := by
  have run : SerialRun byteShare.core .whole byteStart threeServed.1 threeServed.2 :=
    SerialRun.nil.serve 100 _
  obtain ⟨e, info', s', ran, _, _, _, outcome⟩ := scanStatement_exact byteShare .whole .whole
    byteTable_consistent _ _ _ _ run 0 openedInfo rfl changeToSix
  obtain ⟨⟨⟨e', info''⟩, s''⟩, evaluated, ends⟩ := Option.map_eq_some_iff.mp changeToSix_ends
  obtain ⟨same, rfl⟩ := ran.deterministic (exec_of_evaluate evaluated)
  obtain ⟨rfl, rfl⟩ := Prod.ext_iff.mp same
  obtain ⟨rfl, first, second, third⟩ : e = .foundDuppKey ∧ table s' (0, 0) = some (fun _ => 6) ∧
      table s' (1, 0) = none ∧ table s' (2, 0) = some fun _ => 5 := by simpa using ends
  rcases outcome with ⟨clash, _⟩ | ⟨_, stop, refuses, _, changed⟩
  · cases clash
  · exact ⟨info', s', ran, ⟨stop, refuses, changed⟩, first, second, third⟩

end Fastmem
