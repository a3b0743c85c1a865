/-
Updates of one row, one after the other (ha_fastmem.cc).

Every update_row here is called behind a read of its row in a write statement,
with the record that was read. Then the image of a row that is never deleted is
what the changes have made of its first image, in the order in which they were
written, and none is left out.
-/

import Fastmem.Handler.ReadCycles

set_option autoImplicit false

namespace Fastmem

open ThreadSystem

variable {n : Nat}

section Runs

variable {getRecBits : Bytes → Nat → Nat → UInt8} {T : TableShare n} {gran : Gran}
  {R : (rowHandlers getRecBits T gran).Run} {garbage : Nat → Rec n} {heap : Heap}
  {opened : Info} {t i j : Nat} {old new : Rec n} {info info' : Info}

def Opens (R : (rowHandlers getRecBits T gran).Run) (idx m : Nat) : Prop :=
  Marked R m (.bumpSeq idx) ∧ ¬ Writing R idx m

instance (R : (rowHandlers getRecBits T gran).Run) (idx m : Nat) : Decidable (Opens R idx m) :=
  inferInstanceAs (Decidable (_ ∧ _))

/-- Every update_row is called behind a read of its row, with the record that was read. -/
def UpdatesRead (R : (rowHandlers getRecBits T gran).Run) : Prop :=
  ∀ i old new info, i < R.len → (R.ev i).starting = some (.updateRow old new) →
    (R.cfg i).thread (R.tid i) = .idle info → JustRead R (R.tid i) old info i

/-- The update whose image write begins at time `m` stores `change m` of its old record. -/
def Applies (R : (rowHandlers getRecBits T gran).Run) (change : Nat → Rec n → Rec n) : Prop :=
  ∀ m idx old new program, m < R.len → Opens R idx m →
    (R.cfg m).thread (R.tid m) = .busy (.updateRow old new) program → new = change m old

def openings (R : (rowHandlers getRecBits T gran).Run) (idx a b : Nat) : List Nat :=
  (List.range' a (b - a)).filter fun m => Opens R idx m

def changed (change : Nat → Rec n → Rec n) (times : List Nat) (image : Rec n) : Rec n :=
  times.foldl (fun image m => change m image) image

theorem openings_succ {idx a b : Nat} (order : a ≤ b) :
    openings R idx a (b + 1) = openings R idx a b ++ if Opens R idx b then [b] else [] := by
  unfold openings
  rw [show b + 1 - a = (b - a) + 1 by omega, List.range'_concat, List.filter_append]
  rw [show a + 1 * (b - a) = b by omega]
  by_cases opens : Opens R idx b
  · rw [if_pos opens]
    simp [opens]
  · rw [if_neg opens]
    simp [opens]

theorem opens_update (starts : R.StartsIn (Core.fresh garbage heap) opened) {idx m : Nat}
    (bound : m < R.len) (marked : Marked R m (.bumpSeq idx)) :
    ∃ old new program, (R.cfg m).thread (R.tid m) = .busy (.updateRow old new) program := by
  have codes : ∀ (t : Nat) (call : RowCall n) (info : Info),
      ((rowHandlers getRecBits T gran).code t call info).Performs fun ρ action =>
        call.writes = false → ∀ (result : ρ) idx, Act.mark action result ≠ .bumpSeq idx := by
    intro t call info
    cases writes : call.writes with
    | false =>
        have plain : Plain T.core (rowProgram getRecBits T gran info call) :=
          rowProgram_plain getRecBits info call writes
        exact plain.performs.mono fun ρ action meets _ => meets
    | true => exact Prog.Performs.of_all (fun ρ action other => by cases other) _
  obtain ⟨_, ρ, action, _, result, _, event, _, mark⟩ := marked.action bound
  obtain ⟨call, program, busy, meets⟩ := R.performs starts codes bound event
  cases call with
  | updateRow old new => exact ⟨old, new, program, busy⟩
  | _ => exact absurd mark (meets rfl result idx)

def NoUpdate (R : (rowHandlers getRecBits T gran).Run) (m : Nat) : Prop :=
  ∀ t old new program, (R.cfg m).thread t ≠ .busy (.updateRow old new) program

theorem updateRow_result {rc : RowRes n}
    (returned : R.Returned t (.updateRow old new) info i j rc info') : ∃ result, rc = .changed result := by
  have performed : Performed R t (i + 1) (rowProgram getRecBits T gran info (.updateRow old new)) j
      (rc, info') :=
    .ofReturned returned
  unfold rowProgram at performed
  obtain ⟨_, ⟨value, h⟩, call, last⟩ := Performed.bind_inv performed
  obtain ⟨_, ⟨result, h'⟩, _, answer⟩ := Performed.bind_inv call
  cases last.pure_inv
  cases answer.pure_inv
  exact ⟨result, rfl⟩

/-- The call whose image write begins here returns 0, and writes over the image it was given. -/
theorem opening_returned (starts : R.StartsIn (Core.fresh garbage heap) opened)
    (kept : LockKept opened (fun _ => false) 0) (cycles : UpdatesRead R) {idx m b : Nat}
    (opens : Opens R idx m) (before : m < b) (bound : b ≤ R.len) (resting : NoUpdate R b) :
    ∃ old new program info i j info' e,
      (R.cfg m).thread (R.tid m) = .busy (.updateRow old new) program ∧ j < b ∧
      R.Returned (R.tid m) (.updateRow old new) info i j (.changed (.ok ())) info' ∧
      WritesOnce R (R.tid m) idx new i j m e ∧ RowIs R idx old m := by
  obtain ⟨old, new, program, busy⟩ := opens_update starts (by omega) opens.1
  obtain ⟨i, info, j, result, info', lower, upper, inside, returned⟩ :=
    R.call_returned starts (Nat.le_of_lt before) bound busy (resting (R.tid m) old new)
  obtain ⟨rc, rfl⟩ := updateRow_result returned
  obtain ⟨starter, starting⟩ := returned.starting
  have idle : (R.cfg i).thread (R.tid i) = .idle info := by
    rw [starter]
    exact returned.started
  have read := cycles i old new info (by omega) starting idle
  rw [starter] at read
  have within : m < j := by
    refine Nat.lt_of_le_of_ne upper fun last => ?_
    obtain ⟨_, _, _, _, _, busy', _⟩ := opens.1.action (by omega)
    rw [last, returned.finished, returned.returns] at busy'
    cases busy'
  rcases read.update starts kept returned with ⟨rfl, idx', m', e, _, once, row⟩ | ⟨_, unbumped⟩
  · obtain ⟨lower', upper'⟩ := once.inside
    have order := once.span.order
    -- the write at the end of the span is none that begins
    have here : m = m' := by
      rcases once.only m lower within rfl idx opens.1 with first | last
      · exact first
      · exfalso
        have same : idx = idx' := by
          have ends := once.span.ends
          rw [← last] at ends
          cases Option.some.inj (opens.1.symm.trans ends)
          rfl
        apply opens.2
        unfold Writing
        rw [same, once.span.between m (by omega) (by omega)]
        exact (seq_flip _).mpr row.complete
    subst here
    have same : idx = idx' := by
      cases Option.some.inj (opens.1.symm.trans once.span.begins)
      rfl
    subst same
    exact ⟨old, new, program, info, i, j, info', e, busy, inside, returned, once, row⟩
  · exact absurd opens.1 (unbumped m lower within rfl idx)

theorem opening_span (starts : R.StartsIn (Core.fresh garbage heap) opened)
    (kept : LockKept opened (fun _ => false) 0) (cycles : UpdatesRead R)
    {change : Nat → Rec n → Rec n} (applies : Applies R change) {idx m b : Nat}
    (opens : Opens R idx m) (before : m < b) (bound : b ≤ R.len) (resting : NoUpdate R b) :
    ∃ e, m < e ∧ e < b ∧ Marked R e (.bumpSeq idx) ∧
      (∀ k, m < k → k ≤ e → ((R.st k).slot idx).seq = ((R.st m).slot idx).seq + 1) ∧
      ((R.st (e + 1)).slot idx).data = change m ((R.st m).slot idx).data := by
  obtain ⟨old, new, program, _, _, _, _, e, busy, inside, _, once, row⟩ :=
    opening_returned starts kept cycles opens before bound resting
  have upper := once.inside.2
  refine ⟨e, once.span.order, by omega, once.span.ends, once.span.between, ?_⟩
  rw [once.span.after, row.data]
  exact applies m idx old new program (by omega) opens busy

/-- The write of a call that returns 0 is one that begins. -/
theorem opens_of_writesOnce (starts : R.StartsIn (Core.fresh garbage heap) opened)
    (kept : LockKept opened (fun _ => false) 0) (cycles : UpdatesRead R)
    (returned : R.Returned t (.updateRow old new) info i j (.changed (.ok ())) info') {idx m e : Nat}
    (once : WritesOnce R t idx new i j m e) : Opens R idx m := by
  refine ⟨once.span.begins, ?_⟩
  obtain ⟨starter, starting⟩ := returned.starting
  have before := returned.before
  have bound := returned.bound
  have idle : (R.cfg i).thread (R.tid i) = .idle info := by
    rw [starter]
    exact returned.started
  have read := cycles i old new info (by omega) starting idle
  rw [starter] at read
  obtain ⟨lower, upper⟩ := once.inside
  have order := once.span.order
  rcases read.update starts kept returned with ⟨_, idx', m', e', _, once', row⟩ | ⟨⟨_, clash⟩, _⟩
  · have order' := once'.span.order
    have here : m = m' := by
      rcases once'.only m lower (by omega) once.span.own.1 idx once.span.begins with first | last
      · exact first
      · rcases once'.only e (by omega) upper once.span.own.2 idx once.span.ends with first | last'
        · omega
        · omega
    subst here
    have same : idx = idx' := by
      cases Option.some.inj (once.span.begins.symm.trans once'.span.begins)
      rfl
    rw [same]
    exact row.complete
  · cases clash

/-- How far the changes have come at a time: all that have begun are in the slot, or the last one
is being written and will be there before time `b`. -/
inductive Progress (R : (rowHandlers getRecBits T gran).Run) (change : Nat → Rec n → Rec n)
    (idx a b k : Nat) : Prop
  | written (complete : ¬ Writing R idx k)
      (image : ((R.st k).slot idx).data =
        changed change (openings R idx a k) ((R.st a).slot idx).data)
  | writing (e : Nat) (until_ : k ≤ e) (within : e < b) (ends : Marked R e (.bumpSeq idx))
      (odd : ∀ l, k ≤ l → l ≤ e → Writing R idx l)
      (image : ((R.st (e + 1)).slot idx).data =
        changed change (openings R idx a k) ((R.st a).slot idx).data)

theorem Progress.step (starts : R.StartsIn (Core.fresh garbage heap) opened)
    (kept : LockKept opened (fun _ => false) 0) (cycles : UpdatesRead R)
    {change : Nat → Rec n → Rec n} (applies : Applies R change) {idx a b k : Nat} (order : a ≤ k)
    (before : k < b) (bound : b ≤ R.len) (resting : NoUpdate R b)
    (active : ((R.st k).slot idx).state = .active) (progress : Progress R change idx a b k) :
    Progress R change idx a b (k + 1) := by
  have quiet := rowHandlers_quiet starts kept
  have lives : QuietRun.Lives R idx k := Or.inl active
  have flips : Marked R k (.bumpSeq idx) → (Writing R idx (k + 1) ↔ ¬ Writing R idx k) := by
    intro marked
    unfold Writing
    rw [marked.raises (by omega)]
    exact seq_flip _
  cases progress with
  | written complete image =>
      by_cases marked : Marked R k (.bumpSeq idx)
      · have opens : Opens R idx k := ⟨marked, complete⟩
        obtain ⟨e, lower, upper, ends, between, after⟩ :=
          opening_span starts kept cycles applies opens before bound resting
        refine .writing e lower upper ends (fun l lowerL upperL => ?_) ?_
        · unfold Writing
          rw [between l (by omega) upperL]
          exact (seq_flip _).mpr complete
        · rw [after, image, openings_succ order, if_pos opens]
          unfold changed
          rw [List.foldl_append]
          rfl
      · have unopened : ¬ Opens R idx k := fun opens => marked opens.1
        have only : ∀ m, k ≤ m → m < k + 1 → m = k := fun m lower upper => by omega
        obtain ⟨data, seq⟩ := quiet.image_same (Nat.le_succ k) (by omega)
          (fun m lower upper => only m lower upper ▸ lives) complete
          (fun m lower upper => only m lower upper ▸ marked)
        refine .written ?_ ?_
        · unfold Writing
          rw [seq]
          exact complete
        · rw [data, image, openings_succ order, if_neg unopened, List.append_nil]
  | writing e until_ within ends odd image =>
      have unopened : ¬ Opens R idx k := fun opens => opens.2 (odd k (Nat.le_refl k) until_)
      have same : openings R idx a (k + 1) = openings R idx a k := by
        rw [openings_succ order, if_neg unopened, List.append_nil]
      rcases Nat.lt_or_ge k e with earlier | last
      · refine .writing e earlier within ends (fun l lower upper => odd l (by omega) upper) ?_
        rw [same]
        exact image
      · obtain rfl : k = e := by omega
        refine .written (fun still => ?_) ?_
        · exact (flips ends).mp still (odd k (Nat.le_refl k) (Nat.le_refl k))
        · rw [same]
          exact image

theorem changes_composed (starts : R.StartsIn (Core.fresh garbage heap) opened)
    (kept : LockKept opened (fun _ => false) 0) (cycles : UpdatesRead R)
    {change : Nat → Rec n → Rec n} (applies : Applies R change) {idx a b : Nat} (order : a ≤ b)
    (bound : b ≤ R.len) (stays : StaysActive R idx a b) (complete : ¬ Writing R idx a)
    (resting : NoUpdate R b) :
    ((R.st b).slot idx).data =
      changed change (openings R idx a b) ((R.st a).slot idx).data := by
  have progress : ∀ k, a ≤ k → k ≤ b → Progress R change idx a b k := by
    intro k lower
    induction k, lower using Nat.le_induction with
    | base =>
        intro _
        refine .written complete ?_
        unfold openings
        rw [Nat.sub_self]
        rfl
    | succ k lower ih =>
        intro upper
        exact (ih (by omega)).step starts kept cycles applies lower upper bound resting
          (stays k lower upper)
  cases progress b order (Nat.le_refl b) with
  | written _ image => exact image
  | writing e until_ within ends odd image => exact absurd within (Nat.not_lt.mpr until_)

/-- The image of a row that stays is its first image after all changes, each one made once and in
the order of the writes. -/
theorem updates_compose (getRecBits : Bytes → Nat → Nat → UInt8) (T : TableShare n) (gran : Gran)
    (R : (rowHandlers getRecBits T gran).Run) (garbage : Nat → Rec n) (heap : Heap)
    (readCheckUsed : Bool) (maxKeyLength activeIndex : Nat)
    (starts : R.StartsIn (Core.fresh garbage heap)
      (fmOpened readCheckUsed maxKeyLength activeIndex))
    (cycles : UpdatesRead R) (change : Nat → Rec n → Rec n) (applies : Applies R change)
    (idx a b : Nat) (order : a ≤ b) (bound : b ≤ R.len) (stays : StaysActive R idx a b)
    (complete : ¬ Writing R idx a) (resting : NoUpdate R b) :
    ((R.st b).slot idx).data =
      changed change (openings R idx a b) ((R.st a).slot idx).data :=
  changes_composed starts (fmOpened_kept readCheckUsed maxKeyLength activeIndex) cycles applies order
    bound stays complete resting

/-- What is to hold of a run in which every update ends a read of its row: a row that stays ends up
as its image changed by the calls that returned 0, in the order of their writes. -/
def KeepsUpdates (R : (rowHandlers getRecBits T gran).Run) : Prop :=
  UpdatesRead R → ∀ change, Applies R change → ∀ idx a b, a ≤ b → b ≤ R.len →
    StaysActive R idx a b → ¬ Writing R idx a → NoUpdate R b →
    ∃ writes : List Nat, writes.Pairwise (· < ·) ∧
      ((R.st b).slot idx).data = changed change writes ((R.st a).slot idx).data ∧
      ∀ m, m ∈ writes ↔ a ≤ m ∧ m < b ∧ ∃ t old new info i j info' e,
        R.Returned t (.updateRow old new) info i j (.changed (.ok ())) info' ∧
          WritesOnce R t idx new i j m e

/-- A write that succeeds replaces the image that was read, and no successful update is lost. -/
theorem updates_notLost (getRecBits : Bytes → Nat → Nat → UInt8) (T : TableShare n) (gran : Gran)
    (R : (rowHandlers getRecBits T gran).Run) (garbage : Nat → Rec n) (heap : Heap)
    (readCheckUsed : Bool) (maxKeyLength activeIndex : Nat)
    (starts : R.StartsIn (Core.fresh garbage heap)
      (fmOpened readCheckUsed maxKeyLength activeIndex)) : WritesOverRead R ∧ KeepsUpdates R := by
  have kept := fmOpened_kept readCheckUsed maxKeyLength activeIndex
  refine ⟨writesOverRead starts kept, ?_⟩
  intro cycles change applies idx a b order bound stays complete resting
  refine ⟨openings R idx a b, List.Pairwise.filter _ (List.pairwise_lt_range' ..),
    changes_composed starts kept cycles applies order bound stays complete resting, fun m => ?_⟩
  unfold openings
  rw [List.mem_filter, List.mem_range'_1, decide_eq_true_eq]
  constructor
  · rintro ⟨⟨lower, upper⟩, opens⟩
    obtain ⟨old, new, _, info, i, j, info', e, _, _, returned, once, _⟩ :=
      opening_returned starts kept cycles opens (by omega) bound resting
    exact ⟨lower, by omega, _, old, new, info, i, j, info', e, returned, once⟩
  · rintro ⟨lower, upper, t, old, new, info, i, j, info', e, returned, once⟩
    exact ⟨⟨lower, by omega⟩, opens_of_writesOnce starts kept cycles returned once⟩

/-! ### A concrete run -/

/-- Whether the step starts no update, or one behind the read that `reads` names. -/
def startsRead (R : (rowHandlers getRecBits T gran).Run)
    (reads : Nat → Option (RowCall n × Nat × Nat)) (i : Nat) : Bool :=
  match (R.ev i).starting with
  | some (.updateRow old _) =>
      (reads i).any fun read => justReads R (R.tid i) read.1 old read.2.1 read.2.2 i
  | _ => true

theorem updatesRead_of_steps {R : (rowHandlers getRecBits T gran).Run}
    (reads : Nat → Option (RowCall n × Nat × Nat))
    (steps : ∀ i, i < R.len → startsRead R reads i = true) : UpdatesRead R := by
  intro i old new info bound starting idle
  have passed := steps i bound
  unfold startsRead at passed
  rw [starting] at passed
  exact justRead_of_justReads (Option.get_of_any_eq_true _ _ passed) idle

end Runs

def raisesByte (m : Nat) : Bool :=
  match ((cycleTurnsRun.cfg m).thread (cycleTurnsRun.tid m)).calling with
  | some (.updateRow old new) => decide (new = fun x => old x + 1)
  | _ => true

def readBefore (i : Nat) : Option (RowCall 1 × Nat × Nat) :=
  if i = 71 then some (.indexReadIdxMap 0 [7], 38, 57) else some (.rndNext, 62, 100)

theorem cycleTurns_steps : (∀ i, i < cycleTurnsRun.len → startsRead cycleTurnsRun readBefore i = true) ∧
    (∀ m ∈ List.range 122, raisesByte m = true ∧ cycleTurnsRun.tid m < 2) ∧
    (∀ m ∈ List.range' 38 84, ((cycleTurnsRun.st m).slot 0).state = .active) ∧
    (∀ t ∈ List.range 2, ((cycleTurnsRun.cfg 122).thread t).resting.isSome = true) ∧
    openings cycleTurnsRun 0 38 122 = [78, 108] ∧ ¬ ((cycleTurnsRun.st 38).slot 0).seq % 2 = 1 := by
  decide +kernel

theorem cycleTurns_cycles : UpdatesRead cycleTurnsRun :=
  updatesRead_of_steps readBefore cycleTurns_steps.1

theorem cycleTurns_applies : Applies cycleTurnsRun fun _ image x => image x + 1 := by
  intro m idx old new program bound _ busy
  have raises := (cycleTurns_steps.2.1 m (List.mem_range.mpr bound)).1
  unfold raisesByte at raises
  rw [busy] at raises
  exact of_decide_eq_true raises

theorem cycleTurns_active : StaysActive cycleTurnsRun 0 38 122 := by
  intro m lower upper
  exact cycleTurns_steps.2.2.1 m (List.mem_range'_1.mpr ⟨lower, by omega⟩)

theorem cycleTurns_settled : NoUpdate cycleTurnsRun 122 := by
  obtain ⟨_, movers, _, idle, _⟩ := cycleTurns_steps
  intro t old new program busy
  rcases Nat.lt_or_ge t 2 with mover | other
  · have rests := idle t (List.mem_range.mpr mover)
    rw [busy] at rests
    cases rests
  · have still := cycleTurnsRun.untouched (t := t) (fun m bound same => by
      have moves := (movers m (List.mem_range.mpr bound)).2
      omega) 122 (Nat.le_refl _)
    cases still.symm.trans busy

theorem updates_compose_cycleTurns : openings cycleTurnsRun 0 38 122 = [78, 108] ∧
    ((cycleTurnsRun.st 122).slot 0).data =
      changed (fun _ image x => image x + 1) (openings cycleTurnsRun 0 38 122)
        ((cycleTurnsRun.st 38).slot 0).data :=
  ⟨cycleTurns_steps.2.2.2.2.1, updates_compose zeroBits byteShare .whole cycleTurnsRun _ _ false 1
    64 rfl cycleTurns_cycles _ cycleTurns_applies 0 38 122 (by omega) (Nat.le_refl _)
    cycleTurns_active cycleTurns_steps.2.2.2.2.2 cycleTurns_settled⟩

theorem updates_notLost_cycleTurns :
    cycleTurnsRun.Returned 0 (.updateRow (fun _ => 7) fun _ => 8) (cycleInfo 0 71) 71 91
      (.changed (.ok ())) (cycleInfo 0 92) ∧
    cycleTurnsRun.Returned 1 (.updateRow (fun _ => 8) fun _ => 9) (cycleInfo 1 101) 101 121
      (.changed (.ok ())) (cycleInfo 1 122) ∧
    WritesOverRead cycleTurnsRun ∧
    ∃ writes : List Nat, writes.Pairwise (· < ·) ∧ ((cycleTurnsRun.st 122).slot 0).data =
      changed (fun _ image x => image x + 1) writes ((cycleTurnsRun.st 38).slot 0).data ∧
      ∀ m, m ∈ writes ↔ 38 ≤ m ∧ m < 122 ∧ ∃ t old new info i j info' e,
        cycleTurnsRun.Returned t (.updateRow old new) info i j (.changed (.ok ())) info' ∧
          WritesOnce cycleTurnsRun t 0 new i j m e := by
  obtain ⟨written, keeps⟩ :=
    updates_notLost zeroBits byteShare .whole cycleTurnsRun _ _ false 1 64 rfl
  exact ⟨Run.returned_of_returns (by decide +kernel), Run.returned_of_returns (by decide +kernel),
    written, keeps cycleTurns_cycles _ cycleTurns_applies 0 38 122 (by omega) (Nat.le_refl _)
      cycleTurns_active cycleTurns_steps.2.2.2.2.2 cycleTurns_settled⟩

end Fastmem
