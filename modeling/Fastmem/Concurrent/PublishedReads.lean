/-
What the reading functions of the core return beside deletes and inserts (fm_core.h).

fm_core_read_row checks the state and the generation of a slot before it copies
the image and looks at the sequence counter alone afterwards. An insert into a
recycled slot does not step that counter. So a copy can only be trusted if the
row was not deleted for good, that is if the generation of its slot was not
bumped, between the check of the state and the second load of the counter.
-/

import Fastmem.Concurrent.SeqlockReads

set_option autoImplicit false

namespace Fastmem

open ThreadSystem
open QuietRun (Holds)

variable {n : Nat}

/-- No delete bumps the generation of a slot between a reader's check of its state and a load of
its sequence counter in the same round. A copy byte by byte meets fewer than 2^32 steps of the
counter. -/
structure RoundsApart {T : ThreadSystem (coreMachine n)} (gran : Gran) (R : T.Run) : Prop where
  rounds : ∀ t idx a e, Unbroken R t a e → Marked R a (.state idx) → Marked R e (.seq idx) →
    SameRow R idx a e
  writes : gran = .bytewise → ∀ t idx c e, Unbroken R t c e → Marked R c (.seq idx) →
    Marked R e (.seq idx) → markCount R (.bumpSeq idx) c e < 2 ^ 32

section Reads

variable {S : Setting n} {T : ThreadSystem (coreMachine n)} {R : T.Run} {gran : Gran}
  {t idx i j : Nat} {record : Rec n}

/-- A read returns an image that the row had while it was ACTIVE, under the generation that was
asked for. -/
theorem read_published (quiet : QuietRun S R) (apart : RoundsApart gran R) {checkGen : Bool}
    {g : UInt32}
    (performed : Performed R t i (fmCoreReadRow gran idx checkGen g) j (.ok record))
    (bound : j ≤ R.len) :
    ∃ m, i ≤ m ∧ m ≤ j ∧ Holds gran R idx record m ∧
      (checkGen = true → ((R.st m).slot idx).gen = g) := by
  obtain ⟨a, c, e, lowerA, upperE, round, during, checks⟩ := readRow_last performed
  obtain ⟨beforeC, beforeE⟩ := round.order
  obtain ⟨ownA, ownC, ownE⟩ := round.own
  have same := apart.rounds t idx a e
    (.within during (Nat.le_refl a) (by omega) (by omega) ⟨ownA, ownE⟩) round.checked round.second
  obtain ⟨m, lowerM, upperM, holds⟩ := quiet.round_image round (by omega) same
    fun bytewise => apart.writes bytewise t idx c e
      (.within during (by omega) (by omega) beforeE ⟨ownC, ownE⟩) round.first round.second
  refine ⟨m, by omega, by omega, holds, fun checked => ?_⟩
  obtain ⟨b, lowerB, upperB, _, _, current⟩ := checks checked
  have allocated : idx < (R.st a).slotCount :=
    QuietRun.Lives.allocated (Or.inl round.active) quiet (by omega)
  have toM := quiet.gen_same lowerM (by omega) allocated (same.mono (Nat.le_refl a) upperM)
  have toB := quiet.gen_same (Nat.le_of_lt lowerB) (by omega) allocated
    (same.mono (Nat.le_refl a) (by omega))
  exact toM.trans (toB.symm.trans current)

theorem ReadLast.published (read : ReadLast gran R t idx record i j) (quiet : QuietRun S R)
    (apart : RoundsApart gran R) (bound : j ≤ R.len) :
    ∃ m, i ≤ m ∧ m ≤ j ∧ Holds gran R idx record m := by
  obtain ⟨a, b, lower, upper, performed, _⟩ := read
  obtain ⟨m, lowerM, upperM, holds, _⟩ := read_published quiet apart performed (by omega)
  exact ⟨m, by omega, by omega, holds⟩

end Reads

/-! ### The calls of the core -/

def CoreCall.returnedRow : CoreCall n → CoreRes n → Option (Nat × Rec n)
  | .readRow idx _ _, .read (.ok record) => some (idx, record)
  | .find _ _, .found (.ok row) => some row
  | .findNext _ _ _, .found (.ok row) => some row
  | .scanNext _, .scanned pos (.ok record) => some (pos - 1, record)
  | _, _ => none

/-- Every row that a reading function returns was published as a whole, and with the generation
that the caller gave. -/
theorem reads_published (T : TableShare n) (gran : Gran) (R : (infoClients T gran).Run)
    (garbage : Nat → Rec n) (heap : Heap) (info : Info)
    (starts : R.StartsIn (Core.fresh garbage heap) info) (apart : RoundsApart gran R) :
    ∀ t call before i j result after idx record,
      R.Returned t (.core call) before i j (.core result) after →
      call.returnedRow result = some (idx, record) →
      ∃ m, i ≤ m ∧ m ≤ j ∧ Holds gran R idx record m ∧
        ∀ g, call = .readRow idx true g → ((R.st m).slot idx).gen = g := by
  intro t call before i j result after idx record returned isRow
  have quiet := (infoClients_obedient T gran).quietRun starts trivial (infoClients_tidy T gran)
  have bound := returned.bound
  obtain ⟨k, value, called, last⟩ := (Performed.ofReturned returned).bind_inv
  have lastLe := last.le
  cases last.pure_inv
  -- only fm_core_read_row is asked for a generation
  have walked : (∀ g, call ≠ .readRow idx true g) → ReadLast gran R t idx record (i + 1) k →
      ∃ m, i ≤ m ∧ m ≤ j ∧ Holds gran R idx record m ∧
        ∀ g, call = .readRow idx true g → ((R.st m).slot idx).gen = g := by
    intro other read
    obtain ⟨m, lower, upper, holds⟩ := read.published quiet apart (by omega)
    exact ⟨m, by omega, by omega, holds, fun g same => absurd same (other g)⟩
  cases call with
  | readRow idx' checkGen g =>
      obtain ⟨k', row, read, rest⟩ := Performed.bind_inv called
      have restLe := rest.le
      cases rest.pure_inv
      cases row with
      | error e => cases isRow
      | ok record' =>
          cases isRow
          obtain ⟨m, lower, upper, holds, gen⟩ := read_published quiet apart read (by omega)
          refine ⟨m, by omega, by omega, holds, fun g' same => ?_⟩
          cases same
          exact gen rfl
  | find key packed =>
      obtain ⟨k', row, read, rest⟩ := Performed.bind_inv called
      have restLe := rest.le
      have rests := Unchecked.of_rest (Does.ret_inv rest).2
      cases rest.pure_inv
      cases row with
      | error e => cases isRow
      | ok pair =>
          cases isRow
          exact walked (fun _ clash => by cases clash)
            ((find_read read).extend (Nat.le_refl _) restLe rests)
  | findNext key packed cur =>
      obtain ⟨k', row, read, rest⟩ := Performed.bind_inv called
      have restLe := rest.le
      have rests := Unchecked.of_rest (Does.ret_inv rest).2
      cases rest.pure_inv
      cases row with
      | error e => cases isRow
      | ok pair =>
          cases isRow
          exact walked (fun _ clash => by cases clash)
            ((findNext_read read).extend (Nat.le_refl _) restLe rests)
  | scanNext pos =>
      obtain ⟨k', ⟨pos', row⟩, read, rest⟩ := Performed.bind_inv called
      have restLe := rest.le
      have rests := Unchecked.of_rest (Does.ret_inv rest).2
      cases rest.pure_inv
      cases row with
      | error e => cases isRow
      | ok record' =>
          cases isRow
          obtain ⟨_, idx', _, rfl, _, last'⟩ := scanNext_read read
          exact walked (fun _ clash => by cases clash)
            (last'.extend (Nat.le_refl _) restLe rests)
  | insertRow _ | updateRow _ _ _ _ | updateRowLocked _ _ _ _ | deleteRow _ _
  | deleteRowLocked _ _ | clear | lockRow _ | unlockRow _ => cases isRow

theorem readBesideUpdate_marked {m : Nat} {mark : Mark}
    (marked : Marked readBesideUpdateRun m mark) : m < 71 := by
  by_contra beyond
  have past : readBesideUpdateRun.ev m = .unroll :=
    Run.ofSchedule_beyond _ _ readBesideUpdate_played (Nat.not_lt.mp beyond)
  rw [Marked, past] at marked
  cases marked

theorem readBesideUpdate_apart : RoundsApart .bytewise readBesideUpdateRun := by
  have unbumped : ∀ m, m < 71 → marks readBesideUpdateRun Mark.bumps m = false := by
    decide +kernel
  constructor
  · intro t idx a e _ _ _ m _ _ marked
    have none := unbumped m (readBesideUpdate_marked marked)
    rw [marked.marks rfl] at none
    cases none
  · intro _ t idx c e _ _ second
    have inside := readBesideUpdate_marked second
    calc markCount readBesideUpdateRun (.bumpSeq idx) c e
      _ ≤ (Finset.Ico c e).card := Finset.card_filter_le ..
      _ = e - c := Nat.card_Ico c e
      _ < 2 ^ 32 := by omega

theorem readBesideUpdate_returned :
    readBesideUpdateRun.Returned 1 (.core (.readRow 0 true 0)) openedInfo 35 70
      (.core (.read (.ok copiedEight))) openedInfo :=
  Run.returned_of_returns (by decide +kernel)

/-- The reader of this run has copied twice and returns the second image. -/
theorem reads_published_readBesideUpdate : RoundsApart .bytewise readBesideUpdateRun ∧
    ∃ m, 35 ≤ m ∧ m ≤ 70 ∧ Holds .bytewise readBesideUpdateRun 0 copiedEight m ∧
      ((readBesideUpdateRun.st m).slot 0).gen = 0 := by
  obtain ⟨m, lower, upper, holds, gen⟩ := reads_published byteShare .bytewise readBesideUpdateRun _ _
    openedInfo rfl readBesideUpdate_apart 1 _ _ 35 70 _ _ 0 copiedEight readBesideUpdate_returned rfl
  exact ⟨readBesideUpdate_apart, m, lower, upper, holds, gen 0 rfl⟩

end Fastmem
