/-
Seqlock reads of a live row (fm_core_read_row).

A writer makes the sequence counter odd, copies its image byte by byte and makes
the counter even again. A reader that found the counter even and has it unchanged
behind its copy met no write, unless 2^32 steps of the counter fell into the
copy, which takes 2^31 writes. So its buffer is one image that was the complete
content of the slot.
-/

import Fastmem.Handler.Positions

set_option autoImplicit false

namespace Fastmem

open ThreadSystem
open QuietRun (Holds)

variable {n : Nat}

/-! ### Counting image writes -/

section Writes

variable {S : Setting n} {T : ThreadSystem (coreMachine n)} {R : T.Run} {idx a b : Nat}

def Writing (R : T.Run) (idx m : Nat) : Prop := ((R.st m).slot idx).seq % 2 = 1

instance (R : T.Run) (idx m : Nat) : Decidable (Writing R idx m) :=
  inferInstanceAs (Decidable (_ = _))

def writesBegun (R : T.Run) (idx a b : Nat) : Nat :=
  ((Finset.Ico a b).filter fun m => Marked R m (.bumpSeq idx) ∧ ¬ Writing R idx m).card

/-- The image writes to the slot in this time, with one that is under way at its start. -/
def imageWrites (R : T.Run) (idx a b : Nat) : Nat :=
  writesBegun R idx a b + if Writing R idx a then 1 else 0

theorem writesBegun_succ (order : a ≤ b) : writesBegun R idx a (b + 1) =
    writesBegun R idx a b + if Marked R b (.bumpSeq idx) ∧ ¬ Writing R idx b then 1 else 0 := by
  unfold writesBegun
  rw [Nat.Ico_succ_right_eq_insert_Ico order, Finset.filter_insert]
  split
  · rw [Finset.card_insert_of_notMem]
    simp
  · rfl

theorem markCount_writes (quiet : QuietRun S R) (order : a ≤ b) (bound : b ≤ R.len)
    (allocated : idx < (R.st a).slotCount) :
    markCount R (.bumpSeq idx) a b + (if Writing R idx b then 1 else 0) =
      2 * writesBegun R idx a b + if Writing R idx a then 1 else 0 := by
  induction b, order using Nat.le_induction with
  | base =>
      rw [markCount_self]
      simp [writesBegun]
  | succ b order ih =>
      have below : idx < (R.st b).slotCount :=
        Nat.lt_of_lt_of_le allocated (quiet.mono a b order (Nat.le_of_succ_le bound))
      obtain ⟨g, _, step⟩ := quiet.step bound below
      have before := ih (Nat.le_of_succ_le bound)
      rw [markCount_succ order, writesBegun_succ order]
      by_cases marked : Marked R b (.bumpSeq idx)
      · have flips : Writing R idx (b + 1) ↔ ¬ Writing R idx b := by
          unfold Writing
          rw [step.seq_eq, if_pos (show _ = _ from marked)]
          exact seq_flip _
        by_cases writing : Writing R idx b
        · have ended : ¬ Writing R idx (b + 1) := fun still => flips.mp still writing
          rw [if_pos writing] at before
          rw [if_pos marked, if_neg ended, if_neg fun begins => begins.2 writing]
          omega
        · rw [if_neg writing] at before
          rw [if_pos marked, if_pos (flips.mpr writing), if_pos ⟨marked, writing⟩]
          omega
      · have stays : Writing R idx (b + 1) ↔ Writing R idx b := by
          unfold Writing
          rw [step.seq_eq, if_neg (show ¬ _ = _ from marked)]
        have none : ¬ (Marked R b (.bumpSeq idx) ∧ ¬ Writing R idx b) := fun begins => marked begins.1
        rw [if_neg marked, if_neg none]
        by_cases writing : Writing R idx b
        · rw [if_pos writing] at before
          rw [if_pos (stays.mpr writing)]
          omega
        · rw [if_neg writing] at before
          rw [if_neg fun still => writing (stays.mp still)]
          omega

/-- Fewer than 2^31 writes cannot bring the counter back to its value. -/
theorem markCount_lt (quiet : QuietRun S R) (order : a ≤ b) (bound : b ≤ R.len)
    (allocated : idx < (R.st a).slotCount) (few : imageWrites R idx a b < 2 ^ 31) :
    markCount R (.bumpSeq idx) a b < 2 ^ 32 := by
  have counted := markCount_writes quiet order bound allocated
  unfold imageWrites at few
  omega

end Writes

theorem StaysActive.sameRow {S : Setting n} {T : ThreadSystem (coreMachine n)} {R : T.Run}
    {idx i j : Nat} (stays : StaysActive R idx i j) (quiet : QuietRun S R) (bound : j ≤ R.len) :
    SameRow R idx i j := by
  intro m lower upper marked
  have active := stays m lower upper
  obtain ⟨g, quietly⟩ := quiet.explained m (by omega)
  obtain ⟨g, quietly, step⟩ := quiet.step (by omega) (quietly.inv.roles.active idx active)
  generalize (R.st (m + 1)).slot idx = slot' at step
  cases step with
  | bumpGen _ retired =>
      rcases retired with deleted | clearing
      · cases active.symm.trans deleted
      · exact QuietRun.not_truncating quietly clearing
  | bumpSeq marked' _ => cases marked.symm.trans marked'
  | other sameGen _ => exact sameGen marked
  | fill _ sameGen => exact sameGen marked
  | write _ sameGen => exact sameGen marked
  | publish sameGen => exact sameGen marked
  | flip sameGen => exact sameGen marked
  | retire sameGen => exact sameGen marked
  | wipe sameGen => exact sameGen marked

/-- A read of a row that stays ACTIVE returns an image that was the complete content of the
slot, whatever the writers did meanwhile. -/
theorem reads_untorn (T : TableShare n) (R : (infoClients T .bytewise).Run)
    (garbage : Nat → Rec n) (heap : Heap) (info : Info)
    (starts : R.StartsIn (Core.fresh garbage heap) info) :
    ∀ t idx checkGen g before i j buf after,
      R.Returned t (.core (.readRow idx checkGen g)) before i j (.core (.read (.ok buf))) after →
      StaysActive R idx i (j + 1) → imageWrites R idx i j < 2 ^ 31 →
      ∃ m, i ≤ m ∧ m ≤ j ∧ Holds .bytewise R idx buf m := by
  intro t idx checkGen g before i j buf after returned stays few
  have quiet := (infoClients_obedient T .bytewise).quietRun starts trivial
    (infoClients_tidy T .bytewise)
  have bound := returned.bound
  obtain ⟨m, result, call, last⟩ := (Performed.ofReturned returned).bind_inv
  obtain ⟨m', row, read, answer⟩ := Performed.bind_inv call
  have lastLe := last.le
  have answerLe := answer.le
  cases answer.pure_inv
  cases last.pure_inv
  obtain ⟨a, c, e, lowerA, upperE, round, _, _⟩ := readRow_last read
  obtain ⟨beforeC, beforeE⟩ := round.order
  have active : ((R.st i).slot idx).state = .active := stays i (Nat.le_refl i) (by omega)
  obtain ⟨g', quietly⟩ := quiet.explained i (by omega)
  have few' := markCount_lt quiet (Nat.le_of_lt returned.before) (by omega)
    (quietly.inv.roles.active idx active) few
  have same : SameRow R idx i j := fun k lower upper =>
    stays.sameRow quiet (by omega) k lower (by omega)
  obtain ⟨k, lower, upper, holds⟩ := quiet.round_image round (by omega)
    (fun k lower upper => same k (by omega) (by omega))
    fun _ => Nat.lt_of_le_of_lt (markCount_mono (by omega) (by omega)) few'
  exact ⟨k, by omega, by omega, holds⟩

def readBesideUpdate : List (Nat × Option (InfoCall 1)) :=
  List.flatten [callSteps 0 (.core (.insertRow fun _ => 7)) 34,
    callSteps 1 (.core (.readRow 0 true 0)) 5,
    callSteps 0 (.core (.updateRow 0 0 (fun _ => 7) fun _ => 8)) 21, List.replicate 8 (1, none)]

theorem readBesideUpdate_played : (play (S := infoClients byteShare .bytewise)
    ⟨byteStart, fun _ => .idle openedInfo⟩ readBesideUpdate).isSome = true := by
  decide +kernel

def readBesideUpdateRun : (infoClients byteShare .bytewise).Run :=
  Run.ofSchedule ⟨byteStart, fun _ => .idle openedInfo⟩ readBesideUpdate readBesideUpdate_played

def copiedEight : Rec 1 := Function.update (fun _ => 0) ⟨0, Nat.one_pos⟩ 8

theorem reads_untorn_besideUpdate : readBesideUpdateRun.Returned 1 (.core (.readRow 0 true 0))
      openedInfo 35 70 (.core (.read (.ok copiedEight))) openedInfo ∧
    imageWrites readBesideUpdateRun 0 35 70 = 1 ∧
    ∃ m, 35 ≤ m ∧ m ≤ 70 ∧ Holds .bytewise readBesideUpdateRun 0 copiedEight m := by
  have returned : readBesideUpdateRun.Returned 1 (.core (.readRow 0 true 0)) openedInfo 35 70
      (.core (.read (.ok copiedEight))) openedInfo :=
    Run.returned_of_returns (by decide +kernel)
  have one : imageWrites readBesideUpdateRun 0 35 70 = 1 := by
    decide +kernel
  have active : ∀ m ∈ List.range' 35 36, ((readBesideUpdateRun.st m).slot 0).state = .active := by
    decide +kernel
  have stays : StaysActive readBesideUpdateRun 0 35 71 := by
    intro m lower upper
    exact active m (List.mem_range'_1.mpr ⟨lower, by omega⟩)
  refine ⟨returned, one, ?_⟩
  exact reads_untorn byteShare readBesideUpdateRun _ _ openedInfo rfl _ _ _ _ _ _ _ _ _ returned
    stays (by rw [one]; decide)

end Fastmem
