/-
Two habits of the core's code that its locks do not enforce.

A delete bumps the generation right after it has stored DELETED, and nobody
else stores DELETED. The chunk count is only ever stored within the capacity.
Both are read off the programs and then hold at every step of every run.
-/

import Fastmem.Concurrent.Clients
import Fastmem.Core.CallFrames
import Fastmem.RunEvents

set_option autoImplicit false

namespace Fastmem

open Prog (perform iterate forEach Heeds)

variable {n : Nat} {α : Type} {D : ShareDef n} {gran : Gran}

def BumpsNext (idx : Nat) : CoreProg n α → Prop
  | .act (.bumpGen i) _ => i = idx
  | _ => False

theorem BumpsNext.bind {idx : Nat} {β : Type} {program : CoreProg n α} (f : α → CoreProg n β)
    (bumps : BumpsNext idx program) : BumpsNext idx (program.bind f) := by
  cases program with
  | ret value => exact bumps.elim
  | loop body start next => exact bumps.elim
  | act action next =>
      cases action <;> exact bumps

def Act.Tidy (D : ShareDef n) {ρ : Type} (action : Act n ρ) (next : ρ → CoreProg n α) : Prop :=
  match action, next with
  | .storeState idx .deleted, next => BumpsNext idx (next ())
  | .storeChunkCnt count, _ => count ≤ D.chunkCap
  | _, _ => True

def tidyRule (D : ShareDef n) : Prog.Rule (Act n) where
  holds _ _ action next := action.Tidy D next
  bind := by
    intro ρ α β action next f tidy
    cases action with
    | storeState idx state =>
        cases state with
        | deleted => exact BumpsNext.bind f tidy
        | free => trivial
        | active => trivial
        | deleting => trivial
    | storeChunkCnt count => exact tidy
    | _ => trivial

abbrev Tidy (D : ShareDef n) (program : CoreProg n α) : Prop := program.Heeds (tidyRule D)

/-- Tidy, and no image write: only fm_core_write_image steps a sequence counter. -/
def Act.Plain (D : ShareDef n) {ρ : Type} (action : Act n ρ) (next : ρ → CoreProg n α) : Prop :=
  match action, next with
  | .bumpSeq _, _ => False
  | .storeState idx .deleted, next => BumpsNext idx (next ())
  | .storeChunkCnt count, _ => count ≤ D.chunkCap
  | _, _ => True

def plainRule (D : ShareDef n) : Prog.Rule (Act n) where
  holds _ _ action next := action.Plain D next
  bind := by
    intro ρ α β action next f plain
    cases action with
    | bumpSeq idx => exact plain.elim
    | storeState idx state =>
        cases state with
        | deleted => exact BumpsNext.bind f plain
        | free => trivial
        | active => trivial
        | deleting => trivial
    | storeChunkCnt count => exact plain
    | _ => trivial

abbrev Plain (D : ShareDef n) (program : CoreProg n α) : Prop := program.Heeds (plainRule D)

theorem Plain.tidy {program : CoreProg n α} (plain : Plain D program) : Tidy D program := by
  refine Heeds.mono (fun {ρ β action next} kind => ?_) plain
  cases action with
  | bumpSeq idx => exact kind.elim
  | storeState idx state =>
      cases state with
      | deleted => exact kind
      | free => trivial
      | active => trivial
      | deleting => trivial
  | storeChunkCnt count => exact kind
  | _ => trivial

theorem plain_of_reads {program : CoreProg n α} (work : program.Performs Act.reads) :
    Plain D program := by
  refine Heeds.of_performs (fun next kind => ?_) work
  rename_i action
  cases action <;> trivial

theorem tidy_of_reads {program : CoreProg n α} (work : program.Performs Act.reads) :
    Tidy D program := by
  refine Heeds.of_performs (fun next kind => ?_) work
  rename_i action
  cases action <;> trivial

/-! ### The functions of the core -/

theorem memcpyIn_plain (idx : Nat) (rec : Rec n) : Plain D (memcpyIn gran idx rec) := by
  cases gran with
  | whole => exact .perform trivial
  | bytewise => exact .forEach fun _ _ => .perform trivial

theorem freeSlot_plain (idx : Nat) : Plain D (fmCoreFreeSlot idx) :=
  .step trivial fun _ => .step trivial fun _ => .perform trivial

theorem growKeyNext_plain (c keys left : Nat) : Plain D (growKeyNext c keys left) := by
  induction left with
  | zero => exact .ret _
  | succ left ih =>
      refine .step trivial fun granted => .step trivial fun _ => ?_
      split
      · exact .step trivial fun _ => ih
      · refine Heeds.bind (.forEach fun _ _ => .perform trivial) fun _ => ?_
        refine .step trivial fun _ => .step trivial fun _ => .step trivial fun _ => ?_
        exact .step trivial fun _ => .ret _

theorem growChunkKeys_plain (c : Nat) : Plain D (growChunkKeys D c) := by
  unfold growChunkKeys
  split
  · exact .ret _
  · refine .step trivial fun granted => .step trivial fun _ => ?_
    split
    · exact growKeyNext_plain c D.keys D.keys
    · exact .step trivial fun _ => .step trivial fun _ => .ret _

theorem growChunk_plain : Plain D (fmCoreGrowChunk D) := by
  refine .step trivial fun c => ?_
  split
  · exact .ret _
  · rename_i within
    refine .step trivial fun granted => .step trivial fun _ => ?_
    split
    · exact .ret _
    · refine .step trivial fun _ => (growChunkKeys_plain c).bind fun complete => ?_
      split
      · exact .step (show c + 1 ≤ D.chunkCap by omega) fun _ => .ret _
      · exact .ret _

theorem allocSlot_plain : Plain D (fmCoreAllocSlot D) := by
  refine .step trivial fun head => ?_
  cases head with
  | some idx => exact .step trivial fun _ => .step trivial fun _ => .ret _
  | none =>
      refine .step trivial fun cnt => ?_
      dsimp only
      split
      · exact .ret _
      · refine growChunk_plain.bind fun failed => ?_
        split
        · exact .ret _
        · exact Heeds.bind (.forEach fun i _ => freeSlot_plain i) fun _ => .ret _

theorem chainUnlink_plain (k b idx : Nat) : Plain D (fmCoreChainUnlink k b idx) := by
  refine .iterate fun link => .step trivial fun pointed => ?_
  cases pointed with
  | none => exact .ret _
  | some h =>
      dsimp only
      split
      · exact .step trivial fun _ => .step trivial fun _ => .ret _
      · exact .ret _

theorem chainLink_plain (k b idx : Nat) : Plain D (fmCoreChainLink k b idx) :=
  .step trivial fun _ => .step trivial fun _ => .perform trivial

theorem scanNext_plain (pos : Nat) : Plain D (fmCoreScanNext gran pos) := by
  refine .step trivial fun cnt => .iterate fun at_ => ?_
  unfold scanRound
  split
  · refine (plain_of_reads (readRow_reads at_ false 0)).bind fun row => ?_
    cases row with
    | ok buf => exact .ret _
    | error e => exact .ret _
  · exact .ret _

theorem find_plain (key : Nat) (packed : PackedKey) : Plain D (fmCoreFind D gran key packed) := by
  refine .step trivial fun _ => .step trivial fun head => ?_
  refine Heeds.bind (.iterate fun h => ?_) fun found => .step trivial fun _ => .ret _
  cases h with
  | none => exact .ret _
  | some idx =>
      refine (plain_of_reads (readPassing_reads idx _)).bind fun row => ?_
      cases row with
      | some buf => exact .ret _
      | none => exact .step trivial fun _ => .ret _

theorem findNext_plain (key : Nat) (packed : PackedKey) (cur : Option Nat) :
    Plain D (fmCoreFindNext D gran key packed cur) := by
  refine .step trivial fun _ => .step trivial fun head => ?_
  refine Heeds.bind (.iterate fun state => ?_) fun found => .step trivial fun _ => .ret _
  obtain ⟨h, afterCur⟩ := state
  cases h with
  | none => exact .ret _
  | some idx =>
      dsimp only [findNextRound]
      split
      · exact .step trivial fun _ => .ret _
      · refine Heeds.bind ?_ fun row => ?_
        · split
          · exact plain_of_reads (readPassing_reads idx _)
          · exact .ret _
        · cases row with
          | some buf => exact .ret _
          | none => exact .step trivial fun _ => .ret _

theorem insertLinkKeys_plain (rec : Rec n) (idx : Nat) (keys : List Nat) :
    Plain D (insertLinkKeys D gran rec idx keys) := by
  induction keys with
  | nil => exact .ret _
  | cons k rest ih =>
      refine .step trivial fun _ => (plain_of_reads (dupCheck_reads k _ rec)).bind fun dup => ?_
      split
      · exact .step trivial fun _ => .ret _
      · exact (chainLink_plain k _ idx).bind fun _ => .step trivial fun _ => ih

theorem insertRollback_plain (rec : Rec n) (idx k : Nat) :
    Plain D (insertRollback D rec idx k) := by
  induction k with
  | zero => exact .ret _
  | succ k ih =>
      exact .step trivial fun _ => (chainUnlink_plain k _ idx).bind fun _ => .step trivial fun _ => ih

theorem insertRow_plain (rec : Rec n) : Plain D (fmCoreInsertRow D gran rec) := by
  refine .step trivial fun _ => allocSlot_plain.bind fun slot => ?_
  cases slot with
  | none => exact .step trivial fun _ => .step trivial fun _ => .ret _
  | some idx =>
      refine (memcpyIn_plain idx rec).bind fun _ => (insertLinkKeys_plain rec idx _).bind fun dup => ?_
      cases dup with
      | some k =>
          refine (insertRollback_plain rec idx k).bind fun left => (freeSlot_plain idx).bind fun _ => ?_
          exact .step trivial fun _ => .ret _
      | none =>
          exact .step trivial fun _ => .step trivial fun _ => .step trivial fun _ => .ret _

theorem writeImage_tidy (idx : Nat) (rec : Rec n) : Tidy D (fmCoreWriteImage gran idx rec) :=
  .step trivial fun _ => (memcpyIn_plain idx rec).tidy.bind fun _ => .perform trivial

theorem slotStale_plain (idx : Nat) (g : UInt32) : Plain D (slotStale idx g) :=
  plain_of_reads ((slotStale_readsSlot idx g).mono Act.readsSlot.reads)

theorem unlockBuckets_plain (pairs : List (Nat × Nat)) : Plain D (unlockBuckets pairs) :=
  .forEach fun _ _ => .perform trivial

theorem relinkChanged_plain (old new : Rec n) (idx : Nat) (changed : List Nat) :
    Plain D (relinkChanged D old new idx changed) :=
  .forEach fun k _ => (chainUnlink_plain k _ idx).bind fun _ => chainLink_plain k _ idx

theorem updateRow_tidy (idx : Nat) (g : UInt32) (old new : Rec n) :
    Tidy D (fmCoreUpdateRow D gran idx g old new) := by
  unfold fmCoreUpdateRow
  dsimp only
  split
  · refine .step trivial fun _ => (slotStale_plain idx g).tidy.bind fun stale => ?_
    split
    · exact .step trivial fun _ => .ret _
    · exact (writeImage_tidy idx new).bind fun _ => .step trivial fun _ => .ret _
  · refine Heeds.bind (.forEach fun _ _ => .perform trivial) fun _ => ?_
    refine (tidy_of_reads (dupCheckChanged_reads new _)).bind fun dup => ?_
    cases dup with
    | some k => exact (unlockBuckets_plain _).tidy.bind fun _ => .ret _
    | none =>
        refine .step trivial fun _ => (slotStale_plain idx g).tidy.bind fun stale => ?_
        split
        · exact .step trivial fun _ => (unlockBuckets_plain _).tidy.bind fun _ => .ret _
        · refine (writeImage_tidy idx new).bind fun _ => ?_
          refine (relinkChanged_plain old new idx _).tidy.bind fun _ => .step trivial fun _ => ?_
          exact (unlockBuckets_plain _).tidy.bind fun _ => .ret _

theorem updateRowLocked_tidy (idx : Nat) (g : UInt32) (old new : Rec n) :
    Tidy D (fmCoreUpdateRowLocked D gran idx g old new) := by
  refine (slotStale_plain idx g).tidy.bind fun stale => ?_
  split
  · exact .ret _
  · dsimp only
    split
    · exact (writeImage_tidy idx new).bind fun _ => .ret _
    · refine Heeds.bind (.forEach fun _ _ => .perform trivial) fun _ => ?_
      refine (tidy_of_reads (dupCheckChanged_reads new _)).bind fun dup => ?_
      cases dup with
      | some k => exact (unlockBuckets_plain _).tidy.bind fun _ => .ret _
      | none =>
          refine (writeImage_tidy idx new).bind fun _ => ?_
          refine (relinkChanged_plain old new idx _).tidy.bind fun _ => ?_
          exact (unlockBuckets_plain _).tidy.bind fun _ => .ret _

theorem deleteTail_plain (idx : Nat) : Plain D (deleteTail D gran idx) := by
  refine (plain_of_reads (memcpyOut_reads idx)).bind fun scratch => ?_
  refine Heeds.bind (.forEach fun k _ => ?_) fun _ => ?_
  · exact .step trivial fun _ => (chainUnlink_plain k _ idx).bind fun _ => .perform trivial
  · refine .step (Eq.refl idx) fun _ => .step trivial fun _ => ?_
    refine .step trivial fun _ => .step trivial fun _ => (freeSlot_plain idx).bind fun _ => ?_
    exact .step trivial fun _ => .ret _

theorem deleteRow_plain (idx : Nat) (g : UInt32) : Plain D (fmCoreDeleteRow D gran idx g) := by
  refine .step trivial fun _ => (slotStale_plain idx g).bind fun stale => ?_
  split
  · exact .step trivial fun _ => .ret _
  · exact .step trivial fun _ => .step trivial fun _ => deleteTail_plain idx

theorem deleteRowLocked_plain (idx : Nat) (g : UInt32) :
    Plain D (fmCoreDeleteRowLocked D gran idx g) := by
  refine (slotStale_plain idx g).bind fun stale => ?_
  split
  · exact .ret _
  · exact .step trivial fun _ => deleteTail_plain idx

theorem clear_tidy : Tidy D (fmCoreClear D) := by
  refine .step trivial fun _ => Heeds.bind (.forEach fun k _ => .forEach fun b _ => ?_) fun _ => ?_
  · exact .step trivial fun _ => .step trivial fun _ => .perform trivial
  · refine .step trivial fun cnt => Heeds.bind (.forEach fun i _ => ?_) fun _ => ?_
    · exact .step trivial fun _ => .step trivial fun _ => .step trivial fun _ => .perform trivial
    · refine .step trivial fun _ => Heeds.bind (.forEach fun i _ => (freeSlot_plain i).tidy) fun _ => ?_
      exact .step trivial fun _ => .perform trivial

theorem coreCall_tidy (call : CoreCall n) : Tidy D (call.program D gran) := by
  cases call with
  | insertRow rec => exact (insertRow_plain rec).tidy.bind fun _ => .ret _
  | updateRow idx g old new => exact (updateRow_tidy idx g old new).bind fun _ => .ret _
  | updateRowLocked idx g old new =>
      exact (updateRowLocked_tidy idx g old new).bind fun _ => .ret _
  | deleteRow idx g => exact (deleteRow_plain idx g).tidy.bind fun _ => .ret _
  | deleteRowLocked idx g => exact (deleteRowLocked_plain idx g).tidy.bind fun _ => .ret _
  | clear => exact clear_tidy.bind fun _ => .ret _
  | readRow idx checkGen g =>
      exact (tidy_of_reads (readRow_reads idx checkGen g)).bind fun _ => .ret _
  | find key packed => exact (find_plain key packed).tidy.bind fun _ => .ret _
  | findNext key packed cur => exact (findNext_plain key packed cur).tidy.bind fun _ => .ret _
  | scanNext pos => exact (scanNext_plain pos).tidy.bind fun _ => .ret _
  | lockRow idx => exact .step trivial fun _ => .ret _
  | unlockRow idx => exact .step trivial fun _ => .ret _

/-! ### Runs -/

theorem ShareDef.slots_lt (D : ShareDef n) : D.chunkCap * fmChunkSize < 2 ^ 31 := by
  have limit := D.max_le
  rw [D.chunkCap_eq]
  unfold fmChunkSize
  omega

section Runs

open ThreadSystem

variable {T : ThreadSystem (coreMachine n)} {R : T.Run} {garbage : Nat → Rec n} {heap : Heap}
  {kept : T.Loc}

theorem slotCount_lt (starts : R.StartsIn (Core.fresh garbage heap) kept)
    (codes : ∀ t call kept, Tidy D (T.code t call kept)) :
    ∀ i, i ≤ R.len → (R.st i).slotCount < 2 ^ 31 := by
  have tidy := R.heeds starts codes
  have within : ∀ i, i ≤ R.len → (R.st i).chunkCnt ≤ D.chunkCap := by
    refine @Run.invariant _ _ R (fun c => c.st.chunkCnt ≤ D.chunkCap) ?_ fun i bound before => ?_
    · rw [starts]
      exact Nat.zero_le _
    · rcases R.acts bound with ⟨call, ρ, action, next, result, busy, _, ran, _⟩ | ⟨_, same⟩
      · have rule := (tidy i (Nat.le_of_lt bound) _ _ _ busy).1
        change (R.st i).chunkCnt ≤ _ at before
        change (R.st (i + 1)).chunkCnt ≤ _
        generalize R.st (i + 1) = after at ran
        generalize R.st i = now at ran before
        cases action with
        | storeChunkCnt count =>
            cases ran
            exact rule
        | lock l =>
            simp only [Act.exec] at ran
            split at ran
            · cases ran
              exact before
            · cases ran
        | _ =>
            cases ran
            exact before
      · change (R.st (i + 1)).chunkCnt ≤ _
        rw [same]
        exact before
  intro i bound
  exact Nat.lt_of_le_of_lt (Nat.mul_le_mul_right _ (within i bound)) D.slots_lt

end Runs

end Fastmem
