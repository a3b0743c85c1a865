/-
What a finished call can have done, read off its program alone.

Nothing is assumed about the chains: an update that was given a wrong old
record may leave a row in a chain it does not belong to, or a chain without an
end. Whatever the chains look like, reads change nothing, chain surgery changes
chain cells only, and a call that returned has released every lock it took.
-/

import Fastmem.Core.SerialUpdate

set_option autoImplicit false

namespace Fastmem

open Prog (perform iterate forEach foldEach Performs)
open Machine

variable {n : Nat} {α β : Type} {t : Nat} {s s' : Core n} {D : ShareDef n} {gran : Gran}

/-! ### Runs taken apart -/

theorem runs_pure_inv {value answer : α} (ran : Runs t (pure value : CoreProg n α) s answer s') :
    answer = value ∧ s' = s :=
  Exec.ret_inv (M := coreMachine n) ran

theorem runs_perform_inv {ρ : Type} {action : Act n ρ} {f : ρ → CoreProg n α} {answer : α}
    (ran : Runs t (perform action >>= f) s answer s') :
    ∃ result mid, Act.exec t action s = some (result, mid) ∧ Runs t (f result) mid answer s' :=
  Exec.perform_bind_inv (M := coreMachine n) ran

theorem runs_bind_inv {program : CoreProg n β} {f : β → CoreProg n α} {answer : α}
    (ran : Runs t (program >>= f) s answer s') :
    ∃ value mid, Runs t program s value mid ∧ Runs t (f value) mid answer s' :=
  Exec.bind_inv (M := coreMachine n) ran

/-! ### Kinds of actions -/

def Act.readsSlot (ρ : Type) : Act n ρ → Prop
  | .loadState _ | .loadGen _ | .loadSeq _ | .loadData _ | .loadByte _ _ => True
  | _ => False

def Act.reads (ρ : Type) : Act n ρ → Prop
  | .loadState _ | .loadGen _ | .loadSeq _ | .loadData _ | .loadByte _ _ | .loadCell _
  | .loadChunkCnt => True
  | _ => False

def Relinked (s s' : Core n) : Prop :=
  ∃ cell, s' = { s with cell := cell } ∧ SameFree s.cell cell

theorem Relinked.refl (s : Core n) : Relinked s s := ⟨s.cell, rfl, SameFree.refl _⟩

theorem Relinked.trans {mid : Core n} (first : Relinked s mid) (second : Relinked mid s') :
    Relinked s s' := by
  obtain ⟨cell, rfl, same⟩ := first
  obtain ⟨cell', rfl, same'⟩ := second
  exact ⟨cell', rfl, same.trans same'⟩

theorem Relinked.withOwner (relinked : Relinked s s') (owner : Lock → Option Nat) :
    Relinked { s with owner := owner } { s' with owner := owner } := by
  obtain ⟨cell, rfl, same⟩ := relinked
  exact ⟨cell, rfl, same⟩

theorem reads_unchanged {program : CoreProg n α} {result : α} (work : program.Performs Act.reads)
    (ran : Runs t program s result s') : s' = s := by
  have same : s = s' := by
    refine Exec.related (M := coreMachine n) (fun _ => rfl)
      (fun _ _ _ first second => first.trans second) ?_ work ran
    intro ρ action s result mid kind ran
    cases action <;> cases kind <;> cases ran <;> rfl
  exact same.symm

/-! ### What the parts of a call perform -/

theorem Act.readsSlot.reads (ρ : Type) (action : Act n ρ) (kind : Act.readsSlot ρ action) :
    Act.reads ρ action := by
  cases action <;> first | exact kind | cases kind

theorem memcpyOut_readsSlot (idx : Nat) :
    (memcpyOut (n := n) gran idx).Performs Act.readsSlot := by
  cases gran with
  | whole => exact .perform trivial
  | bytewise => exact .foldEach (fun _ _ _ => .step trivial fun _ => .ret _) _

theorem memcpyOut_reads (idx : Nat) : (memcpyOut (n := n) gran idx).Performs Act.reads :=
  (memcpyOut_readsSlot idx).mono Act.readsSlot.reads

theorem slotStale_readsSlot (idx : Nat) (g : UInt32) :
    (slotStale (n := n) idx g).Performs Act.readsSlot := by
  refine .step trivial fun state => ?_
  split
  · exact .ret _
  · exact .step trivial fun _ => .ret _

theorem seqlockCopy_readsSlot (idx : Nat) :
    (seqlockCopy (n := n) gran idx).Performs Act.readsSlot := by
  refine .step trivial fun before => ?_
  split
  · exact .ret _
  · refine (memcpyOut_readsSlot idx).bind fun buf => .step trivial fun after => ?_
    split
    · exact .ret _
    · exact .ret _

theorem readRow_readsSlot (idx : Nat) (checkGen : Bool) (g : UInt32) :
    (fmCoreReadRow (n := n) gran idx checkGen g).Performs Act.readsSlot := by
  refine .iterate fun _ => .step trivial fun state => ?_
  split
  · exact .ret _
  · have mismatch : (genMismatch (n := n) idx checkGen g).Performs Act.readsSlot := by
      cases checkGen with
      | false => exact .ret _
      | true => exact .step trivial fun _ => .ret _
    refine mismatch.bind fun differs => ?_
    split
    · exact .ret _
    · refine (seqlockCopy_readsSlot idx).bind fun copied => ?_
      cases copied with
      | none => exact .ret _
      | some buf => exact .ret _

theorem readRow_reads (idx : Nat) (checkGen : Bool) (g : UInt32) :
    (fmCoreReadRow (n := n) gran idx checkGen g).Performs Act.reads :=
  (readRow_readsSlot idx checkGen g).mono Act.readsSlot.reads

theorem readPassing_readsSlot (idx : Nat) (test : Rec n → Bool) :
    (readPassing gran idx test).Performs Act.readsSlot := by
  refine (readRow_readsSlot idx false 0).bind fun row => ?_
  cases row with
  | ok buf => exact .ret _
  | error e => exact .ret _

theorem readPassing_reads (idx : Nat) (test : Rec n → Bool) :
    (readPassing gran idx test).Performs Act.reads :=
  (readPassing_readsSlot idx test).mono Act.readsSlot.reads

theorem dupCheck_reads (k b : Nat) (rec : Rec n) :
    (fmCoreDupCheck D gran k b rec).Performs Act.reads := by
  unfold fmCoreDupCheck
  dsimp only
  split
  · refine .step trivial fun head => .iterate fun h => ?_
    cases h with
    | none => exact .ret _
    | some idx =>
        refine (readPassing_reads idx _).bind fun row => ?_
        cases row with
        | some buf => exact .ret _
        | none => exact .step trivial fun _ => .ret _
  · exact .ret _

theorem dupCheckChanged_reads (new : Rec n) (changed : List Nat) :
    (dupCheckChanged D gran new changed).Performs Act.reads := by
  induction changed with
  | nil => exact .ret _
  | cons k rest ih =>
      refine (dupCheck_reads k _ new).bind fun dup => ?_
      split
      · exact .ret _
      · exact ih

/-! ### Chain surgery -/

def Relinks (program : CoreProg n α) : Prop :=
  ∀ (t : Nat) (s s' : Core n) (result : α), Runs t program s result s' → Relinked s s'

namespace Relinks

theorem of_reads {program : CoreProg n α} (work : program.Performs Act.reads) :
    Relinks program := by
  intro t s s' result ran
  rw [reads_unchanged work ran]
  exact Relinked.refl s

theorem bind {program : CoreProg n α} {f : α → CoreProg n β} (first : Relinks program)
    (second : ∀ value, Relinks (f value)) : Relinks (program >>= f) := by
  intro t s s' result ran
  obtain ⟨value, mid, ran₁, ran₂⟩ := Exec.bind_inv (M := coreMachine n) ran
  exact (first t s mid value ran₁).trans (second value t mid s' result ran₂)

theorem forEach {ι : Type} {items : List ι} {body : ι → CoreProg n Unit}
    (round : ∀ item ∈ items, Relinks (body item)) : Relinks (forEach items body) := by
  induction items with
  | nil => exact of_reads (.ret ())
  | cons item rest ih =>
      refine bind (round item (List.mem_cons_self ..)) fun _ => ih fun later member => ?_
      exact round later (List.mem_cons_of_mem item member)

end Relinks

def Cell.ofChain : Cell → Prop
  | .head _ _ | .next _ _ => True
  | _ => False

theorem Relinked.setCell (s : Core n) (cell : Cell) (ofChain : cell.ofChain)
    (value : Option Nat) : Relinked s (s.setCell cell value) := by
  refine ⟨_, rfl, ?_⟩
  cases cell with
  | head k b => exact ⟨by simp, fun i => by simp⟩
  | next k i => exact ⟨by simp, fun i => by simp⟩
  | freeHead => cases ofChain
  | freeNext i => cases ofChain

theorem chainLink_relinks (k b idx : Nat) : Relinks (fmCoreChainLink (n := n) k b idx) := by
  intro t s s' result ran
  obtain ⟨_, rfl⟩ := Exec.deterministic ran chainLink_runs
  exact (Relinked.setCell s (.next k idx) trivial _).trans
    (Relinked.setCell _ (.head k b) trivial _)

/-- The walk stays in cells of the chain and stores through the one it ends at. -/
theorem unlinkRound_inv {k idx : Nat} {link : Cell} {outcome : Cell ⊕ Except Err Unit}
    (ofChain : link.ofChain) (ran : Runs t (unlinkRound k idx link) s outcome s') :
    match outcome with
    | .inl again => again.ofChain ∧ s' = s
    | .inr _ => Relinked s s' := by
  obtain ⟨pointed, _, loaded, rest⟩ := runs_perform_inv ran
  cases loaded
  cases pointedAt : s.cell link with
  | none =>
      rw [pointedAt] at rest
      obtain ⟨rfl, rfl⟩ := runs_pure_inv rest
      exact Relinked.refl _
  | some h =>
      rw [pointedAt] at rest
      by_cases here : h = idx
      · simp only [if_pos here] at rest
        obtain ⟨_, _, loaded, rest⟩ := runs_perform_inv rest
        obtain ⟨_, _, stored, rest⟩ := runs_perform_inv rest
        cases loaded
        cases stored
        obtain ⟨rfl, rfl⟩ := runs_pure_inv rest
        exact Relinked.setCell _ link ofChain _
      · simp only [if_neg here] at rest
        obtain ⟨rfl, rfl⟩ := runs_pure_inv rest
        exact ⟨trivial, rfl⟩

theorem chainUnlink_relinks (k b idx : Nat) :
    Relinks (fmCoreChainUnlink (n := n) k b idx) := by
  intro t s s' result ran
  obtain ⟨link, mid, ⟨ofChain, rfl⟩, last⟩ := Exec.iterate_inv (M := coreMachine n)
    (fun link mid => Cell.ofChain link ∧ mid = s) (by
      rintro link mid again after ⟨ofChain, rfl⟩ round
      exact unlinkRound_inv ofChain round) ⟨show (Cell.head k b).ofChain from trivial, rfl⟩ ran
  exact unlinkRound_inv ofChain last

theorem relinkChanged_relinks (old new : Rec n) (idx : Nat) (changed : List Nat) :
    Relinks (relinkChanged D old new idx changed) :=
  .forEach fun k _ => (chainUnlink_relinks k _ idx).bind fun _ => chainLink_relinks k _ idx

/-! ### Locks that are taken and given back -/

theorem exec_lock_inv {l : Lock} {result : Unit} {mid : Core n}
    (ran : Act.exec t (.lock l) s = some (result, mid)) :
    s.owner l = none ∧ mid = s.setOwner l (some t) := by
  cases free : s.owner l with
  | none =>
      simp only [Act.exec, free] at ran
      cases ran
      exact ⟨rfl, rfl⟩
  | some u =>
      simp only [Act.exec, free] at ran
      cases ran

theorem Relinked.release {l : Lock} {mid : Core n} (free : s.owner l = none)
    (relinked : Relinked (s.setOwner l (some t)) mid) : Relinked s (mid.setOwner l none) := by
  obtain ⟨cell, rfl, same⟩ := relinked
  rw [release_cell free]
  exact ⟨cell, rfl, same⟩

theorem Relinks.locked {body : CoreProg n α} {rest : α → CoreProg n β} {l : Lock}
    (work : Relinks body) (after : ∀ value, Relinks (rest value)) :
    Relinks (do
      perform (.lock l)
      let value ← body
      perform (.unlock l)
      rest value) := by
  intro t s s' result ran
  obtain ⟨_, _, taken, ran⟩ := runs_perform_inv ran
  obtain ⟨free, rfl⟩ := exec_lock_inv taken
  obtain ⟨value, mid, worked, ran⟩ := runs_bind_inv ran
  obtain ⟨_, _, released, ran⟩ := runs_perform_inv ran
  cases released
  exact ((work _ _ _ _ worked).release free).trans (after value _ _ _ _ ran)

theorem insertLinkKeys_relinks (rec : Rec n) (idx : Nat) (keys : List Nat) :
    Relinks (insertLinkKeys D gran rec idx keys) := by
  induction keys with
  | nil => exact .of_reads (.ret _)
  | cons k rest ih =>
      intro t s s' result ran
      obtain ⟨_, _, taken, ran⟩ := runs_perform_inv ran
      obtain ⟨free, rfl⟩ := exec_lock_inv taken
      obtain ⟨dup, mid, checked, ran⟩ := runs_bind_inv ran
      rw [reads_unchanged (dupCheck_reads k _ rec) checked] at ran
      by_cases isDup : dup = true
      · rw [if_pos isDup] at ran
        obtain ⟨_, _, released, ran⟩ := runs_perform_inv ran
        cases released
        obtain ⟨rfl, rfl⟩ := runs_pure_inv ran
        rw [setOwner_release free]
        exact Relinked.refl s
      · rw [if_neg isDup] at ran
        obtain ⟨_, mid, linked, ran⟩ := runs_bind_inv ran
        obtain ⟨_, _, released, ran⟩ := runs_perform_inv ran
        cases released
        exact ((chainLink_relinks k _ idx _ _ _ _ linked).release free).trans (ih _ _ _ _ ran)

theorem insertRollback_relinks (rec : Rec n) (idx k : Nat) :
    Relinks (insertRollback D rec idx k) := by
  induction k with
  | zero => exact .of_reads (.ret _)
  | succ k ih => exact (chainUnlink_relinks k _ idx).locked fun _ => ih

theorem unlinkKeys_relinks (img : Rec n) (idx : Nat) (keys : List Nat) :
    Relinks (n := n) (forEach keys fun k => do
      let b := fmCoreKeyBucket (D.keydef k) img
      perform (.lock (.bucket k b))
      let _ ← fmCoreChainUnlink k b idx
      perform (.unlock (.bucket k b))) := by
  refine .forEach fun k _ => ?_
  exact (chainUnlink_relinks k _ idx).locked fun _ => .of_reads (.ret ())

theorem clearBuckets_relinks : Relinks (clearBuckets D) := by
  refine .forEach fun k _ => .forEach fun b _ => ?_
  have stores : Relinks (perform (.storeCell (.head k b) none) : CoreProg n Unit) := by
    intro t s s' result ran
    obtain ⟨_, rfl⟩ := Exec.deterministic ran (Exec.perform rfl)
    exact Relinked.setCell s (.head k b) trivial none
  exact stores.locked fun _ => .of_reads (.ret ())

/-! ### Whole calls -/

section Calls

variable {idx : Nat} {g : UInt32}

def liveAt (s : Core n) (idx : Nat) (g : UInt32) : Prop :=
  (s.slot idx).state = .active ∧ (s.slot idx).gen = g

instance (s : Core n) (idx : Nat) (g : UInt32) : Decidable (liveAt s idx g) :=
  inferInstanceAs (Decidable (_ ∧ _))

theorem slotStale_inv {stale : Bool} (ran : Runs t (slotStale idx g) s stale s') :
    stale = !decide (liveAt s idx g) ∧ s' = s :=
  Exec.deterministic ran (slotStale_runs s idx g)

theorem slotStale_refuses (stale : ¬ liveAt s idx g) : Runs t (slotStale idx g) s true s := by
  have tested := slotStale_runs (t := t) s idx g
  rwa [show (!decide ((s.slot idx).state = .active ∧ (s.slot idx).gen = g)) = true by
    rw [Bool.not_eq_true', decide_eq_false_iff_not]
    exact stale] at tested

theorem slotStale_accepts (live : liveAt s idx g) : Runs t (slotStale idx g) s false s := by
  have tested := slotStale_runs (t := t) s idx g
  rwa [show (!decide ((s.slot idx).state = .active ∧ (s.slot idx).gen = g)) = false by
    rw [Bool.not_eq_false', decide_eq_true_eq]
    exact live] at tested

def UpdateFrame (s : Core n) (idx : Nat) (new : Rec n) (result : Except Err Unit)
    (s' : Core n) : Prop :=
  match result with
  | .ok _ => Relinked (s.setSlot idx ((s.slot idx).rewritten new)) s'
  | .error _ => s' = s

theorem writeImage_inv {rec : Rec n} {result : Unit}
    (ran : Runs t (fmCoreWriteImage gran idx rec) s result s') :
    s' = s.setSlot idx ((s.slot idx).rewritten rec) :=
  (Exec.deterministic ran (writeImage_runs rec)).2

theorem commit_inv {old new : Rec n} {changed : List Nat} {rest : CoreProg n α} {answer : α}
    (ran : Runs t (do
        fmCoreWriteImage gran idx new
        relinkChanged D old new idx changed
        rest) s answer s') :
    ∃ mid, Relinked (s.setSlot idx ((s.slot idx).rewritten new)) mid ∧
      Runs t rest mid answer s' := by
  obtain ⟨_, _, written, ran⟩ := runs_bind_inv ran
  obtain rfl := writeImage_inv written
  obtain ⟨_, mid, relinked, ran⟩ := runs_bind_inv ran
  exact ⟨mid, relinkChanged_relinks old new idx changed _ _ _ _ relinked, ran⟩

theorem lockBuckets_inv {pairs : List (Nat × Nat)} {result : Unit} (distinct : pairs.Nodup)
    (free : ∀ k b, s.owner (.bucket k b) = none)
    (ran : Runs t (lockBuckets pairs) s result s') :
    s' = { s with owner := holdBuckets t pairs s.owner } :=
  (Exec.deterministic ran (lockBuckets_runs pairs s distinct free)).2

theorem unlockBuckets_inv {pairs : List (Nat × Nat)} {result : Unit}
    (free : ∀ k b, s.owner (.bucket k b) = none)
    (ran : Runs t (unlockBuckets pairs) { s with owner := holdBuckets t pairs s.owner } result s') :
    s' = s :=
  (Exec.deterministic ran (unlockBuckets_runs pairs s free)).2

theorem updateRowLocked_inv {old new : Rec n} {result : Except Err Unit}
    (free : ∀ k b, s.owner (.bucket k b) = none)
    (ran : Runs t (fmCoreUpdateRowLocked D gran idx g old new) s result s') :
    (¬ liveAt s idx g ∧ result = .error .deleted ∨
      liveAt s idx g ∧ (result = .ok () ∨ ∃ errkey, result = .error (.dupKey errkey))) ∧
      UpdateFrame s idx new result s' := by
  obtain ⟨stale, _, tested, ran⟩ := runs_bind_inv ran
  obtain ⟨rfl, same⟩ := slotStale_inv tested
  rw [same] at ran
  by_cases live : liveAt s idx g
  · simp only [live, decide_true, Bool.not_true, Bool.false_eq_true, if_false] at ran
    by_cases unchanged : changedKeys D old new = []
    · rw [if_pos unchanged] at ran
      obtain ⟨_, _, written, ran⟩ := runs_bind_inv ran
      obtain rfl := writeImage_inv written
      obtain ⟨rfl, rfl⟩ := runs_pure_inv ran
      exact ⟨Or.inr ⟨live, Or.inl rfl⟩, Relinked.refl _⟩
    · rw [if_neg unchanged] at ran
      obtain ⟨_, _, locked, ran⟩ := runs_bind_inv ran
      obtain rfl := lockBuckets_inv (lockset_nodup ..) free locked
      obtain ⟨dup, _, checked, ran⟩ := runs_bind_inv ran
      rw [reads_unchanged (dupCheckChanged_reads new _) checked] at ran
      cases dup with
      | some k =>
          obtain ⟨_, _, unlocked, ran⟩ := runs_bind_inv ran
          rw [unlockBuckets_inv free unlocked] at ran
          obtain ⟨rfl, rfl⟩ := runs_pure_inv ran
          exact ⟨Or.inr ⟨live, Or.inr ⟨_, rfl⟩⟩, rfl⟩
      | none =>
          obtain ⟨_, ⟨cell, rfl, same⟩, ran⟩ := commit_inv ran
          obtain ⟨_, _, unlocked, ran⟩ := runs_bind_inv ran
          rw [unlockBuckets_inv (s := { s.setSlot idx ((s.slot idx).rewritten new) with
            cell := cell }) free unlocked] at ran
          obtain ⟨rfl, rfl⟩ := runs_pure_inv ran
          exact ⟨Or.inr ⟨live, Or.inl rfl⟩, cell, rfl, same⟩
  · simp only [live, decide_false, Bool.not_false, if_true] at ran
    obtain ⟨rfl, rfl⟩ := runs_pure_inv ran
    exact ⟨Or.inl ⟨live, rfl⟩, rfl⟩

theorem guardedCommit_inv (old : Rec n) {new : Rec n} (changed : List Nat)
    {refuse accept : CoreProg n α} {answer : α}
    (ran : Runs t (do
        perform (.lock (.wlock idx))
        let stale ← slotStale idx g
        if stale then
          perform (.unlock (.wlock idx))
          refuse
        else
          fmCoreWriteImage gran idx new
          relinkChanged D old new idx changed
          perform (.unlock (.wlock idx))
          accept) s answer s') :
    (¬ liveAt s idx g ∧ Runs t refuse s answer s') ∨
      (liveAt s idx g ∧ ∃ mid, Relinked (s.setSlot idx ((s.slot idx).rewritten new)) mid ∧
        Runs t accept mid answer s') := by
  obtain ⟨_, _, taken, ran⟩ := runs_perform_inv ran
  obtain ⟨free, rfl⟩ := exec_lock_inv taken
  obtain ⟨stale, _, tested, ran⟩ := runs_bind_inv ran
  obtain ⟨rfl, same⟩ := slotStale_inv tested
  rw [same] at ran
  by_cases live : liveAt s idx g
  · have liveStill : liveAt (s.setOwner (.wlock idx) (some t)) idx g := live
    simp only [liveStill, decide_true, Bool.not_true, Bool.false_eq_true, if_false] at ran
    obtain ⟨_, ⟨cell, rfl, same⟩, ran⟩ := commit_inv ran
    obtain ⟨_, _, released, ran⟩ := runs_perform_inv ran
    cases released
    refine Or.inr ⟨live, _, ⟨cell, rfl, same⟩, ?_⟩
    rw [← release_cell (s := s.setSlot idx ((s.slot idx).rewritten new)) free]
    exact ran
  · have staleStill : ¬ liveAt (s.setOwner (.wlock idx) (some t)) idx g := live
    simp only [staleStill, decide_false, Bool.not_false, if_true] at ran
    obtain ⟨_, _, released, ran⟩ := runs_perform_inv ran
    cases released
    refine Or.inl ⟨live, ?_⟩
    rw [← setOwner_release free]
    exact ran

theorem updateRow_inv {old new : Rec n} {result : Except Err Unit} (quiet : Quiet s)
    (ran : Runs t (fmCoreUpdateRow D gran idx g old new) s result s') :
    (∀ value, result = .ok value → liveAt s idx g) ∧ UpdateFrame s idx new result s' := by
  have free : ∀ k b, s.owner (.bucket k b) = none := fun k b => quiet _
  unfold fmCoreUpdateRow at ran
  by_cases unchanged : changedKeys D old new = []
  · rw [if_pos unchanged] at ran
    rcases guardedCommit_inv (D := D) old [] ran with
      ⟨_, ran⟩ | ⟨live, _, relinked, ran⟩
    · obtain ⟨rfl, rfl⟩ := runs_pure_inv ran
      exact ⟨by simp, rfl⟩
    · obtain ⟨rfl, rfl⟩ := runs_pure_inv ran
      exact ⟨fun _ _ => live, relinked⟩
  · rw [if_neg unchanged] at ran
    obtain ⟨_, _, locked, ran⟩ := runs_bind_inv ran
    obtain rfl := lockBuckets_inv (lockset_nodup ..) free locked
    obtain ⟨dup, _, checked, ran⟩ := runs_bind_inv ran
    rw [reads_unchanged (dupCheckChanged_reads new _) checked] at ran
    cases dup with
    | some k =>
        obtain ⟨_, _, unlocked, ran⟩ := runs_bind_inv ran
        rw [unlockBuckets_inv free unlocked] at ran
        obtain ⟨rfl, rfl⟩ := runs_pure_inv ran
        exact ⟨by simp, rfl⟩
    | none =>
        rcases guardedCommit_inv old _ ran with ⟨_, ran⟩ | ⟨live, _, ⟨cell, rfl, same⟩, ran⟩
        · obtain ⟨_, _, unlocked, ran⟩ := runs_bind_inv ran
          rw [unlockBuckets_inv free unlocked] at ran
          obtain ⟨rfl, rfl⟩ := runs_pure_inv ran
          exact ⟨by simp, rfl⟩
        · obtain ⟨_, _, unlocked, ran⟩ := runs_bind_inv ran
          rw [unlockBuckets_inv (s := { s.setSlot idx ((s.slot idx).rewritten new) with
            cell := cell }) free unlocked] at ran
          obtain ⟨rfl, rfl⟩ := runs_pure_inv ran
          exact ⟨fun _ _ => live, cell, rfl, same⟩

def pushFree (cell : Cell → Option Nat) (idx : Nat) : Cell → Option Nat :=
  Function.update (Function.update cell (.freeNext idx) (cell .freeHead)) .freeHead (some idx)

theorem freeSlot_inv {result : Unit} (ran : Runs t (fmCoreFreeSlot idx) s result s') :
    s' = { s with cell := pushFree s.cell idx } :=
  (Exec.deterministic ran freeSlot_runs).2

theorem retire_inv {result : Except Err Unit}
    (ran : Runs t (do
        perform (.storeState idx .deleted)
        perform (.bumpGen idx)
        perform (.addRecords (-1))
        perform (.lock .structMutex)
        fmCoreFreeSlot idx
        perform (.unlock .structMutex)
        return .ok ()) s result s') :
    result = .ok () ∧ s' = { s.setSlot idx (s.slot idx).retired with
      cell := pushFree s.cell idx, records := s.records + -1 } := by
  obtain ⟨_, _, flipped, ran⟩ := runs_perform_inv ran
  obtain ⟨_, _, bumped, ran⟩ := runs_perform_inv ran
  obtain ⟨_, _, counted, ran⟩ := runs_perform_inv ran
  obtain ⟨_, _, taken, ran⟩ := runs_perform_inv ran
  obtain ⟨free, rfl⟩ := exec_lock_inv taken
  obtain ⟨_, _, freed, ran⟩ := runs_bind_inv ran
  obtain rfl := freeSlot_inv freed
  obtain ⟨_, _, released, ran⟩ := runs_perform_inv ran
  cases released
  obtain ⟨rfl, rfl⟩ := runs_pure_inv ran
  rw [release_cell free]
  cases flipped
  cases bumped
  cases counted
  simp [Core.setSlot, Core.setOwner, Slot.retired]

theorem deleteTail_inv {result : Except Err Unit} (ran : Runs t (deleteTail D gran idx) s result s') :
    result = .ok () ∧ ∃ cell, SameFree s.cell cell ∧
      s' = { s.setSlot idx (s.slot idx).retired with
        cell := pushFree cell idx, records := s.records + -1 } := by
  obtain ⟨scratch, _, copied, ran⟩ := runs_bind_inv ran
  rw [reads_unchanged (memcpyOut_reads idx) copied] at ran
  obtain ⟨_, _, unlinked, ran⟩ := runs_bind_inv ran
  obtain ⟨cell, rfl, same⟩ := unlinkKeys_relinks scratch idx _ _ _ _ _ unlinked
  obtain ⟨rfl, rfl⟩ := retire_inv ran
  exact ⟨rfl, cell, same, rfl⟩

def DeleteFrame (s : Core n) (idx : Nat) (g : UInt32) (result : Except Err Unit)
    (s' : Core n) : Prop :=
  match result with
  | .ok _ => liveAt s idx g ∧ ∃ cell, SameFree s.cell cell ∧
      s' = { s.setSlot idx (s.slot idx).retired with
        cell := pushFree cell idx, records := s.records + -1 }
  | .error e => e = .deleted ∧ ¬ liveAt s idx g ∧ s' = s

theorem deleteRowLocked_inv {result : Except Err Unit}
    (ran : Runs t (fmCoreDeleteRowLocked D gran idx g) s result s') :
    DeleteFrame s idx g result s' := by
  obtain ⟨stale, _, tested, ran⟩ := runs_bind_inv ran
  obtain ⟨rfl, same⟩ := slotStale_inv tested
  rw [same] at ran
  by_cases live : liveAt s idx g
  · simp only [live, decide_true, Bool.not_true, Bool.false_eq_true, if_false] at ran
    obtain ⟨_, _, flipped, ran⟩ := runs_perform_inv ran
    cases flipped
    obtain ⟨rfl, cell, same, rfl⟩ := deleteTail_inv ran
    refine ⟨live, cell, same, ?_⟩
    simp [Core.setSlot, Slot.retired]
  · simp only [live, decide_false, Bool.not_false, if_true] at ran
    obtain ⟨rfl, rfl⟩ := runs_pure_inv ran
    exact ⟨rfl, live, rfl⟩

theorem deleteRow_inv {result : Except Err Unit}
    (ran : Runs t (fmCoreDeleteRow D gran idx g) s result s') :
    DeleteFrame s idx g result s' := by
  obtain ⟨_, _, taken, ran⟩ := runs_perform_inv ran
  obtain ⟨free, rfl⟩ := exec_lock_inv taken
  obtain ⟨stale, _, tested, ran⟩ := runs_bind_inv ran
  obtain ⟨rfl, same⟩ := slotStale_inv tested
  rw [same] at ran
  by_cases live : liveAt s idx g
  · have liveStill : liveAt (s.setOwner (.wlock idx) (some t)) idx g := live
    simp only [liveStill, decide_true, Bool.not_true, Bool.false_eq_true, if_false] at ran
    obtain ⟨_, _, flipped, ran⟩ := runs_perform_inv ran
    cases flipped
    obtain ⟨_, _, released, ran⟩ := runs_perform_inv ran
    cases released
    have back : ((s.setOwner (.wlock idx) (some t)).setSlot idx
        { s.slot idx with state := .deleting }).setOwner (.wlock idx) none =
        s.setSlot idx { s.slot idx with state := .deleting } :=
      setOwner_release (s := s.setSlot idx { s.slot idx with state := .deleting }) free
    obtain ⟨rfl, cell, same, rfl⟩ := deleteTail_inv (back ▸ ran)
    refine ⟨live, cell, same, ?_⟩
    simp [Core.setSlot, Slot.retired]
  · have staleStill : ¬ liveAt (s.setOwner (.wlock idx) (some t)) idx g := live
    simp only [staleStill, decide_false, Bool.not_false, if_true] at ran
    obtain ⟨_, _, released, ran⟩ := runs_perform_inv ran
    cases released
    obtain ⟨rfl, rfl⟩ := runs_pure_inv ran
    exact ⟨rfl, live, setOwner_release free⟩

theorem clear_inv {result : Unit} (unlocked : ∀ i, s.owner (.wlock i) = none)
    (ran : Runs t (fmCoreClear D) s result s') :
    ∃ cell, FreeList cell (List.range s.slotCount).reverse ∧
      s' = { s with
        slot := fun i => if i < s.slotCount then (s.slot i).cleared else s.slot i
        cell := cell
        records := 0 } := by
  obtain ⟨_, _, taken, ran⟩ := runs_perform_inv ran
  obtain ⟨free, rfl⟩ := exec_lock_inv taken
  obtain ⟨_, _, emptied, ran⟩ := runs_bind_inv ran
  obtain ⟨chained, rfl, _⟩ := clearBuckets_relinks _ _ _ _ emptied
  obtain ⟨_, _, loaded, ran⟩ := runs_perform_inv ran
  cases loaded
  obtain ⟨_, _, swept, ran⟩ := runs_bind_inv ran
  have slotsFree : ∀ i, (s.setOwner .structMutex (some t)).owner (.wlock i) = none := fun i =>
    (owner_setOwner_of_ne (by simp)).trans (unlocked i)
  obtain ⟨_, rfl⟩ := Exec.deterministic swept (clearSlots_runs _ _ slotsFree)
  obtain ⟨_, _, dropped, ran⟩ := runs_perform_inv ran
  cases dropped
  obtain ⟨_, _, rebuilt, ran⟩ := runs_bind_inv ran
  have nothingFree : FreeList (Function.update chained .freeHead none) [] :=
    Function.update_self ..
  obtain ⟨cell, freed, freelist, _⟩ := freeSlots_freed (t := t) (List.range s.slotCount)
    (({ s.setOwner .structMutex (some t) with
      slot := fun i => if i < s.slotCount then (s.slot i).cleared else s.slot i
      cell := chained } : Core n).setCell .freeHead none) nothingFree List.nodup_range (by simp)
  obtain ⟨_, rfl⟩ := Exec.deterministic rebuilt freed
  obtain ⟨_, _, counted, ran⟩ := runs_perform_inv ran
  cases counted
  obtain ⟨_, rfl⟩ := Exec.deterministic ran (Exec.perform rfl)
  rw [List.append_nil] at freelist
  refine ⟨cell, freelist, ?_⟩
  exact setOwner_release (s := { s with
    slot := fun i => if i < s.slotCount then (s.slot i).cleared else s.slot i
    cell := cell
    records := 0 }) free

def InsertFrame (D : ShareDef n) (rec : Rec n) (slot : Option Nat) (mid : Core n)
    (result : Except Err Nat) (s' : Core n) : Prop :=
  match slot with
  | none => result = .error (if D.chunkCap ≤ mid.chunkCnt then .full else .nomem) ∧ s' = mid
  | some idx => ∃ cell, SameFree mid.cell cell ∧
      ((∃ errkey, result = .error (.dupKey errkey)) ∧
          s' = { mid.setSlot idx ((mid.slot idx).withData rec) with cell := pushFree cell idx } ∨
        result = .ok idx ∧
          s' = { mid.setSlot idx { (mid.slot idx).withData rec with state := .active } with
            cell := cell
            records := mid.records + 1 })

theorem insertRow_inv {rec : Rec n} {result : Except Err Nat}
    (ran : Runs t (fmCoreInsertRow D gran rec) s result s') :
    s.owner .structMutex = none ∧ ∃ slot mid,
      Runs t (fmCoreAllocSlot D) (s.setOwner .structMutex (some t)) slot mid ∧
      InsertFrame D rec slot (mid.setOwner .structMutex none) result s' := by
  obtain ⟨_, _, taken, ran⟩ := runs_perform_inv ran
  obtain ⟨free, rfl⟩ := exec_lock_inv taken
  obtain ⟨slot, mid, allocated, ran⟩ := runs_bind_inv ran
  refine ⟨free, slot, mid, allocated, ?_⟩
  cases slot with
  | none =>
      obtain ⟨_, _, released, ran⟩ := runs_perform_inv ran
      cases released
      obtain ⟨_, _, loaded, ran⟩ := runs_perform_inv ran
      cases loaded
      exact runs_pure_inv ran
  | some idx =>
      obtain ⟨_, _, copied, ran⟩ := runs_bind_inv ran
      obtain ⟨_, rfl⟩ := Exec.deterministic copied (memcpyIn_runs rec)
      obtain ⟨dup, _, linked, ran⟩ := runs_bind_inv ran
      obtain ⟨cell, rfl, same⟩ := insertLinkKeys_relinks rec idx _ _ _ _ _ linked
      cases dup with
      | some k =>
          obtain ⟨left, _, undone, ran⟩ := runs_bind_inv ran
          obtain ⟨cell', rfl, same'⟩ := insertRollback_relinks rec idx k _ _ _ _ undone
          obtain ⟨_, _, freed, ran⟩ := runs_bind_inv ran
          obtain rfl := freeSlot_inv freed
          obtain ⟨_, _, released, ran⟩ := runs_perform_inv ran
          cases released
          obtain ⟨rfl, rfl⟩ := runs_pure_inv ran
          exact ⟨cell', same.trans same', Or.inl ⟨⟨_, rfl⟩, rfl⟩⟩
      | none =>
          obtain ⟨_, _, published, ran⟩ := runs_perform_inv ran
          obtain ⟨_, _, counted, ran⟩ := runs_perform_inv ran
          obtain ⟨_, _, released, ran⟩ := runs_perform_inv ran
          cases released
          obtain ⟨rfl, rfl⟩ := runs_pure_inv ran
          cases published
          cases counted
          refine ⟨cell, same, Or.inr ⟨rfl, ?_⟩⟩
          simp [Core.setSlot, Core.setOwner, Slot.withData]

end Calls

end Fastmem
