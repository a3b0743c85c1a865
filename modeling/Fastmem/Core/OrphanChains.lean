/-
Key-changing updates with a stale old record.

An update unlinks its slot from the bucket of the old record it was given and
links it into the bucket of the new one. If the row has moved in between, the
unlink misses and the slot stays in the chain it is in: an orphan node. All
chains of a key share the one link cell of the slot, so the link that follows
sends the old chain to the rows of the new bucket, and the rows that were behind
the slot leave it. `Harmless` says when nothing is lost that way.
-/

import Fastmem.Core.LockedPaths

set_option autoImplicit false

namespace Fastmem

open Prog (perform iterate forEach foldEach Performs)
open Machine

variable {n : Nat} {t : Nat} {s : Core n} {D : ShareDef n} {gran : Gran} {idx : Nat}

/-! ### One key -/

/-- No row is missing from the chains `after` that was in the chains `before`, other than
from behind the slot in a chain that is not the one of bucket `bold`. -/
structure KeptChains (before after : Nat → List Nat) (idx bold bnew : Nat) : Prop where
  linked : idx ∈ after bnew
  kept : ∀ b i, i ∈ before b → i ≠ idx → i ∈ after b ∨
    (b ≠ bold ∧ ∃ front behind, before b = front ++ idx :: behind ∧ i ∈ behind)

/-- The chains of a key after the slot was unlinked from one bucket, if it was there. -/
structure Unlinked (before after : Nat → List Nat) (idx bold : Nat) : Prop where
  gone : idx ∉ after bold
  inside : ∀ b i, i ∈ after b → i ∈ before b
  all : ∀ b i, i ∈ before b → i ≠ idx → i ∈ after b
  behind : ∀ b front rest, after b = front ++ idx :: rest →
    ∃ front' rest', before b = front' ++ idx :: rest' ∧ ∀ i ∈ rest, i ∈ rest'

theorem chainUnlink_orphan {chain : ChainLists} (k bold idx : Nat)
    (threaded : ∀ k b, Threaded s.cell (Cell.next k) (.head k b) (chain k b)) :
    ∃ (result : Except Err Unit) (cell : Cell → Option Nat) (chain' : ChainLists),
      Runs t (fmCoreChainUnlink k bold idx) s result { s with cell := cell } ∧
      (∀ k b, Threaded cell (Cell.next k) (.head k b) (chain' k b)) ∧
      (∀ k', k' ≠ k → chain' k' = chain k') ∧ Unlinked (chain k) (chain' k) idx bold := by
  by_cases member : idx ∈ chain k bold
  · obtain ⟨before, after, split⟩ := List.append_of_mem member
    have here := threaded k bold
    rw [split] at here
    have distinct := List.nodup_append.mp here.nodup
    have notBefore : idx ∉ before := fun inBefore =>
      distinct.2.2 idx inBefore idx (List.mem_cons_self ..) rfl
    have notAfter : idx ∉ after := (List.nodup_cons.mp distinct.2.1).1
    let at_ := cellAfter (Cell.next k) (.head k bold) before
    have stored : at_ = .head k bold ∨ ∃ last ∈ before, at_ = .next k last := by
      cases before with
      | nil => exact .inl rfl
      | cons first rest => exact .inr (cellAfter_mem (Cell.next k) first rest)
    have points : s.cell at_ = some idx := here.suffix.1
    have notOwn : at_ ≠ .next k idx := by
      rcases stored with atHead | ⟨last, inBefore, atLast⟩
      · rw [atHead]
        exact head_outside k bold idx
      · rw [atLast]
        intro clash
        exact notBefore (next_injective k clash ▸ inBefore)
    have foreign : ∀ k', k' ≠ k → (∀ b, at_ ≠ .head k' b) ∧ ∀ i, at_ ≠ .next k' i := by
      intro k' different
      rcases stored with atHead | ⟨last, _, atLast⟩
      · rw [atHead]
        simp [different.symm]
      · rw [atLast]
        simp [different.symm]
    -- every list of the key loses the slot or stays, whichever cell points to it
    have bypassed := fun b => (threaded k b).bypass points notOwn
    choose kept threaded' inside all using bypassed
    refine ⟨_, _, Function.update chain k kept, unlinkWalk_finds here notBefore, ?_, ?_, ?_⟩
    · intro k' b
      by_cases same : k' = k
      · subst same
        rw [Function.update_self]
        exact threaded' b
      · rw [Function.update_of_ne same]
        exact (threaded k' b).store ((foreign k' same).1 b) fun i _ => (foreign k' same).2 i
    · intro k' different
      exact Function.update_of_ne different ..
    · rw [Function.update_self]
      refine ⟨?_, inside, all, ?_⟩
      · have removed : kept bold = before ++ after :=
          (threaded' bold).unique (here.unlink (next_injective k) (head_outside k bold))
        rw [removed, List.mem_append]
        rintro (inBefore | inAfter)
        · exact notBefore inBefore
        · exact notAfter inAfter
      · intro b front rest isSplit
        have passes := threaded' b
        rw [isSplit] at passes
        have inOld : idx ∈ chain k b := inside b idx (by rw [isSplit]; simp)
        obtain ⟨front', rest', split'⟩ := List.append_of_mem inOld
        have old := threaded k b
        rw [split'] at old
        obtain ⟨tail, threadedTail, inTail, _⟩ :=
          (show Threaded s.cell (Cell.next k) (.next k idx) rest' from old.suffix.2).bypass
            points notOwn
        have same : rest = tail :=
          (show Threaded _ (Cell.next k) (.next k idx) rest from passes.suffix.2).unique threadedTail
        exact ⟨front', rest', split', fun i member => inTail i (same ▸ member)⟩
  · refine ⟨_, s.cell, chain, unlinkWalk_misses (threaded k bold) member, threaded,
      fun _ _ => rfl, member, fun _ _ inside => inside, fun _ _ inside _ => inside, ?_⟩
    exact fun b front rest split => ⟨front, rest, split, fun _ member => member⟩

theorem chainLink_orphan {k bnew : Nat} {chain : ChainLists}
    (threaded : ∀ k b, Threaded s.cell (Cell.next k) (.head k b) (chain k b))
    (loose : idx ∉ chain k bnew) :
    ∃ (cell : Cell → Option Nat) (chain' : ChainLists),
      Runs t (fmCoreChainLink k bnew idx) s () { s with cell := cell } ∧
      (∀ k b, Threaded cell (Cell.next k) (.head k b) (chain' k b)) ∧
      (∀ k', k' ≠ k → chain' k' = chain k') ∧ idx ∈ chain' k bnew ∧
      ∀ b i, i ∈ chain k b → i ∈ chain' k b ∨
        ∃ front rest, chain k b = front ++ idx :: rest ∧ i ∈ rest := by
  let linked := Function.update s.cell (.next k idx) (s.cell (.head k bnew))
  have target : Threaded linked (Cell.next k) (.head k bnew) (chain k bnew) :=
    (threaded k bnew).store (Ne.symm (head_outside k bnew idx)) fun i member clash =>
      loose (next_injective k clash ▸ member)
  have follows : Threaded linked (Cell.next k) (.next k idx) (chain k bnew) :=
    target.restart (by
      rw [show linked (.next k idx) = s.cell (.head k bnew) from Function.update_self ..]
      exact (Function.update_of_ne (head_outside k bnew idx) ..).symm)
  -- the other chains of the key, each with what the slot now leads to
  have redirected : ∀ b, b ≠ bnew → ∃ items, Threaded linked (Cell.next k) (.head k b) items ∧
      ∀ i ∈ chain k b, i ∈ items ∨ ∃ front rest, chain k b = front ++ idx :: rest ∧ i ∈ rest := by
    intro b _
    by_cases member : idx ∈ chain k b
    · obtain ⟨front, rest, split⟩ := List.append_of_mem member
      have here := threaded k b
      rw [split, List.append_cons] at here
      have last := cellAfter_append (Cell.next k) (.head k b) front idx
      refine ⟨front ++ [idx] ++ chain k bnew, ?_, ?_⟩
      · have target : Threaded (Function.update s.cell
            (cellAfter (Cell.next k) (.head k b) (front ++ [idx])) (s.cell (.head k bnew)))
            (Cell.next k) (cellAfter (Cell.next k) (.head k b) (front ++ [idx])) (chain k bnew) := by
          rw [last]
          exact follows
        have spliced := here.splice (next_injective k) (fun i _ => head_outside k b i) target
        rwa [last] at spliced
      · intro i inChain
        rw [split, List.append_cons, List.mem_append] at inChain
        rcases inChain with inFront | inRest
        · exact .inl (List.mem_append_left _ inFront)
        · exact .inr ⟨front, rest, split, inRest⟩
    · refine ⟨chain k b, (threaded k b).store (Ne.symm (head_outside k b idx)) ?_,
        fun i inChain => .inl inChain⟩
      intro i inChain clash
      exact member (next_injective k clash ▸ inChain)
  choose! others threadedOthers kept using redirected
  let chains : Nat → List Nat := fun b => if b = bnew then idx :: chain k bnew else others b
  refine ⟨_, Function.update chain k chains, chainLink_runs, ?_, fun k' different =>
    Function.update_of_ne different .., ?_, ?_⟩
  · intro k' b
    change Threaded (Function.update linked (.head k bnew) (some idx)) _ _ _
    by_cases same : k' = k
    · subst same
      rw [Function.update_self]
      by_cases isNew : b = bnew
      · subst isNew
        rw [show chains b = idx :: chain k' b from if_pos rfl]
        exact (threaded k' b).push loose (next_injective k') (head_outside k' b)
      · rw [show chains b = others b from if_neg isNew]
        refine (threadedOthers b isNew).store ?_ fun i _ => head_outside k' bnew i
        simpa using Ne.symm isNew
    · rw [Function.update_of_ne same]
      refine ((threaded k' b).store (by simp) fun i _ => ?_).store ?_ fun i _ => by simp
      · simp [Ne.symm same]
      · simp [Ne.symm same]
  · rw [Function.update_self]
    rw [show chains bnew = idx :: chain k bnew from if_pos rfl]
    exact List.mem_cons_self ..
  · intro b i member
    rw [Function.update_self]
    by_cases isNew : b = bnew
    · subst isNew
      rw [show chains b = idx :: chain k b from if_pos rfl]
      exact .inl (List.mem_cons_of_mem idx member)
    · rw [show chains b = others b from if_neg isNew]
      exact kept b isNew i member

theorem relinkKey_orphan {k bold bnew : Nat} {chain : ChainLists}
    (threaded : ∀ k b, Threaded s.cell (Cell.next k) (.head k b) (chain k b))
    (noReturn : idx ∈ chain k bnew → bnew = bold) :
    ∃ (cell : Cell → Option Nat) (chain' : ChainLists),
      Runs t (do
        let _ ← fmCoreChainUnlink k bold idx
        fmCoreChainLink k bnew idx) s () { s with cell := cell } ∧
      (∀ k b, Threaded cell (Cell.next k) (.head k b) (chain' k b)) ∧
      (∀ k', k' ≠ k → chain' k' = chain k') ∧
      KeptChains (chain k) (chain' k) idx bold bnew := by
  obtain ⟨result, cell₁, chain₁, ran₁, threaded₁, other₁, unlinked⟩ :=
    chainUnlink_orphan (t := t) k bold idx threaded
  have loose : idx ∉ chain₁ k bnew := by
    intro member
    obtain rfl := noReturn (unlinked.inside bnew idx member)
    exact unlinked.gone member
  obtain ⟨cell₂, chain₂, ran₂, threaded₂, other₂, linked, kept⟩ :=
    chainLink_orphan (t := t) (s := { s with cell := cell₁ }) threaded₁ loose
  refine ⟨cell₂, chain₂, runs_bind ran₁ ran₂, threaded₂, fun k' different =>
    (other₂ k' different).trans (other₁ k' different), linked, ?_⟩
  intro b i member different
  rcases kept b i (unlinked.all b i member different) with stays | ⟨front, rest, split, lost⟩
  · exact .inl stays
  · obtain ⟨front', rest', split', behind⟩ := unlinked.behind b front rest split
    refine .inr ⟨?_, front', rest', split', behind i lost⟩
    rintro rfl
    exact unlinked.gone (by rw [split]; simp)

/-! ### All keys of an update -/

theorem relinkChanged_orphan (old new : Rec n) (changed : List Nat) (s : Core n)
    (chain : ChainLists) (distinct : changed.Nodup)
    (threaded : ∀ k b, Threaded s.cell (Cell.next k) (.head k b) (chain k b))
    (noReturn : ∀ k ∈ changed, idx ∈ chain k (fmCoreKeyBucket (D.keydef k) new) →
      fmCoreKeyBucket (D.keydef k) new = fmCoreKeyBucket (D.keydef k) old) :
    ∃ (cell : Cell → Option Nat) (chain' : ChainLists),
      Runs t (relinkChanged D old new idx changed) s () { s with cell := cell } ∧
      (∀ k b, Threaded cell (Cell.next k) (.head k b) (chain' k b)) ∧
      (∀ k, k ∉ changed → chain' k = chain k) ∧
      ∀ k ∈ changed, KeptChains (chain k) (chain' k) idx
        (fmCoreKeyBucket (D.keydef k) old) (fmCoreKeyBucket (D.keydef k) new) := by
  induction changed generalizing s chain with
  | nil =>
      exact ⟨s.cell, chain, runs_pure () s, threaded, fun _ _ => rfl,
        fun _ member => absurd member List.not_mem_nil⟩
  | cons k rest ih =>
      obtain ⟨notLater, distinctRest⟩ := List.nodup_cons.mp distinct
      obtain ⟨cell₁, chain₁, ran₁, threaded₁, other₁, kept₁⟩ := relinkKey_orphan (t := t)
        threaded (noReturn k (List.mem_cons_self ..))
      have earlier : ∀ k' ∈ rest, chain₁ k' = chain k' := by
        rintro k' member
        exact other₁ k' fun same => notLater (same ▸ member)
      obtain ⟨cell₂, chain₂, ran₂, threaded₂, other₂, kept₂⟩ :=
        ih { s with cell := cell₁ } chain₁ distinctRest threaded₁ (by
          intro k' member
          rw [earlier k' member]
          exact noReturn k' (List.mem_cons_of_mem k member))
      refine ⟨cell₂, chain₂, runs_bind ran₁ ran₂, threaded₂, ?_, ?_⟩
      · intro k' outside
        rw [List.mem_cons, not_or] at outside
        obtain ⟨different, notRest⟩ := outside
        rw [other₂ k' notRest, other₁ k' different]
      · intro k' member
        rcases List.mem_cons.mp member with rfl | later
        · rw [other₂ k' notLater]
          exact kept₁
        · rw [← earlier k' later]
          exact kept₂ k' later

/-! ### When a commit loses nothing -/

/-- Every chain is a finite list and holds the live rows of its bucket; no image is being
written. A slot may be in several chains. -/
structure Findable (D : ShareDef n) (s : Core n) : Prop where
  chained : ∃ chain : ChainLists,
    (∀ k b, Threaded s.cell (Cell.next k) (.head k b) (chain k b)) ∧
    ∀ k b i, homes D s k i = some b → i ∈ chain k b
  settled : ∀ i, (s.slot i).seq % 2 = 0

theorem Rep.findable (rep : Rep D s none) : Findable D s := by
  obtain ⟨chain, chains, members⟩ := rep.placed
  exact ⟨⟨chain, chains.threaded, fun k b i home => (members k b i).mpr home⟩, rep.settled⟩

theorem Findable.withOwner (found : Findable D s) (owner : Lock → Option Nat) :
    Findable D { s with owner := owner } :=
  ⟨found.chained, found.settled⟩

theorem Findable.find (found : Findable D s) {k i : Nat} {packed : PackedKey} (gran : Gran)
    (unlocked : ∀ b, s.owner (.bucket k b) = none) (valid : k < D.keys)
    (active : (s.slot i).state = .active)
    (equal : (D.keydef k).ops.cmpRecKey (s.slot i).data packed = 0)
    (hashed : fmBucket (D.keydef k) ((D.keydef k).ops.hashKey packed) =
      fmCoreKeyBucket (D.keydef k) (s.slot i).data) :
    ∃ j, Runs t (fmCoreFind D gran k packed) s (.ok (j, (s.slot j).data)) s ∧
      (s.slot j).state = .active ∧ (D.keydef k).ops.cmpRecKey (s.slot j).data packed = 0 := by
  obtain ⟨⟨chain, threaded, homed⟩, settled⟩ := found
  have looked : Runs t (fmCoreFind D gran k packed) s (findOutcome s
      (fun buf => (D.keydef k).ops.cmpRecKey buf packed = 0)
      (chain k (fmBucket (D.keydef k) ((D.keydef k).ops.hashKey packed)))) s :=
    find_runs (threaded k _) (fun i _ => settled i) (unlocked _)
  have member : i ∈ chain k (fmBucket (D.keydef k) ((D.keydef k).ops.hashKey packed)) := by
    rw [hashed]
    exact homed k _ i (if_pos ⟨valid, active⟩)
  have passed : passes s (fun buf => (D.keydef k).ops.cmpRecKey buf packed = 0) i = true := by
    simp [passes, active, equal]
  cases first : (chain k (fmBucket (D.keydef k) ((D.keydef k).ops.hashKey packed))).find?
      (passes s fun buf => (D.keydef k).ops.cmpRecKey buf packed = 0) with
  | none => exact absurd passed (List.find?_eq_none.mp first i member)
  | some j =>
      rw [findOutcome_some first] at looked
      have hit := List.find?_some first
      simp only [passes, Bool.and_eq_true, decide_eq_true_eq] at hit
      exact ⟨j, looked, hit.1, hit.2⟩

/-- Nothing is lost when an update with these records commits. Under a key it does not
change, the row is chained in the bucket of the new record. Under a key it changes, the row
is not yet chained in the new bucket, and no row that belongs to the chain of a third bucket
is behind it there. -/
structure Harmless (D : ShareDef n) (s : Core n) (idx : Nat) (old new : Rec n) : Prop where
  unchanged : ∀ k, k < D.keys → k ∉ changedKeys D old new →
    ∃ items, Threaded s.cell (Cell.next k) (.head k (fmCoreKeyBucket (D.keydef k) new)) items ∧
      idx ∈ items
  noReturn : ∀ k ∈ changedKeys D old new, ∀ items,
    Threaded s.cell (Cell.next k) (.head k (fmCoreKeyBucket (D.keydef k) new)) items →
    idx ∈ items → fmCoreKeyBucket (D.keydef k) new = fmCoreKeyBucket (D.keydef k) old
  behind : ∀ k ∈ changedKeys D old new, ∀ b, b ≠ fmCoreKeyBucket (D.keydef k) old →
    ∀ front rest, Threaded s.cell (Cell.next k) (.head k b) (front ++ idx :: rest) →
    ∀ i ∈ rest, homes D s k i ≠ some b

theorem Harmless.withOwner {old new : Rec n} (harmless : Harmless D s idx old new)
    (owner : Lock → Option Nat) : Harmless D { s with owner := owner } idx old new :=
  ⟨harmless.unchanged, harmless.noReturn, harmless.behind⟩

theorem commit_findable (gran : Gran) {old new : Rec n} (found : Findable D s)
    (active : (s.slot idx).state = .active) (harmless : Harmless D s idx old new) :
    ∃ s', Runs t (do
        fmCoreWriteImage gran idx new
        relinkChanged D old new idx (changedKeys D old new)) s () s' ∧ Findable D s' := by
  obtain ⟨⟨chain, threaded, homed⟩, settled⟩ := found
  have distinct : (changedKeys D old new).Nodup := changedKeys_nodup D old new
  obtain ⟨cell, chain', ran, threaded', same, kept⟩ := relinkChanged_orphan (t := t) (D := D) old new
    (changedKeys D old new) (s.setSlot idx ((s.slot idx).rewritten new)) chain distinct threaded
    fun k changed member => harmless.noReturn k changed _ (threaded k _) member
  refine ⟨_, runs_bind (writeImage_runs new) ran, ⟨chain', threaded', ?_⟩, fun i => ?_⟩
  swap
  · by_cases own : i = idx
    · subst own
      simpa [Core.setSlot, Slot.rewritten] using even_add_two (settled i)
    · simpa [Core.setSlot, Function.update_of_ne own] using settled i
  intro k b i home
  have valid : k < D.keys := by
    by_contra beyond
    rw [homes, if_neg fun both => beyond both.1] at home
    cases home
  by_cases own : i = idx
  · subst own
    have isNew : b = fmCoreKeyBucket (D.keydef k) new := by
      unfold homes at home
      rw [if_pos ⟨valid, by simp [Core.setSlot, Slot.rewritten, active]⟩] at home
      simpa [Core.setSlot, Slot.rewritten] using (Option.some.inj home).symm
    rw [isNew]
    by_cases changed : k ∈ changedKeys D old new
    · exact (kept k changed).linked
    · obtain ⟨items, chained, member⟩ := harmless.unchanged k valid changed
      rw [same k changed, (threaded k _).unique chained]
      exact member
  · have before : homes D s k i = some b := by
      simpa [homes, Core.setSlot, Function.update_of_ne own] using home
    have member := homed k b i before
    by_cases changed : k ∈ changedKeys D old new
    · rcases (kept k changed).kept b i member own with stays | ⟨different, front, rest, split, lost⟩
      · exact stays
      · have there := threaded k b
        rw [split] at there
        exact absurd before (harmless.behind k changed b different front rest there i lost)
    · rw [same k changed]
      exact member

end Fastmem
