/-
An insert that fails leaves no trace.

The keys are linked in ascending order and unlinked in descending order, so the
chains inside a failing insert are those before it with the new slot in front
under every key below some bound. A chunk that could not be completed gives all
its blocks back; one that could be stays, and its usable slots are free.
-/

import Fastmem.Core.TableRefinement
import Fastmem.Core.CallFrames

set_option autoImplicit false

namespace Fastmem

open Prog (perform iterate forEach foldEach)
open Machine

variable {n : Nat} {t : Nat} {s s' : Core n} {D : ShareDef n} {gran : Gran}

/-! ### The blocks of a chunk -/

def Chunk.Empty (c : Chunk) : Prop :=
  c.slots = false ∧ c.keyNext = false ∧ ∀ k, c.keyNextAt k = false

theorem deallocs_inv {items : List Nat} {result : Unit}
    (ran : Runs t (forEach items fun _ => perform .dealloc) s result s') :
    s' = { s with heap := { s.heap with live := s.heap.live - items.length } } := by
  induction items generalizing s with
  | nil => exact (runs_pure_inv ran).2
  | cons item rest ih =>
      obtain ⟨_, _, released, ran⟩ := runs_perform_inv ran
      cases released
      rw [ih ran, List.length_cons, Nat.sub_sub, Nat.add_comm 1]

/-- What a chunk that is being prepared takes and, where it is not completed, gives back.
`held` is the number of blocks it holds at the start. -/
structure Undone (c held : Nat) (complete : Bool) (s s' : Core n) : Prop where
  others : ∀ c', c' ≠ c → s'.chunk c' = s.chunk c'
  emptied : complete = false → (s'.chunk c).Empty
  released : complete = false → ∀ base, s.heap.live = base + held → s'.heap.live = base

theorem setChunk_of_ne {c c' : Nat} {chunk : Chunk} (different : c' ≠ c) :
    (s.setChunk c chunk).chunk c' = s.chunk c' :=
  Function.update_of_ne different ..

theorem growKeyNext_undone {c keys left : Nat} {complete : Bool} (fits : left ≤ keys)
    (ran : Runs t (growKeyNext c keys left) s complete s') :
    Undone c (keys - left + 2) complete s s' := by
  induction left generalizing s with
  | zero =>
      obtain ⟨rfl, rfl⟩ := runs_pure_inv ran
      exact ⟨fun _ _ => rfl, nofun, nofun⟩
  | succ left ih =>
      obtain ⟨granted, _, asked, ran⟩ := runs_perform_inv ran
      cases asked
      obtain ⟨_, _, noted, ran⟩ := runs_perform_inv ran
      cases noted
      by_cases granted : s.heap.outcome s.heap.asked = true
      · rw [granted, if_pos rfl] at ran
        obtain ⟨_, _, initialised, ran⟩ := runs_perform_inv ran
        cases initialised
        have later := ih (by omega) ran
        refine ⟨fun c' different => ?_, later.emptied, fun failed base counted => ?_⟩
        · exact (later.others c' different).trans (setChunk_of_ne different)
        · apply later.released failed base
          change s.heap.live + 1 = _
          omega
      · rw [Bool.eq_false_of_not_eq_true granted, if_neg Bool.false_ne_true] at ran
        obtain ⟨_, _, freed, ran⟩ := runs_bind_inv ran
        obtain rfl := deallocs_inv freed
        obtain ⟨_, _, released, ran⟩ := runs_perform_inv ran
        cases released
        obtain ⟨_, _, dropped, ran⟩ := runs_perform_inv ran
        cases dropped
        obtain ⟨_, _, released, ran⟩ := runs_perform_inv ran
        cases released
        obtain ⟨_, _, dropped, ran⟩ := runs_perform_inv ran
        cases dropped
        obtain ⟨rfl, rfl⟩ := runs_pure_inv ran
        refine ⟨fun c' different => ?_, fun _ => ?_, fun _ base counted => ?_⟩
        · simp [Core.setChunk, different]
        · simp [Core.setChunk, Chunk.Empty]
        · simp only [Core.setChunk, Bool.false_eq_true, if_false, List.length_range]
          omega

theorem growChunkKeys_undone {c : Nat} {complete : Bool}
    (ran : Runs t (growChunkKeys D c) s complete s') : Undone c 1 complete s s' := by
  unfold growChunkKeys at ran
  by_cases noKeys : D.keys = 0
  · rw [if_pos noKeys] at ran
    obtain ⟨rfl, rfl⟩ := runs_pure_inv ran
    exact ⟨fun _ _ => rfl, nofun, nofun⟩
  · rw [if_neg noKeys] at ran
    obtain ⟨_, _, asked, ran⟩ := runs_perform_inv ran
    cases asked
    obtain ⟨_, _, noted, ran⟩ := runs_perform_inv ran
    cases noted
    by_cases granted : s.heap.outcome s.heap.asked = true
    · rw [granted, if_pos rfl] at ran
      have later := growKeyNext_undone (Nat.le_refl _) ran
      refine ⟨fun c' different => ?_, later.emptied, fun failed base counted => ?_⟩
      · exact (later.others c' different).trans (setChunk_of_ne different)
      · apply later.released failed base
        change s.heap.live + 1 = _
        omega
    · rw [Bool.eq_false_of_not_eq_true granted, if_neg Bool.false_ne_true] at ran
      obtain ⟨_, _, released, ran⟩ := runs_perform_inv ran
      cases released
      obtain ⟨_, _, dropped, ran⟩ := runs_perform_inv ran
      cases dropped
      obtain ⟨rfl, rfl⟩ := runs_pure_inv ran
      refine ⟨fun c' different => ?_, fun _ => ?_, fun _ base counted => ?_⟩
      · simp [Core.setChunk, different]
      · simp [Core.setChunk, Chunk.Empty]
      · simp only [Core.setChunk, Bool.false_eq_true, if_false]
        omega

theorem growChunk_undone {failed : Option Err} (ran : Runs t (fmCoreGrowChunk D) s failed s') :
    (∀ c, c ≠ s.chunkCnt → s'.chunk c = s.chunk c) ∧
      (failed.isSome → ((s.chunk s.chunkCnt).Empty → (s'.chunk s.chunkCnt).Empty) ∧
        s'.heap.live = s.heap.live) := by
  obtain ⟨_, _, loaded, ran⟩ := runs_perform_inv ran
  cases loaded
  by_cases full : D.chunkCap ≤ s.chunkCnt
  · rw [if_pos full] at ran
    obtain ⟨rfl, rfl⟩ := runs_pure_inv ran
    exact ⟨fun _ _ => rfl, fun _ => ⟨id, rfl⟩⟩
  · rw [if_neg full] at ran
    obtain ⟨_, _, asked, ran⟩ := runs_perform_inv ran
    cases asked
    obtain ⟨_, _, noted, ran⟩ := runs_perform_inv ran
    cases noted
    by_cases granted : s.heap.outcome s.heap.asked = true
    · rw [granted, if_neg (by decide)] at ran
      obtain ⟨_, _, initialised, ran⟩ := runs_perform_inv ran
      cases initialised
      obtain ⟨complete, mid, prepared, ran⟩ := runs_bind_inv ran
      have later := growChunkKeys_undone prepared
      have others : ∀ c, c ≠ s.chunkCnt → mid.chunk c = s.chunk c := fun c different =>
        (later.others c different).trans (setChunk_of_ne different)
      cases complete with
      | true =>
          obtain ⟨_, _, published, ran⟩ := runs_perform_inv ran
          cases published
          obtain ⟨rfl, rfl⟩ := runs_pure_inv ran
          exact ⟨others, nofun⟩
      | false =>
          obtain ⟨rfl, rfl⟩ := runs_pure_inv ran
          exact ⟨others, fun _ => ⟨fun _ => later.emptied rfl, later.released rfl _ rfl⟩⟩
    · rw [Bool.eq_false_of_not_eq_true granted, if_pos (by decide)] at ran
      obtain ⟨rfl, rfl⟩ := runs_pure_inv ran
      refine ⟨fun c different => setChunk_of_ne different, fun _ => ⟨fun fresh => ?_, rfl⟩⟩
      simpa [Core.setChunk, Chunk.Empty] using fresh.2

/-! ### Allocation -/

def carved (D : ShareDef n) (s : Core n) : List Nat :=
  List.range' (s.slotCount + 1)
    (min (s.slotCount + fmChunkSize) D.maxRecords - (s.slotCount + 1))

inductive Allocated (D : ShareDef n) (s : Core n) : Option Nat → Core n → Prop
  | popped {idx : Nat} (head : s.cell .freeHead = some idx) :
      Allocated D s (some idx) (s.setCell .freeHead (s.cell (.freeNext idx)))
  | limited (head : s.cell .freeHead = none) : Allocated D s none s
  | denied {s' : Core n} (head : s.cell .freeHead = none)
      (prepared : Prepared s.slotCount s s')
      (others : ∀ c, c ≠ s.chunkCnt → s'.chunk c = s.chunk c)
      (emptied : (s.chunk s.chunkCnt).Empty → (s'.chunk s.chunkCnt).Empty)
      (released : s'.heap.live = s.heap.live) : Allocated D s none s'
  | grown {s' : Core n} {cell : Cell → Option Nat} (head : s.cell .freeHead = none)
      (room : s.slotCount < D.maxRecords) (prepared : Prepared s.slotCount s s')
      (others : ∀ c, c ≠ s.chunkCnt → s'.chunk c = s.chunk c)
      (sameChains : SameChains s'.cell cell) (freelist : FreeList cell (carved D s)) :
      Allocated D s (some s.slotCount)
        { s' with chunkCnt := s.chunkCnt + 1, cell := cell }

theorem allocSlot_inv {slot : Option Nat} (ran : Runs t (fmCoreAllocSlot D) s slot s') :
    Allocated D s slot s' := by
  obtain ⟨_, _, loaded, ran⟩ := runs_perform_inv ran
  cases loaded
  cases head : s.cell .freeHead with
  | some idx =>
      rw [head] at ran
      obtain ⟨_, _, loaded, ran⟩ := runs_perform_inv ran
      cases loaded
      obtain ⟨_, _, stored, ran⟩ := runs_perform_inv ran
      cases stored
      obtain ⟨rfl, rfl⟩ := runs_pure_inv ran
      exact .popped head
  | none =>
      rw [head] at ran
      obtain ⟨_, _, loaded, ran⟩ := runs_perform_inv ran
      cases loaded
      change Runs t (if D.maxRecords ≤ s.slotCount then _ else _) _ _ _ at ran
      by_cases full : D.maxRecords ≤ s.slotCount
      · rw [if_pos full] at ran
        obtain ⟨rfl, rfl⟩ := runs_pure_inv ran
        exact .limited head
      · rw [if_neg full] at ran
        have below : s.chunkCnt < D.chunkCap := by
          have capacity := D.chunkCap_eq
          unfold Core.slotCount fmChunkSize at full
          unfold fmChunkSize at capacity
          omega
        obtain ⟨failed, mid, grew, ran⟩ := runs_bind_inv ran
        obtain ⟨others, undone⟩ := growChunk_undone grew
        obtain ⟨ready, prepared, grown⟩ := growChunk_runs (t := t) below
        by_cases granted : grants s.heap.outcome s.heap.asked (keyBlocks D + 1) = true
        · rw [if_pos granted] at grown
          obtain ⟨rfl, rfl⟩ := Exec.deterministic grew grown
          rw [if_neg (by simp)] at ran
          obtain ⟨_, _, carved, ran⟩ := runs_bind_inv ran
          have empty : FreeList ready.cell [] := prepared.freeHead.trans head
          obtain ⟨cell, freed, freelist, sameChains⟩ := freeSlots_freed (t := t)
            (List.range' (s.slotCount + 1)
              (min (s.slotCount + fmChunkSize) D.maxRecords - (s.slotCount + 1))).reverse
            { ready with chunkCnt := s.chunkCnt + 1 } empty (by simp [List.nodup_range']) (by simp)
          rw [List.reverse_reverse, List.append_nil] at freelist
          obtain ⟨_, rfl⟩ := Exec.deterministic carved freed
          obtain ⟨rfl, rfl⟩ := runs_pure_inv ran
          have grew := Allocated.grown head (Nat.not_le.mp full) prepared others sameChains freelist
          exact grew
        · rw [if_neg granted] at grown
          obtain ⟨rfl, rfl⟩ := Exec.deterministic grew grown
          rw [if_pos (show (some Err.nomem).isSome = true from rfl)] at ran
          obtain ⟨rfl, rfl⟩ := runs_pure_inv ran
          exact .denied head prepared others (undone rfl).1 (undone rfl).2

/-! ### The links of a failing insert -/

def pushBelow (D : ShareDef n) (chain : ChainLists) (idx : Nat) (rec : Rec n) (bound : Nat) :
    ChainLists := fun k b =>
  if k < bound ∧ b = fmCoreKeyBucket (D.keydef k) rec then idx :: chain k b else chain k b

section Links

variable {chain : ChainLists} {idx k : Nat} {rec : Rec n}

theorem pushBelow_zero : pushBelow D chain idx rec 0 = chain := by
  funext k b
  simp [pushBelow]

theorem pushBelow_succ : pushBelow D chain idx rec (k + 1) =
    setChain (pushBelow D chain idx rec k) k (fmCoreKeyBucket (D.keydef k) rec)
      (idx :: pushBelow D chain idx rec k k (fmCoreKeyBucket (D.keydef k) rec)) := by
  funext k' b
  unfold pushBelow setChain
  grind

theorem pushBelow_here (b : Nat) : pushBelow D chain idx rec k k b = chain k b := by
  simp [pushBelow]

theorem setChain_pushBelow :
    setChain (pushBelow D chain idx rec (k + 1)) k (fmCoreKeyBucket (D.keydef k) rec)
      (chain k (fmCoreKeyBucket (D.keydef k) rec)) = pushBelow D chain idx rec k := by
  funext k' b
  unfold pushBelow setChain
  grind

/-- Linking keys from `bound` on stops at the duplicate with the keys below it linked. -/
theorem insertLinkKeys_chains {bound len : Nat} {dup : Option Nat}
    (chains : Chains s.cell (pushBelow D chain idx rec bound)) (loose : ∀ k b, idx ∉ chain k b)
    (ran : Runs t (insertLinkKeys D gran rec idx (List.range' bound len)) s dup s') :
    ∀ k, dup = some k → Chains s'.cell (pushBelow D chain idx rec k) := by
  induction len generalizing s bound with
  | zero =>
      obtain ⟨rfl, _⟩ := runs_pure_inv ran
      nofun
  | succ len ih =>
      rw [List.range'_succ] at ran
      obtain ⟨_, _, taken, ran⟩ := runs_perform_inv ran
      obtain ⟨_, rfl⟩ := exec_lock_inv taken
      obtain ⟨dup', _, checked, ran⟩ := runs_bind_inv ran
      rw [reads_unchanged (dupCheck_reads bound _ rec) checked] at ran
      by_cases isDup : dup' = true
      · rw [if_pos isDup] at ran
        obtain ⟨_, _, released, ran⟩ := runs_perform_inv ran
        cases released
        obtain ⟨rfl, rfl⟩ := runs_pure_inv ran
        intro k same
        cases same
        exact chains
      · rw [if_neg isDup] at ran
        obtain ⟨_, _, linked, ran⟩ := runs_bind_inv ran
        obtain ⟨_, rfl⟩ := Exec.deterministic linked chainLink_runs
        obtain ⟨_, _, released, ran⟩ := runs_perform_inv ran
        cases released
        have outside : ∀ b, idx ∉ pushBelow D chain idx rec bound bound b := by
          intro b
          rw [pushBelow_here]
          exact loose bound b
        refine ih ?_ ran
        rw [pushBelow_succ]
        refine (chains.storeLoose outside _).storeHead outside ?_
        simp [Core.setOwner, Function.update_of_ne]

theorem insertRollback_chains {left : UInt32}
    (chains : Chains s.cell (pushBelow D chain idx rec k))
    (ran : Runs t (insertRollback D rec idx k) s left s') : Chains s'.cell chain := by
  induction k generalizing s with
  | zero =>
      obtain ⟨_, rfl⟩ := runs_pure_inv ran
      rwa [pushBelow_zero] at chains
  | succ k ih =>
      obtain ⟨_, _, taken, ran⟩ := runs_perform_inv ran
      obtain ⟨_, rfl⟩ := exec_lock_inv taken
      obtain ⟨_, _, unlinked, ran⟩ := runs_bind_inv ran
      have front : pushBelow D chain idx rec (k + 1) k (fmCoreKeyBucket (D.keydef k) rec) =
          [] ++ idx :: chain k (fmCoreKeyBucket (D.keydef k) rec) := by
        simp [pushBelow]
      obtain ⟨_, rfl⟩ := Exec.deterministic unlinked (chainUnlink_runs chains front)
      obtain ⟨_, _, released, ran⟩ := runs_perform_inv ran
      cases released
      refine ih ?_ ran
      rw [← setChain_pushBelow]
      exact chains.storeUnlink front

end Links

/-- An insert that reports an error after it took a slot has put its chains in order. -/
theorem insertRefused_chains {mid : Core n} {chain : ChainLists} {idx : Nat} {rec : Rec n}
    {e : Err} (chains : Chains mid.cell chain) (loose : ∀ k b, idx ∉ chain k b)
    (allocated : Runs t (fmCoreAllocSlot D) (s.setOwner .structMutex (some t)) (some idx) mid)
    (ran : Runs t (fmCoreInsertRow D gran rec) s (.error e) s') : Chains s'.cell chain := by
  obtain ⟨_, _, taken, ran⟩ := runs_perform_inv ran
  obtain ⟨_, rfl⟩ := exec_lock_inv taken
  obtain ⟨_, _, allocated', ran⟩ := runs_bind_inv ran
  obtain ⟨rfl, rfl⟩ := Exec.deterministic allocated' allocated
  obtain ⟨_, _, copied, ran⟩ := runs_bind_inv ran
  obtain ⟨_, rfl⟩ := Exec.deterministic copied (memcpyIn_runs rec)
  obtain ⟨dup, _, linked, ran⟩ := runs_bind_inv ran
  cases dup with
  | none =>
      obtain ⟨_, _, _, ran⟩ := runs_perform_inv ran
      obtain ⟨_, _, _, ran⟩ := runs_perform_inv ran
      obtain ⟨_, _, _, ran⟩ := runs_perform_inv ran
      cases (runs_pure_inv ran).1
  | some k =>
      rw [List.range_eq_range'] at linked
      have pushed := insertLinkKeys_chains (by rw [pushBelow_zero]; exact chains) loose linked k rfl
      obtain ⟨_, _, undone, ran⟩ := runs_bind_inv ran
      have restored := insertRollback_chains pushed undone
      obtain ⟨_, _, freed, ran⟩ := runs_bind_inv ran
      obtain rfl := freeSlot_inv freed
      obtain ⟨_, _, released, ran⟩ := runs_perform_inv ran
      cases released
      obtain ⟨_, rfl⟩ := runs_pure_inv ran
      refine restored.frame (fun k b => ?_) fun k i => ?_
      · simp [pushFree, Core.setOwner]
      · simp [pushFree, Core.setOwner]

/-! ### No trace -/

/-- What a failing insert may have changed. `spare` is the slot it holds. -/
structure Traceless (D : ShareDef n) (s : Core n) (spare : Option Nat) (s' : Core n) : Prop where
  chains : ∀ chain, Chains s.cell chain → Chains s'.cell chain
  active : ∀ i, (s.slot i).state = .active ∨ (s'.slot i).state = .active → s'.slot i = s.slot i
  settled : ∀ i, (s.slot i).seq % 2 = 0 → (s'.slot i).seq % 2 = 0
  records : s'.records = s.records
  locks : s'.owner = s.owner
  chunks : ∀ c, s'.chunkCnt ≤ c → (s.chunk c).Empty → (s'.chunk c).Empty
  free : ∀ free, FreeList s.cell free → ∃ free', FreeList s'.cell free' ∧
    (∀ i, spare = some i → i ∉ free' ∧ (s.slot i).state ≠ .active) ∧
    ((s'.chunkCnt = s.chunkCnt ∧ s'.heap.live = s.heap.live ∧
        ∀ i, i ∈ free' ∨ spare = some i ↔ i ∈ free) ∨
      (s'.chunkCnt = s.chunkCnt + 1 ∧ ∀ i, i ∈ free' ∨ spare = some i ↔
        i ∈ free ∨ (s.slotCount ≤ i ∧ i < s'.slotCount ∧ i < D.maxRecords)))

theorem Traceless.refl (D : ShareDef n) (s : Core n) : Traceless D s none s where
  chains _ holds := holds
  active _ _ := rfl
  settled _ even := even
  records := rfl
  locks := rfl
  chunks _ _ empty := empty
  free free holds := ⟨free, holds, (fun _ taken => by cases taken), Or.inl ⟨rfl, rfl, by simp⟩⟩

theorem Prepared.chains {ready : Core n} (prepared : Prepared s.slotCount s ready)
    (rep : Rep D s none) (chain : ChainLists) (holds : Chains s.cell chain) :
    Chains ready.cell chain := by
  obtain ⟨chain', chains', members⟩ := rep.placed
  refine ⟨fun k b => (holds.threaded k b).frame (prepared.head k b) fun i member => ?_,
    holds.disjoint⟩
  apply prepared.next
  apply rep.home_below k i
  rw [(holds.threaded k b).unique (chains'.threaded k b), members] at member
  rw [member]
  exact Option.some_ne_none b

theorem Prepared.active {ready : Core n} (prepared : Prepared s.slotCount s ready)
    (rep : Rep D s none) (i : Nat)
    (active : (s.slot i).state = .active ∨ (ready.slot i).state = .active) :
    ready.slot i = s.slot i := by
  obtain ⟨states, same⟩ := prepared.state rep.allocated i
  exact same (active.elim id states.mp)

theorem Prepared.settled {ready : Core n} (prepared : Prepared s.slotCount s ready) (i : Nat)
    (even : (s.slot i).seq % 2 = 0) : (ready.slot i).seq % 2 = 0 := by
  rcases prepared.slot i with same | ⟨_, reset⟩
  · rw [same]
    exact even
  · rw [reset]
    rfl

theorem Allocated.traceless {slot : Option Nat} {mid : Core n} (rep : Rep D s none)
    (unlocked : ∀ i, s.owner (.wlock i) = none) (allocated : Allocated D s slot mid) :
    Traceless D s slot mid := by
  cases allocated with
  | popped head =>
      rename_i idx
      refine ⟨fun chain holds => holds.frame (fun k b => ?_) fun k i => ?_, fun _ _ => rfl,
        fun _ even => even, rfl, rfl, fun _ _ empty => empty, fun free holds => ?_⟩
      · simp [Core.setCell]
      · simp [Core.setCell]
      · obtain ⟨free', freelist, inside, _⟩ := rep.freelist
        cases Threaded.unique holds freelist
        cases free with
        | nil => cases head.symm.trans holds
        | cons first rest =>
            obtain rfl : first = idx := Option.some.inj (holds.1.symm.trans head)
            have whole : Threaded s.cell Cell.freeNext .freeHead ([] ++ first :: rest) := holds
            have popped : FreeList (Function.update s.cell .freeHead (s.cell (.freeNext first)))
                rest := whole.unlink freeNext_injective freeHead_outside
            refine ⟨rest, popped, ?_, Or.inl ⟨rfl, rfl, fun i => ?_⟩⟩
            · intro i same
              cases same
              exact ⟨(List.nodup_cons.mp (FreeList.nodup holds)).1,
                (inside first (List.mem_cons_self ..)).2.1⟩
            · rw [List.mem_cons, Option.some.injEq, or_comm, eq_comm]
  | limited head => exact Traceless.refl D s
  | denied head prepared others emptied released =>
      refine ⟨prepared.chains rep, prepared.active rep, prepared.settled, prepared.records,
        prepared.owner_eq unlocked, fun c above empty => ?_, fun free holds => ?_⟩
      · by_cases here : c = s.chunkCnt
        · subst here
          exact emptied empty
        · rw [others c here]
          exact empty
      · obtain ⟨free', freelist, inside, _⟩ := rep.freelist
        cases Threaded.unique holds freelist
        refine ⟨free, Threaded.frame holds prepared.freeHead fun i member =>
          prepared.freeNext i (inside i member).1, (fun _ taken => by cases taken),
          Or.inl ⟨prepared.chunkCnt, released, by simp⟩⟩
  | grown head room prepared others sameChains freelist =>
      refine ⟨fun chain holds => (prepared.chains rep chain holds).frame sameChains.1 sameChains.2,
        prepared.active rep, prepared.settled, prepared.records, prepared.owner_eq unlocked,
        fun c above empty => ?_, fun free holds => ?_⟩
      · have other : c ≠ s.chunkCnt := by
          rintro rfl
          exact Nat.lt_irrefl _ above
        change (_ : Chunk).Empty
        rw [others c other]
        exact empty
      · obtain rfl : free = [] := Threaded.unique holds head
        refine ⟨_, freelist, ?_, Or.inr ⟨rfl, fun i => ?_⟩⟩
        · intro i same
          cases same
          refine ⟨fun member => ?_, fun active => ?_⟩
          · unfold carved at member
            rw [List.mem_range'_1] at member
            omega
          · exact Nat.lt_irrefl _ (rep.allocated _ active)
        · unfold carved
          rw [List.mem_range'_1]
          simp only [Core.slotCount, Nat.add_one_mul, List.not_mem_nil, false_or, Option.some.injEq]
          unfold Core.slotCount at room
          unfold fmChunkSize at *
          omega

theorem Traceless.giveBack {idx : Nat} {mid : Core n} {rec : Rec n} {cell : Cell → Option Nat}
    (taken : Traceless D s (some idx) mid) (sameFree : SameFree mid.cell cell)
    (chains : ∀ chain, Chains s.cell chain → Chains (pushFree cell idx) chain)
    (freed : ∃ free, FreeList s.cell free) :
    Traceless D s none
      { mid.setSlot idx ((mid.slot idx).withData rec) with cell := pushFree cell idx } := by
  have inactive : (mid.slot idx).state ≠ .active := by
    obtain ⟨free, holds⟩ := freed
    obtain ⟨_, _, spare, _⟩ := taken.free free holds
    intro active
    rw [taken.active idx (Or.inr active)] at active
    exact (spare idx rfl).2 active
  refine ⟨chains, fun i active => ?_, fun i even => ?_, taken.records, taken.locks, taken.chunks,
    fun free holds => ?_⟩
  · have other : i ≠ idx := by
      rintro rfl
      rcases active with before | after
      · exact inactive (taken.active i (Or.inl before) ▸ before)
      · exact inactive (by simpa [Core.setSlot, Slot.withData] using after)
    have kept : ((mid.setSlot idx ((mid.slot idx).withData rec)).slot i) = mid.slot i :=
      Function.update_of_ne other ..
    change (mid.setSlot idx ((mid.slot idx).withData rec)).slot i = s.slot i
    rw [kept]
    apply taken.active i
    refine active.imp id fun after => ?_
    rw [← kept]
    exact after
  · have same : ((mid.setSlot idx ((mid.slot idx).withData rec)).slot i).seq = (mid.slot i).seq := by
      by_cases here : i = idx
      · subst here
        simp [Core.setSlot, Slot.withData]
      · simp [Core.setSlot, here]
    change ((mid.setSlot idx ((mid.slot idx).withData rec)).slot i).seq % 2 = 0
    rw [same]
    exact taken.settled i even
  · obtain ⟨free', freelist, spare, same⟩ := taken.free free holds
    have pushed : FreeList (pushFree cell idx) (idx :: free') :=
      Threaded.push (freelist.same sameFree) (spare idx rfl).1 freeNext_injective freeHead_outside
    have members : ∀ i, i ∈ idx :: free' ∨ none = some i ↔ i ∈ free' ∨ some idx = some i := by
      intro i
      rw [List.mem_cons, Option.some.injEq, eq_comm, or_comm (a := i ∈ free')]
      simp
    refine ⟨idx :: free', pushed, (fun _ other => by cases other), ?_⟩
    simp only [members]
    exact same

theorem insertRow_traceless {rec : Rec n} {e : Err} (rep : Rep D s none) (quiet : Quiet s)
    (ran : Runs t (fmCoreInsertRow D gran rec) s (.error e) s') : Traceless D s none s' := by
  obtain ⟨free, slot, mid, allocated, frame⟩ := insertRow_inv ran
  have wlocks : ∀ i, (s.setOwner .structMutex (some t)).owner (.wlock i) = none := fun i =>
    (owner_setOwner_of_ne (by simp)).trans (quiet _)
  have held := (allocSlot_inv allocated).traceless (rep.withOwner _) wlocks
  -- the lock that was taken first is given back last
  have taken : Traceless D s slot (mid.setOwner .structMutex none) := by
    refine ⟨held.chains, held.active, held.settled, held.records, ?_, held.chunks, held.free⟩
    change Function.update mid.owner .structMutex none = s.owner
    rw [held.locks]
    exact congrArg Core.owner (setOwner_release (s := s) free)
  cases slot with
  | none =>
      obtain ⟨_, rfl⟩ := frame
      exact taken
  | some idx =>
      obtain ⟨cell, sameFree, ⟨_, rfl⟩ | ⟨impossible, _⟩⟩ := frame
      · refine taken.giveBack sameFree (fun chain holds => ?_) ?_
        · refine insertRefused_chains (held.chains chain holds) (fun k b member => ?_) allocated ran
          obtain ⟨chain', chains', members⟩ := rep.placed
          rw [(holds.threaded k b).unique (chains'.threaded k b), members] at member
          obtain ⟨free, freelist, _⟩ := rep.freelist
          obtain ⟨_, _, spare, _⟩ := taken.free free freelist
          rw [homes_inactive (spare idx rfl).2] at member
          cases member
        · obtain ⟨free, freelist, _⟩ := rep.freelist
          exact ⟨free, freelist⟩
      · cases impossible

namespace Traceless

variable (trace : Traceless D s none s')

include trace

theorem rows_eq : rows s' = rows s := by
  funext i
  unfold rows
  by_cases active : (s.slot i).state = .active
  · rw [trace.active i (Or.inl active)]
  · have still : (s'.slot i).state ≠ .active := fun now =>
      active (trace.active i (Or.inr now) ▸ now)
    rw [if_neg active, if_neg still]

theorem findOutcome_eq (test : Rec n → Bool) (items : List Nat) :
    findOutcome s' test items = findOutcome s test items := by
  have same : passes s' test = passes s test := by
    funext i
    unfold passes
    by_cases active : (s.slot i).state = .active
    · rw [trace.active i (Or.inl active)]
    · have still : (s'.slot i).state ≠ .active := fun now =>
        active (trace.active i (Or.inr now) ▸ now)
      simp [active, still]
  unfold findOutcome
  rw [same]
  cases found : items.find? (passes s test) with
  | none => rfl
  | some i =>
      have passed := List.find?_some found
      simp only [passes, Bool.and_eq_true, decide_eq_true_eq] at passed
      exact congrArg (fun slot => Except.ok (i, slot.data)) (trace.active i (Or.inl passed.1))

end Traceless

/-- A failed insert leaves no trace: the state differs from the one before it in nothing but
free slots, every lookup finds what it found, and every later run of calls is a run of the
table as it was. -/
theorem failedInsert_traceless (D : ShareDef n) (gran : Gran) (s : Core n) (rep : Rep D s none)
    (quiet : Quiet s) (t : Nat) (rec : Rec n) (e : Err) (s' : Core n)
    (ran : Runs t (fmCoreInsertRow D gran rec) s (.error e) s') :
    Traceless D s none s' ∧ Quiet s' ∧
      (∀ u key packed cur, ∃ first next,
        (Runs u (fmCoreFind D gran key packed) s first s ∧
          Runs u (fmCoreFind D gran key packed) s' first s') ∧
        Runs u (fmCoreFindNext D gran key packed cur) s next s ∧
          Runs u (fmCoreFindNext D gran key packed cur) s' next s') ∧
      (KeysConsistent D → UniqueRows D s → ∀ served u, SerialRun D gran s' served u →
        TableRun D (table s) served (table u)) := by
  have trace := insertRow_traceless rep quiet ran
  have quiet' : Quiet s' := fun l => (congrFun trace.locks l).trans (quiet l)
  refine ⟨trace, quiet', fun u key packed cur => ?_, fun consistent unique served u run => ?_⟩
  · obtain ⟨chain, chains, _⟩ := rep.placed
    have settled' : ∀ i, (s'.slot i).seq % 2 = 0 := fun i => trace.settled i (rep.settled i)
    have threaded' := (trace.chains chain chains).threaded key
    refine ⟨_, _, ⟨find_runs (chains.threaded key _) (fun i _ => rep.settled i) (quiet _), ?_⟩,
      findNext_runs cur (chains.threaded key _) rep.settled fun b => quiet _, ?_⟩
    · rw [← trace.findOutcome_eq]
      exact find_runs (threaded' _) (fun i _ => settled' i) (quiet' _)
    · rw [← trace.findOutcome_eq]
      exact findNext_runs cur (threaded' _) settled' fun b => quiet' _
  · obtain ⟨result, final, ran', rep', _⟩ : ∃ result final,
        Runs t (fmCoreInsertRow D gran rec) s result final ∧ Rep D final none ∧ Quiet final ∧
          insertSpec D s rec result final :=
      insertRow_runs consistent.hashes rep quiet rec
    obtain ⟨_, rfl⟩ := Exec.deterministic ran ran'
    rw [← table_congr trace.rows_eq]
    exact (run.refines_from consistent rep' quiet' (unique.congr trace.rows_eq)).1

/-- A second row 2 is refused; the two rows are still all there is. -/
theorem failedInsert_traceless_evenRows : ∃ errkey s',
    Runs 0 (fmCoreInsertRow byteTable .whole fun _ => 2) evenRows (.error (.dupKey errkey)) s' ∧
      Traceless byteTable evenRows none s' ∧ s'.records = 2 := by
  obtain ⟨errkey, s', refused⟩ := evenRows_refuses
  obtain ⟨trace, _⟩ := failedInsert_traceless byteTable .whole evenRows evenRows_rep
    (fun _ => rfl) 0 (fun _ => 2) _ s' refused
  exact ⟨errkey, s', refused, trace, trace.records⟩

end Fastmem
