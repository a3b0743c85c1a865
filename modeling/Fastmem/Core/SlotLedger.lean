/-
The slots of a share as the freelist and the row counter see them.

A ledger says how many slots there are, which of them hold a row, in which
order the others wait on the freelist and what the row counter shows. Every
call that returns is one of a few entries in it, whatever the chains look like.
The row limit is a property of ledgers: slots at or above the limit stay off
the freelist. `fm_core_clear` rebuilds the freelist from all slots of all
chunks, so a clear after the last, partial chunk was grown breaks it.
-/

import Fastmem.Core.CallFrames
import Fastmem.Core.SerialRuns

set_option autoImplicit false

namespace Fastmem

open Prog (perform iterate forEach foldEach)
open Machine

variable {n : Nat}

structure Ledger where
  total : Nat
  live : Nat → Bool
  free : List Nat
  records : Int

namespace Ledger

def grow (limit : Nat) (L : Ledger) : Ledger :=
  { L with
    total := L.total + fmChunkSize
    free := List.range' (L.total + 1) (min (L.total + fmChunkSize) limit - (L.total + 1)) }

def take (limit : Nat) (L : Ledger) : Option (Nat × Ledger) :=
  match L.free with
  | idx :: rest => some (idx, { L with free := rest })
  | [] => if limit ≤ L.total then none else some (L.total, L.grow limit)

def giveBack (L : Ledger) (idx : Nat) : Ledger := { L with free := idx :: L.free }

def publish (L : Ledger) (idx : Nat) : Ledger :=
  { L with live := Function.update L.live idx true, records := L.records + 1 }

def retire (L : Ledger) (idx : Nat) : Ledger :=
  { L with
    live := Function.update L.live idx false
    free := idx :: L.free
    records := L.records + -1 }

def reset (L : Ledger) : Ledger :=
  { L with live := fun _ => false, free := (List.range L.total).reverse, records := 0 }

def liveSlots (L : Ledger) : Finset Nat := (Finset.range L.total).filter fun i => L.live i = true

theorem mem_liveSlots {L : Ledger} {i : Nat} :
    i ∈ L.liveSlots ↔ i < L.total ∧ L.live i = true := by
  unfold liveSlots
  rw [Finset.mem_filter, Finset.mem_range]

/-- The freelist is made of slots without a row, each once, and has all of them below the
limit; the counter is right. `spare` is a slot on its way from the freelist to a row. -/
structure Sound (limit : Nat) (L : Ledger) (spare : Option Nat) : Prop where
  distinct : L.free.Nodup
  inside : ∀ i ∈ L.free, i < L.total ∧ L.live i = false ∧ spare ≠ some i
  complete : ∀ i, i < L.total → i < limit → L.live i = false → spare ≠ some i → i ∈ L.free
  below : ∀ i, L.live i = true → i < L.total
  aside : ∀ i, spare = some i → i < L.total ∧ L.live i = false
  counted : L.records = L.liveSlots.card

/-- No slot at or above the limit is in use or can be. -/
structure Limited (limit : Nat) (L : Ledger) (spare : Option Nat) : Prop where
  free : ∀ i ∈ L.free, i < limit
  live : ∀ i, L.live i = true → i < limit
  aside : ∀ i, spare = some i → i < limit

variable {limit idx : Nat} {L L' : Ledger}

/-! ### Soundness of the entries -/

theorem Sound.take (sound : Sound limit L none) (taken : L.take limit = some (idx, L')) :
    Sound limit L' (some idx) := by
  unfold Ledger.take at taken
  cases free : L.free with
  | cons first rest =>
      rw [free] at taken
      cases taken
      have distinct := sound.distinct
      rw [free, List.nodup_cons] at distinct
      refine ⟨distinct.2, ?_, ?_, sound.below, ?_, sound.counted⟩
      · intro i member
        obtain ⟨below, dead, _⟩ := sound.inside i (free ▸ List.mem_cons_of_mem idx member)
        refine ⟨below, dead, fun same => distinct.1 ?_⟩
        rw [Option.some.inj same]
        exact member
      · intro i below limited dead other
        have member := sound.complete i below limited dead (by simp)
        rw [free] at member
        rcases List.mem_cons.mp member with rfl | later
        · exact absurd rfl other
        · exact later
      · intro i same
        cases same
        obtain ⟨below, dead, _⟩ := sound.inside idx (free ▸ List.mem_cons_self ..)
        exact ⟨below, dead⟩
  | nil =>
      rw [free] at taken
      by_cases full : limit ≤ L.total
      · simp [full] at taken
      · simp only [full, if_false, Option.some.injEq, Prod.mk.injEq] at taken
        obtain ⟨rfl, rfl⟩ := taken
        have room : L.total < limit := Nat.not_le.mp full
        have dead : ∀ i, L.total ≤ i → L.live i = false := by
          intro i above
          by_contra alive
          have below := sound.below i (by simpa using alive)
          omega
        refine ⟨List.nodup_range', ?_, ?_, ?_, ?_, ?_⟩
        · intro i member
          simp only [grow, List.mem_range'_1] at member
          refine ⟨?_, dead i (by omega), fun same => ?_⟩
          · change i < L.total + fmChunkSize
            omega
          · cases same
            omega
        · intro i below limited unused other
          change i < L.total + fmChunkSize at below
          simp only [grow, List.mem_range'_1]
          have different : i ≠ L.total := fun same => other (congrArg some same.symm)
          by_cases old : i < L.total
          · have member := sound.complete i old limited unused (by simp)
            rw [free] at member
            cases member
          · omega
        · intro i alive
          change i < L.total + fmChunkSize
          have below := sound.below i alive
          omega
        · intro i same
          cases same
          refine ⟨?_, dead _ (Nat.le_refl _)⟩
          change L.total < L.total + fmChunkSize
          unfold fmChunkSize
          omega
        · have same : (L.grow limit).liveSlots = L.liveSlots := by
            ext i
            rw [mem_liveSlots, mem_liveSlots]
            constructor
            · rintro ⟨_, alive⟩
              exact ⟨sound.below i alive, alive⟩
            · rintro ⟨below, alive⟩
              refine ⟨?_, alive⟩
              change i < L.total + fmChunkSize
              omega
          rw [same]
          exact sound.counted

theorem Sound.giveBack (sound : Sound limit L (some idx)) : Sound limit (L.giveBack idx) none := by
  obtain ⟨below, dead⟩ := sound.aside idx rfl
  refine ⟨?_, ?_, ?_, sound.below, by simp, sound.counted⟩
  · exact List.nodup_cons.mpr ⟨fun member => (sound.inside idx member).2.2 rfl, sound.distinct⟩
  · intro i member
    rcases List.mem_cons.mp member with rfl | later
    · exact ⟨below, dead, by simp⟩
    · obtain ⟨inside, unused, _⟩ := sound.inside i later
      exact ⟨inside, unused, by simp⟩
  · intro i inside limited unused _
    by_cases same : i = idx
    · subst same
      exact List.mem_cons_self ..
    · refine List.mem_cons_of_mem idx (sound.complete i inside limited unused ?_)
      exact fun clash => same (Option.some.inj clash).symm

theorem Sound.publish (sound : Sound limit L (some idx)) : Sound limit (L.publish idx) none := by
  obtain ⟨below, dead⟩ := sound.aside idx rfl
  have others : ∀ {i}, (L.publish idx).live i = false → i ≠ idx ∧ L.live i = false := by
    intro i unused
    by_cases same : i = idx
    · subst same
      simp [Ledger.publish] at unused
    · exact ⟨same, by simpa [Ledger.publish, same] using unused⟩
  refine ⟨sound.distinct, ?_, ?_, ?_, by simp, ?_⟩
  · intro i member
    obtain ⟨inside, unused, other⟩ := sound.inside i member
    have different : i ≠ idx := fun same => other (congrArg some same.symm)
    exact ⟨inside, by simpa [Ledger.publish, different] using unused, by simp⟩
  · intro i inside limited unused _
    obtain ⟨different, unused⟩ := others unused
    exact sound.complete i inside limited unused fun clash =>
      different (Option.some.inj clash).symm
  · intro i alive
    by_cases same : i = idx
    · exact same ▸ below
    · exact sound.below i (by simpa [Ledger.publish, same] using alive)
  · have added : (L.publish idx).liveSlots = insert idx L.liveSlots := by
      ext i
      rw [Finset.mem_insert, mem_liveSlots, mem_liveSlots]
      by_cases same : i = idx
      · subst same
        simp [Ledger.publish, below]
      · simp [Ledger.publish, same]
    have fresh : idx ∉ L.liveSlots := by simp [mem_liveSlots, dead]
    rw [added, Finset.card_insert_of_notMem fresh]
    change L.records + 1 = _
    rw [sound.counted]
    norm_cast

theorem Sound.retire (sound : Sound limit L none) (alive : L.live idx = true) :
    Sound limit (L.retire idx) none := by
  have below := sound.below idx alive
  refine ⟨?_, ?_, ?_, ?_, by simp, ?_⟩
  · refine List.nodup_cons.mpr ⟨fun member => ?_, sound.distinct⟩
    have unused := (sound.inside idx member).2.1
    rw [alive] at unused
    cases unused
  · intro i member
    rcases List.mem_cons.mp member with rfl | later
    · exact ⟨below, by simp [Ledger.retire], by simp⟩
    · obtain ⟨inside, unused, _⟩ := sound.inside i later
      refine ⟨inside, ?_, by simp⟩
      by_cases same : i = idx
      · subst same
        simp [Ledger.retire]
      · simpa [Ledger.retire, same] using unused
  · intro i inside limited unused _
    by_cases same : i = idx
    · subst same
      exact List.mem_cons_self ..
    · refine List.mem_cons_of_mem idx (sound.complete i inside limited ?_ (by simp))
      simpa [Ledger.retire, same] using unused
  · intro i alive'
    by_cases same : i = idx
    · exact same ▸ below
    · exact sound.below i (by simpa [Ledger.retire, same] using alive')
  · have removed : (L.retire idx).liveSlots = L.liveSlots.erase idx := by
      ext i
      rw [Finset.mem_erase, mem_liveSlots, mem_liveSlots]
      by_cases same : i = idx
      · subst same
        simp [Ledger.retire]
      · simp [Ledger.retire, same]
    have member : idx ∈ L.liveSlots := mem_liveSlots.mpr ⟨below, alive⟩
    have positive := Finset.card_pos.mpr ⟨idx, member⟩
    rw [removed, Finset.card_erase_of_mem member]
    change L.records + -1 = _
    rw [sound.counted]
    omega

theorem Sound.reset (L : Ledger) (limit : Nat) : Sound limit L.reset none := by
  refine ⟨?_, ?_, ?_, by simp [Ledger.reset], by simp, by simp [Ledger.reset, liveSlots]⟩
  · exact List.nodup_reverse.mpr List.nodup_range
  · intro i member
    have below : i < L.total := by simpa [Ledger.reset] using member
    exact ⟨below, rfl, by simp⟩
  · intro i below _ _ _
    simpa [Ledger.reset] using below

/-! ### The limit -/

theorem Limited.take (limited : Limited limit L none) (taken : L.take limit = some (idx, L')) :
    Limited limit L' (some idx) := by
  unfold Ledger.take at taken
  cases free : L.free with
  | cons first rest =>
      rw [free] at taken
      cases taken
      refine ⟨fun i member => limited.free i (free ▸ List.mem_cons_of_mem idx member),
        limited.live, ?_⟩
      intro i same
      cases same
      exact limited.free idx (free ▸ List.mem_cons_self ..)
  | nil =>
      rw [free] at taken
      by_cases full : limit ≤ L.total
      · simp [full] at taken
      · simp only [full, if_false, Option.some.injEq, Prod.mk.injEq] at taken
        obtain ⟨rfl, rfl⟩ := taken
        refine ⟨?_, limited.live, ?_⟩
        · intro i member
          simp only [grow, List.mem_range'_1] at member
          omega
        · intro i same
          cases same
          omega

theorem Limited.giveBack (limited : Limited limit L (some idx)) :
    Limited limit (L.giveBack idx) none := by
  refine ⟨?_, limited.live, by simp⟩
  intro i member
  rcases List.mem_cons.mp member with rfl | later
  · exact limited.aside i rfl
  · exact limited.free i later

theorem Limited.publish (limited : Limited limit L (some idx)) :
    Limited limit (L.publish idx) none := by
  refine ⟨limited.free, ?_, by simp⟩
  intro i alive
  by_cases same : i = idx
  · exact limited.aside i (congrArg some same.symm)
  · exact limited.live i (by simpa [Ledger.publish, same] using alive)

theorem Limited.retire (limited : Limited limit L none) (alive : L.live idx = true) :
    Limited limit (L.retire idx) none := by
  refine ⟨?_, ?_, by simp⟩
  · intro i member
    rcases List.mem_cons.mp member with rfl | later
    · exact limited.live i alive
    · exact limited.free i later
  · intro i alive'
    by_cases same : i = idx
    · exact limited.live i (same ▸ alive)
    · exact limited.live i (by simpa [Ledger.retire, same] using alive')

theorem Limited.reset (fits : L.total ≤ limit) : Limited limit L.reset none := by
  refine ⟨?_, by simp [Ledger.reset], by simp⟩
  intro i member
  have below : i < L.total := by simpa [Ledger.reset] using member
  omega

/-- Within the limit the counter cannot pass it, and shows it exactly when nothing is left to
take. -/
theorem Limited.records_le (sound : Sound limit L none) (limited : Limited limit L none) :
    L.records ≤ limit ∧ (L.records = limit ↔ L.free = [] ∧ limit ≤ L.total) := by
  have inside : L.liveSlots ⊆ Finset.range limit := by
    intro i member
    exact Finset.mem_range.mpr (limited.live i (mem_liveSlots.mp member).2)
  have most := Finset.card_le_card inside
  rw [Finset.card_range] at most
  have counted := sound.counted
  refine ⟨by omega, ?_⟩
  constructor
  · intro full
    have all : L.liveSlots = Finset.range limit := by
      refine Finset.eq_of_subset_of_card_le inside ?_
      rw [Finset.card_range]
      omega
    have alive : ∀ i, i < limit → i < L.total ∧ L.live i = true := by
      intro i below
      exact mem_liveSlots.mp (all ▸ Finset.mem_range.mpr below)
    refine ⟨List.eq_nil_iff_forall_not_mem.mpr fun i member => ?_, ?_⟩
    · have unused := (sound.inside i member).2.1
      rw [(alive i (limited.free i member)).2] at unused
      cases unused
    · by_contra short
      have last := (alive L.total (by omega)).1
      omega
  · rintro ⟨nothingFree, whole⟩
    have all : Finset.range limit ⊆ L.liveSlots := by
      intro i below
      rw [Finset.mem_range] at below
      by_contra dead
      have member := sound.complete i (by omega) below
        (by simpa [mem_liveSlots, show i < L.total by omega] using dead) (by simp)
      rw [nothingFree] at member
      cases member
    have least := Finset.card_le_card all
    rw [Finset.card_range] at least
    omega

end Ledger

/-! ### The ledger of a share -/

structure Books (s : Core n) (L : Ledger) : Prop where
  total : s.slotCount = L.total
  live : ∀ i, (s.slot i).state = .active ↔ L.live i = true
  free : FreeList s.cell L.free
  records : s.records = L.records

section Entries

variable {t : Nat} {s s' : Core n} {D : ShareDef n} {gran : Gran} {L : Ledger} {idx : Nat}

theorem Books.relinked (books : Books s L) (relinked : Relinked s s') : Books s' L := by
  obtain ⟨cell, rfl, same⟩ := relinked
  exact ⟨books.total, books.live, books.free.same same, books.records⟩

theorem Books.withOwner (books : Books s L) (owner : Lock → Option Nat) :
    Books { s with owner := owner } L :=
  ⟨books.total, books.live, books.free, books.records⟩

theorem Books.setSlot (books : Books s L) (idx : Nat) (slot : Slot n)
    (same : slot.state = (s.slot idx).state) : Books (s.setSlot idx slot) L := by
  refine ⟨books.total, fun i => ?_, books.free, books.records⟩
  by_cases here : i = idx
  · subst here
    rw [← books.live i, ← same]
    simp [Core.setSlot]
  · rw [← books.live i]
    simp [Core.setSlot, here]

theorem Books.fresh (garbage : Nat → Rec n) (heap : Heap) :
    Books (Core.fresh garbage heap) ⟨0, fun _ => false, [], 0⟩ := by
  refine ⟨Nat.zero_mul _, fun i => ?_, rfl, rfl⟩
  simp [Core.fresh]

theorem Books.pushFree {cell : Cell → Option Nat} {free : List Nat} (freelist : FreeList cell free)
    (fresh : idx ∉ free) : FreeList (pushFree cell idx) (idx :: free) :=
  Threaded.push freelist fresh freeNext_injective freeHead_outside

theorem allocSlot_books (books : Books s L) (sound : L.Sound D.maxRecords none)
    (unlocked : ∀ i, s.owner (.wlock i) = none) :
    ∃ slot mid, Runs t (fmCoreAllocSlot D) s slot mid ∧ mid.owner = s.owner ∧
      (∀ i, mid.slot i = s.slot i ∨
        L.total ≤ i ∧ mid.slot i = ⟨.free, 0, 0, (s.slot i).data⟩) ∧
      match slot with
      | some idx => ∃ L', L.take D.maxRecords = some (idx, L') ∧ Books mid L'
      | none => Books mid L ∧ L.free = [] ∧
          (L.total < D.maxRecords →
            grants s.heap.outcome s.heap.asked (keyBlocks D + 1) = false) := by
  have head : s.cell .freeHead = L.free.head? := Threaded.head_eq books.free
  have allocated : ∀ i, (s.slot i).state = .active → i < s.slotCount := by
    intro i active
    rw [books.total]
    exact sound.below i ((books.live i).mp active)
  cases free : L.free with
  | cons idx rest =>
      rw [free] at head
      refine ⟨some idx, s.setCell .freeHead (s.cell (.freeNext idx)), ?_, rfl,
        fun _ => Or.inl rfl, { L with free := rest }, by simp [Ledger.take, free], ?_⟩
      · refine runs_perform_bind rfl ?_
        rw [head]
        exact runs_perform_bind rfl (runs_perform_bind rfl (runs_pure (some idx) _))
      · have whole : Threaded s.cell Cell.freeNext .freeHead ([] ++ idx :: rest) :=
          free ▸ books.free
        exact ⟨books.total, books.live, whole.unlink freeNext_injective freeHead_outside,
          books.records⟩
  | nil =>
      rw [free] at head
      by_cases full : D.maxRecords ≤ L.total
      · refine ⟨none, s, ?_, rfl, fun _ => Or.inl rfl, books, rfl,
          fun room => absurd full (Nat.not_le.mpr room)⟩
        refine runs_perform_bind rfl ?_
        rw [head]
        refine runs_perform_bind rfl ?_
        change Runs t (if D.maxRecords ≤ s.slotCount then _ else _) _ _ _
        rw [books.total, if_pos full]
        exact runs_pure none s
      · have room : s.chunkCnt < D.chunkCap := by
          have capacity := D.chunkCap_eq
          have total := books.total
          unfold Core.slotCount fmChunkSize at total
          unfold fmChunkSize at capacity
          omega
        obtain ⟨s', prepared, grown⟩ := growChunk_runs (t := t) room
        have slots := prepared.slot
        rw [books.total] at slots
        have states : ∀ i, (s'.slot i).state = .active ↔ L.live i = true := fun i =>
          (prepared.state allocated i).1.trans (books.live i)
        have noneFree : FreeList s'.cell [] := prepared.freeHead.trans head
        by_cases granted : grants s.heap.outcome s.heap.asked (keyBlocks D + 1) = true
        · rw [if_pos granted] at grown
          obtain ⟨cell, freed, freelist, _⟩ := freeSlots_freed (t := t)
            (List.range' (s.slotCount + 1)
              (min (s.slotCount + fmChunkSize) D.maxRecords - (s.slotCount + 1))).reverse
            { s' with chunkCnt := s.chunkCnt + 1 } noneFree (by simp [List.nodup_range'])
            (by simp)
          rw [List.reverse_reverse, List.append_nil] at freelist
          refine ⟨some s.slotCount, { s' with chunkCnt := s.chunkCnt + 1, cell := cell }, ?_,
            prepared.owner_eq unlocked, slots, L.grow D.maxRecords, ?_, ?_⟩
          · refine runs_perform_bind rfl ?_
            rw [head]
            refine runs_perform_bind rfl ?_
            change Runs t (if D.maxRecords ≤ s.slotCount then _ else _) _ _ _
            rw [books.total, if_neg full, ← books.total]
            refine runs_bind grown ?_
            rw [if_neg (by simp)]
            exact runs_bind freed (runs_pure _ _)
          · simp [Ledger.take, free, full, books.total]
          · refine ⟨?_, states, ?_, prepared.records.trans books.records⟩
            · change (s.chunkCnt + 1) * fmChunkSize = L.total + fmChunkSize
              rw [Nat.add_one_mul, ← books.total]
              rfl
            · rw [books.total] at freelist
              exact freelist
        · rw [if_neg granted] at grown
          refine ⟨none, s', ?_, prepared.owner_eq unlocked, slots, ⟨?_, states, ?_,
            prepared.records.trans books.records⟩, rfl,
            fun _ => Bool.eq_false_of_not_eq_true granted⟩
          · refine runs_perform_bind rfl ?_
            rw [head]
            refine runs_perform_bind rfl ?_
            change Runs t (if D.maxRecords ≤ s.slotCount then _ else _) _ _ _
            rw [books.total, if_neg full]
            refine runs_bind grown ?_
            rw [if_pos (by simp)]
            exact runs_pure none _
          · unfold Core.slotCount
            rw [prepared.chunkCnt]
            exact books.total
          · rw [free]
            exact noneFree

def Ledger.Entry (limit : Nat) (L : Ledger) : (call : SerialCall n) → call.Res → Ledger → Prop
  | .insertRow _, .ok idx, L' => ∃ held, L.take limit = some (idx, held) ∧ L' = held.publish idx
  | .insertRow _, .error (.dupKey _), L' =>
      ∃ idx held, L.take limit = some (idx, held) ∧ L' = held.giveBack idx
  | .deleteRow idx _, .ok _, L' | .deleteRowLocked idx _, .ok _, L' =>
      L.live idx = true ∧ L' = L.retire idx
  | .clear, _, L' => L' = L.reset
  | _, _, L' => L' = L

theorem Ledger.Sound.entry {limit : Nat} {L' : Ledger} {call : SerialCall n} {result : call.Res}
    (sound : L.Sound limit none) (entry : L.Entry limit call result L') :
    L'.Sound limit none := by
  unfold Ledger.Entry at entry
  split at entry
  · obtain ⟨held, taken, rfl⟩ := entry
    exact (sound.take taken).publish
  · obtain ⟨idx, held, taken, rfl⟩ := entry
    exact (sound.take taken).giveBack
  · obtain ⟨alive, rfl⟩ := entry
    exact sound.retire alive
  · obtain ⟨alive, rfl⟩ := entry
    exact sound.retire alive
  · subst entry
    exact Ledger.Sound.reset L limit
  · subst entry
    exact sound

/-- Of all entries only a reset can leave the limit, and only when a chunk reaches above it. -/
theorem Ledger.Limited.entry {limit : Nat} {L' : Ledger} {call : SerialCall n}
    {result : call.Res} (limited : L.Limited limit none)
    (fits : call = .clear → L.total ≤ limit) (entry : L.Entry limit call result L') :
    L'.Limited limit none := by
  unfold Ledger.Entry at entry
  split at entry
  · obtain ⟨held, taken, rfl⟩ := entry
    exact (limited.take taken).publish
  · obtain ⟨idx, held, taken, rfl⟩ := entry
    exact (limited.take taken).giveBack
  · obtain ⟨alive, rfl⟩ := entry
    exact limited.retire alive
  · obtain ⟨alive, rfl⟩ := entry
    exact limited.retire alive
  · subst entry
    exact Ledger.Limited.reset (fits rfl)
  · subst entry
    exact limited

theorem Books.update {new : Rec n} {result : Except Err Unit} (books : Books s L)
    (framed : UpdateFrame s idx new result s') : Books s' L := by
  cases result with
  | ok _ => exact (books.setSlot idx ((s.slot idx).rewritten new) rfl).relinked framed
  | error e =>
      rw [show s' = s from framed]
      exact books

theorem Books.delete {g : UInt32} {result : Except Err Unit} (books : Books s L)
    (sound : L.Sound D.maxRecords none) (framed : DeleteFrame s idx g result s') :
    ∃ L', (match result with
      | .ok _ => L.live idx = true ∧ L' = L.retire idx
      | .error _ => L' = L) ∧ Books s' L' := by
  cases result with
  | error e =>
      obtain ⟨_, _, rfl⟩ := framed
      exact ⟨L, rfl, books⟩
  | ok _ =>
      obtain ⟨live, cell, same, rfl⟩ := framed
      have alive := (books.live idx).mp live.1
      refine ⟨L.retire idx, ⟨alive, rfl⟩, books.total, fun i => ?_, ?_, ?_⟩
      · by_cases here : i = idx
        · subst here
          simp [Core.setSlot, Slot.retired, Ledger.retire]
        · simpa [Core.setSlot, Ledger.retire, here] using books.live i
      · refine Books.pushFree (books.free.same same) fun member => ?_
        have unused := (sound.inside idx member).2.1
        rw [alive] at unused
        cases unused
      · exact congrArg (· + -1) books.records

theorem Books.clear {cell : Cell → Option Nat} (books : Books s L)
    (sound : L.Sound D.maxRecords none)
    (freelist : FreeList cell (List.range s.slotCount).reverse) :
    Books { s with
      slot := fun i => if i < s.slotCount then (s.slot i).cleared else s.slot i
      cell := cell
      records := 0 } L.reset := by
  refine ⟨books.total, fun i => ?_, ?_, rfl⟩
  · have dead : ¬ L.reset.live i = true := by simp [Ledger.reset]
    refine iff_of_false (fun active => ?_) dead
    by_cases below : i < s.slotCount
    · simp [below, Slot.cleared] at active
    · simp only [if_neg below] at active
      exact below (books.total ▸ sound.below i ((books.live i).mp active))
  · rw [books.total] at freelist
    exact freelist

theorem Books.insert {rec : Rec n} {result : Except Err Nat} {L' : Ledger}
    (books : Books s L') (sound : L'.Sound D.maxRecords (some idx))
    (framed : InsertFrame D rec (some idx) s result s') :
    (∃ errkey, result = .error (.dupKey errkey)) ∧ Books s' (L'.giveBack idx) ∨
      result = .ok idx ∧ Books s' (L'.publish idx) := by
  obtain ⟨cell, same, ⟨refused, rfl⟩ | ⟨accepted, rfl⟩⟩ := framed
  · have filled := books.setSlot idx ((s.slot idx).withData rec) rfl
    refine Or.inl ⟨refused, filled.total, filled.live, ?_, filled.records⟩
    refine Books.pushFree (books.free.same same) fun member => ?_
    exact (sound.inside idx member).2.2 rfl
  · refine Or.inr ⟨accepted, books.total, fun i => ?_, books.free.same same, ?_⟩
    · by_cases here : i = idx
      · subst here
        simp [Core.setSlot, Ledger.publish]
      · simpa [Core.setSlot, Ledger.publish, here] using books.live i
    · exact congrArg (· + 1) books.records

theorem scanPass_reads : (scanPass (n := n) gran).Performs Act.reads := by
  refine .iterate fun state => ?_
  refine .bind (.step trivial fun cnt => .iterate fun pos => ?_) fun outcome => ?_
  · unfold scanRound
    split
    · refine (readRow_reads pos false 0).bind fun row => ?_
      cases row with
      | ok buf => exact .ret _
      | error e => exact .ret _
    · exact .ret _
  · obtain ⟨pos', row⟩ := outcome
    cases row with
    | ok buf => exact .ret _
    | error e => exact .ret _

theorem findWalk_reads (key : Nat) (test : Rec n → Bool) (head : Option Nat) :
    (iterate head (findRound gran key test)).Performs Act.reads := by
  refine .iterate fun h => ?_
  cases h with
  | none => exact .ret _
  | some idx =>
      refine (readPassing_reads idx _).bind fun row => ?_
      cases row with
      | some buf => exact .ret _
      | none => exact .step trivial fun _ => .ret _

theorem find_inv {key : Nat} {packed : PackedKey} {result : Except Err (Nat × Rec n)}
    (ran : Runs t (fmCoreFind D gran key packed) s result s') : s' = s := by
  obtain ⟨_, _, taken, ran⟩ := runs_perform_inv ran
  obtain ⟨free, rfl⟩ := exec_lock_inv taken
  obtain ⟨_, _, loaded, ran⟩ := runs_perform_inv ran
  cases loaded
  obtain ⟨found, _, walked, ran⟩ := runs_bind_inv ran
  rw [reads_unchanged (findWalk_reads key _ _) walked] at ran
  obtain ⟨_, _, released, ran⟩ := runs_perform_inv ran
  cases released
  obtain ⟨rfl, rfl⟩ := runs_pure_inv ran
  exact setOwner_release free

theorem withRowLock_inv {α : Type} {call : CoreProg n α} {result : α}
    (ran : Runs t (withRowLock idx call) s result s') :
    s.owner (.wlock idx) = none ∧ ∃ mid,
      Runs t call (s.setOwner (.wlock idx) (some t)) result mid ∧
        s' = mid.setOwner (.wlock idx) none := by
  obtain ⟨_, _, taken, ran⟩ := runs_perform_inv ran
  obtain ⟨free, rfl⟩ := exec_lock_inv taken
  obtain ⟨value, mid, called, ran⟩ := runs_bind_inv ran
  obtain ⟨_, _, released, ran⟩ := runs_perform_inv ran
  cases released
  obtain ⟨rfl, rfl⟩ := runs_pure_inv ran
  exact ⟨free, mid, called, rfl⟩

theorem UpdateFrame.underLock {new : Rec n} {result : Except Err Unit} {mid : Core n}
    (free : s.owner (.wlock idx) = none)
    (framed : UpdateFrame (s.setOwner (.wlock idx) (some t)) idx new result mid) :
    UpdateFrame s idx new result (mid.setOwner (.wlock idx) none) := by
  cases result with
  | ok _ =>
      obtain ⟨cell, rfl, same⟩ := framed
      refine ⟨cell, ?_, same⟩
      exact release_cell (s := s.setSlot idx ((s.slot idx).rewritten new)) free
  | error e =>
      rw [show mid = s.setOwner (.wlock idx) (some t) from framed]
      exact setOwner_release free

theorem DeleteFrame.underLock {g : UInt32} {result : Except Err Unit} {mid : Core n}
    (free : s.owner (.wlock idx) = none)
    (framed : DeleteFrame (s.setOwner (.wlock idx) (some t)) idx g result mid) :
    DeleteFrame s idx g result (mid.setOwner (.wlock idx) none) := by
  cases result with
  | ok _ =>
      obtain ⟨live, cell, same, rfl⟩ := framed
      refine ⟨live, cell, same, ?_⟩
      exact setOwner_release (s := { s.setSlot idx (s.slot idx).retired with
        cell := pushFree cell idx, records := s.records + -1 }) free
  | error e =>
      obtain ⟨deleted, stale, rfl⟩ := framed
      exact ⟨deleted, stale, setOwner_release free⟩

theorem UpdateFrame.owner {new : Rec n} {result : Except Err Unit}
    (framed : UpdateFrame s idx new result s') : s'.owner = s.owner := by
  cases result with
  | ok _ =>
      obtain ⟨cell, rfl, _⟩ := framed
      rfl
  | error e => exact congrArg Core.owner framed

theorem DeleteFrame.owner {g : UInt32} {result : Except Err Unit}
    (framed : DeleteFrame s idx g result s') : s'.owner = s.owner := by
  cases result with
  | ok _ =>
      obtain ⟨_, cell, _, rfl⟩ := framed
      rfl
  | error e => exact congrArg Core.owner framed.2.2

theorem InsertFrame.owner {rec : Rec n} {slot : Option Nat} {result : Except Err Nat}
    (framed : InsertFrame D rec slot s result s') : s'.owner = s.owner := by
  cases slot with
  | none => exact congrArg Core.owner framed.2
  | some idx => obtain ⟨cell, _, ⟨_, rfl⟩ | ⟨_, rfl⟩⟩ := framed <;> rfl

theorem insert_books {rec : Rec n} {result : Except Err Nat} (books : Books s L)
    (sound : L.Sound D.maxRecords none) (quiet : Quiet s)
    (ran : Runs t (fmCoreInsertRow D gran rec) s result s') :
    ∃ slot mid, Quiet mid ∧ (∀ i, mid.slot i = s.slot i ∨
        L.total ≤ i ∧ mid.slot i = ⟨.free, 0, 0, (s.slot i).data⟩) ∧
      InsertFrame D rec slot mid result s' ∧
      match slot with
      | some idx => ∃ held, L.take D.maxRecords = some (idx, held) ∧ Books mid held
      | none => Books mid L ∧ L.free = [] := by
  obtain ⟨free, slot, mid, allocated, framed⟩ := insertRow_inv ran
  have slotsFree : ∀ i, (s.setOwner .structMutex (some t)).owner (.wlock i) = none := fun i =>
    (owner_setOwner_of_ne (by simp)).trans (quiet _)
  obtain ⟨slot', mid', allocated', owner, slots, outcome⟩ := allocSlot_books (t := t)
    (s := s.setOwner .structMutex (some t)) (books.withOwner _) sound slotsFree
  obtain ⟨rfl, rfl⟩ := Exec.deterministic allocated allocated'
  refine ⟨slot, mid.setOwner .structMutex none, ?_, slots, framed, ?_⟩
  · intro l
    rw [release_kept free owner]
    exact quiet l
  · cases slot with
    | some idx =>
        obtain ⟨held, taken, books'⟩ := outcome
        exact ⟨held, taken, books'.withOwner _⟩
    | none => exact ⟨outcome.1.withOwner _, outcome.2.1⟩

/-- Slot and key numbers are those the table has. Unlike `SerialCall.Allowed` this leaves the
old record of an update to the caller. -/
def SerialCall.InRange (D : ShareDef n) (s : Core n) : SerialCall n → Prop
  | .updateRow idx _ _ _ | .updateRowLocked idx _ _ _ | .deleteRow idx _
  | .deleteRowLocked idx _ | .readRow idx _ => idx < s.slotCount
  | .find key _ => key < D.keys
  | .insertRow _ | .clear | .scan => True

/-- Every call that returns is one entry, and leaves all locks free. -/
theorem call_books {call : SerialCall n} {result : call.Res} (books : Books s L)
    (sound : L.Sound D.maxRecords none) (quiet : Quiet s)
    (ran : Runs t (call.program D gran) s result s') :
    ∃ L', L.Entry D.maxRecords call result L' ∧ Books s' L' ∧ Quiet s' := by
  have bucketsFree : ∀ idx k b,
      (s.setOwner (.wlock idx) (some t)).owner (.bucket k b) = none := fun idx k b =>
    (owner_setOwner_of_ne (by simp)).trans (quiet _)
  cases call with
  | insertRow rec =>
      obtain ⟨slot, mid, quiet', _, framed, outcome⟩ := insert_books books sound quiet ran
      have quiet'' : Quiet s' := fun l => framed.owner ▸ quiet' l
      cases slot with
      | none =>
          obtain ⟨rfl, rfl⟩ := framed
          refine ⟨L, ?_, outcome.1, quiet''⟩
          split <;> rfl
      | some idx =>
          obtain ⟨held, taken, books'⟩ := outcome
          rcases books'.insert (sound.take taken) framed with
            ⟨⟨errkey, rfl⟩, refused⟩ | ⟨rfl, accepted⟩
          · exact ⟨held.giveBack idx, ⟨idx, held, taken, rfl⟩, refused, quiet''⟩
          · exact ⟨held.publish idx, ⟨held, taken, rfl⟩, accepted, quiet''⟩
  | updateRow idx g old new =>
      obtain ⟨_, framed⟩ := updateRow_inv quiet ran
      refine ⟨L, ?_, books.update framed, fun l => framed.owner ▸ quiet l⟩
      cases result <;> rfl
  | updateRowLocked idx g old new =>
      obtain ⟨free, mid, inner, rfl⟩ := withRowLock_inv ran
      have framed := (updateRowLocked_inv (bucketsFree idx) inner).2.underLock free
      refine ⟨L, ?_, books.update framed, fun l => framed.owner ▸ quiet l⟩
      cases result <;> rfl
  | deleteRow idx g =>
      have framed := deleteRow_inv ran
      obtain ⟨L', entry, books'⟩ := books.delete sound framed
      refine ⟨L', ?_, books', fun l => framed.owner ▸ quiet l⟩
      cases result <;> exact entry
  | deleteRowLocked idx g =>
      obtain ⟨free, mid, inner, rfl⟩ := withRowLock_inv ran
      have framed := (deleteRowLocked_inv inner).underLock free
      obtain ⟨L', entry, books'⟩ := books.delete sound framed
      refine ⟨L', ?_, books', fun l => framed.owner ▸ quiet l⟩
      cases result <;> exact entry
  | clear =>
      obtain ⟨cell, freelist, rfl⟩ := clear_inv (fun i => quiet _) ran
      exact ⟨L.reset, rfl, books.clear sound freelist, quiet⟩
  | readRow idx g =>
      obtain rfl := reads_unchanged (readRow_reads idx true g) ran
      exact ⟨L, rfl, books, quiet⟩
  | find key packed =>
      obtain rfl := find_inv ran
      exact ⟨L, rfl, books, quiet⟩
  | scan =>
      obtain rfl := reads_unchanged scanPass_reads ran
      exact ⟨L, rfl, books, quiet⟩

end Entries

/-! ### Runs of calls -/

structure CallStep (n : Nat) where
  before : Core n
  call : SerialCall n
  result : call.Res
  after : Core n

/-- Calls one after another on a share; nothing is promised about old records. -/
inductive CallRun (D : ShareDef n) (gran : Gran) (start : Core n) :
    List (CallStep n) → Core n → Prop
  | nil : CallRun D gran start [] start
  | snoc {steps : List (CallStep n)} {s s' : Core n} {t : Nat} {call : SerialCall n}
      {result : call.Res} (before : CallRun D gran start steps s) (inRange : call.InRange D s)
      (ran : Runs t (call.program D gran) s result s') :
      CallRun D gran start (steps ++ [⟨s, call, result, s'⟩]) s'

section Runs

variable {D : ShareDef n} {gran : Gran} {garbage : Nat → Rec n} {heap : Heap}
  {steps : List (CallStep n)} {s : Core n}

theorem CallRun.books (run : CallRun D gran (Core.fresh garbage heap) steps s) :
    Quiet s ∧ ∃ L, Books s L ∧ L.Sound D.maxRecords none := by
  induction run with
  | nil =>
      refine ⟨fun _ => rfl, _, Books.fresh garbage heap, ?_⟩
      constructor <;> simp [Ledger.liveSlots]
  | snoc _ _ ran ih =>
      obtain ⟨quiet, L, books, sound⟩ := ih
      obtain ⟨L', entry, books', quiet'⟩ := call_books books sound quiet ran
      exact ⟨quiet', L', books', sound.entry entry⟩

def CallStep.ClearsWithin (D : ShareDef n) (step : CallStep n) : Prop :=
  step.call = .clear → step.before.slotCount ≤ D.maxRecords

theorem CallRun.limited (run : CallRun D gran (Core.fresh garbage heap) steps s)
    (within : ∀ step ∈ steps, step.ClearsWithin D) :
    ∃ L, Books s L ∧ L.Sound D.maxRecords none ∧ L.Limited D.maxRecords none := by
  induction run with
  | nil =>
      refine ⟨_, Books.fresh garbage heap, ?_, ?_⟩
      · constructor <;> simp [Ledger.liveSlots]
      · constructor <;> simp
  | snoc before _ ran ih =>
      obtain ⟨L, books, sound, limited⟩ := ih fun step member =>
        within step (List.mem_append_left _ member)
      obtain ⟨L', entry, books', _⟩ := call_books books sound before.books.1 ran
      refine ⟨L', books', sound.entry entry, limited.entry ?_ entry⟩
      rw [← books.total]
      exact within _ (List.mem_append_right _ (List.mem_singleton_self _))

theorem insert_full_iff {t : Nat} {s' : Core n} {L : Ledger} {rec : Rec n}
    {result : Except Err Nat} (books : Books s L) (sound : L.Sound D.maxRecords none)
    (limited : L.Limited D.maxRecords none) (quiet : Quiet s)
    (ran : Runs t (fmCoreInsertRow D gran rec) s result s') :
    result = .error .full ↔ s.records = D.maxRecords := by
  rw [books.records, (limited.records_le sound).2]
  obtain ⟨slot, mid, _, _, framed, outcome⟩ := insert_books books sound quiet ran
  cases slot with
  | none =>
      obtain ⟨rfl, rfl⟩ := framed
      obtain ⟨books', nothingFree⟩ := outcome
      have total := books'.total
      have capacity := D.chunkCap_eq
      unfold Core.slotCount fmChunkSize at total
      unfold fmChunkSize at capacity
      by_cases full : D.chunkCap ≤ s'.chunkCnt
      · rw [if_pos full]
        exact iff_of_true rfl ⟨nothingFree, by omega⟩
      · rw [if_neg full]
        refine iff_of_false (by simp) fun both => full ?_
        have whole := both.2
        omega
  | some idx =>
      obtain ⟨held, taken, books'⟩ := outcome
      have notFull : result ≠ .error .full := by
        rcases books'.insert (sound.take taken) framed with ⟨⟨_, rfl⟩, _⟩ | ⟨rfl, _⟩ <;> simp
      refine iff_of_false notFull fun both => ?_
      simp [Ledger.take, both.1, both.2] at taken

theorem insert_at_limit (t : Nat) {L : Ledger} (rec : Rec n) (books : Books s L)
    (sound : L.Sound D.maxRecords none) (limited : L.Limited D.maxRecords none) (quiet : Quiet s)
    (full : s.records = D.maxRecords) :
    Runs t (fmCoreInsertRow D gran rec) s (.error .full) s := by
  rw [books.records, (limited.records_le sound).2] at full
  obtain ⟨nothingFree, whole⟩ := full
  have total := books.total
  have head : s.cell .freeHead = none := by
    have freelist := books.free
    rw [nothingFree] at freelist
    exact freelist
  have capacity := D.chunkCap_eq
  have capped : D.chunkCap ≤ s.chunkCnt := by
    unfold Core.slotCount fmChunkSize at total
    unfold fmChunkSize at capacity
    omega
  have allocated : Runs t (fmCoreAllocSlot D) (s.setOwner .structMutex (some t)) none
      (s.setOwner .structMutex (some t)) := by
    refine runs_perform_bind rfl ?_
    change Runs t (match s.cell .freeHead with | some _ => _ | none => _) _ _ _
    rw [head]
    refine runs_perform_bind rfl ?_
    change Runs t (if D.maxRecords ≤ s.slotCount then _ else _) _ _ _
    rw [books.total, if_pos whole]
    exact runs_pure none _
  refine runs_perform_bind (exec_lock (quiet _)) (runs_bind allocated ?_)
  refine runs_perform_bind rfl (runs_perform_bind rfl ?_)
  rw [setOwner_release (quiet _), if_pos capped]
  exact runs_pure _ s

end Runs

/-- In every run whose clears all find the chunks within the row limit, the limit holds and is
reported exactly when it is reached. -/
theorem callRun_limit (D : ShareDef n) (gran : Gran) (garbage : Nat → Rec n) (heap : Heap)
    (steps : List (CallStep n)) (s : Core n)
    (run : CallRun D gran (Core.fresh garbage heap) steps s)
    (within : ∀ step ∈ steps, step.ClearsWithin D) :
    s.records ≤ D.maxRecords ∧ (∀ i, (s.slot i).state = .active → i < D.maxRecords) ∧
      ∀ t rec,
        (s.records = D.maxRecords → Runs t (fmCoreInsertRow D gran rec) s (.error .full) s) ∧
        ∀ result s', Runs t (fmCoreInsertRow D gran rec) s result s' →
          (result = .error .full ↔ s.records = D.maxRecords) := by
  obtain ⟨L, books, sound, limited⟩ := run.limited within
  have quiet := run.books.1
  refine ⟨?_, fun i active => limited.live i ((books.live i).mp active), fun t rec =>
    ⟨insert_at_limit t rec books sound limited quiet, fun result s' ran =>
      insert_full_iff books sound limited quiet ran⟩⟩
  rw [books.records]
  exact (limited.records_le sound).1

/-- A run that clears the table before any chunk is there, and then inserts a row. -/
theorem callRun_limit_byteTable : ∃ steps s, CallRun byteTable .whole byteStart steps s ∧
    steps.length = 2 ∧ (∀ step ∈ steps, step.ClearsWithin byteTable) ∧
      s.records ≤ byteTable.maxRecords := by
  let seven : SerialCall 1 := .insertRow fun _ => 7
  obtain ⟨first, s₁, ran₁, rep₁, quiet₁, _⟩ := call_runs (t := 0) .whole byteTable_hashes
    (Rep.fresh byteTable _ _) (fun _ => rfl) .clear trivial
  obtain ⟨second, s₂, ran₂, _⟩ := call_runs (t := 0) .whole byteTable_hashes rep₁ quiet₁
    seven trivial
  have run : CallRun byteTable .whole byteStart
      ([] ++ [⟨byteStart, .clear, first, s₁⟩] ++ [⟨s₁, seven, second, s₂⟩]) s₂ :=
    (CallRun.nil.snoc (show SerialCall.clear.InRange byteTable byteStart from trivial) ran₁).snoc
      (show seven.InRange byteTable s₁ from trivial) ran₂
  have within : ∀ step ∈ ([] ++ [⟨byteStart, .clear, first, s₁⟩] ++ [⟨s₁, seven, second, s₂⟩] :
      List (CallStep 1)), step.ClearsWithin byteTable := by
    intro step member clears
    rcases List.mem_append.mp member with earlier | later
    · rw [List.mem_singleton.mp earlier]
      change byteStart.slotCount ≤ byteTable.maxRecords
      decide
    · rw [List.mem_singleton.mp later] at clears
      cases clears
  exact ⟨_, s₂, run, rfl, within, (callRun_limit byteTable .whole _ _ _ _ run within).1⟩

/-- A run that clears a table whose only chunk reaches above the limit of four rows: the next
insert is given slot 4095. -/
theorem callRun_limit_broken : ¬ ∀ (steps : List (CallStep 1)) (s : Core 1),
    CallRun byteTable .whole byteStart steps s →
      s.records ≤ byteTable.maxRecords ∧ ∀ i, (s.slot i).state = .active →
        i < byteTable.maxRecords := by
  intro claim
  let seven : SerialCall 1 := .insertRow fun _ => 7
  obtain ⟨first, s₁, _, inserted, rep₁, quiet₁, _⟩ := byteTable_takesSeven
    (Rep.fresh byteTable _ _) (fun _ => rfl) rfl byteStart_room
  have ran₁ : Runs 0 (seven.program byteTable .whole) byteStart (.ok first) s₁ := inserted
  obtain ⟨s₂, ran₂, rep₂, quiet₂, empty⟩ := clear_runs (t := 0) rep₁ quiet₁
  have sound₀ : Ledger.Sound byteTable.maxRecords ⟨0, fun _ => false, [], 0⟩ none := by
    constructor <;> simp [Ledger.liveSlots]
  obtain ⟨L₁, entry₁, books₁, _⟩ := call_books (Books.fresh _ _) sound₀ (fun _ => rfl) ran₁
  obtain ⟨held, taken, rfl⟩ := entry₁
  have ranClear : Runs 0 (SerialCall.clear.program byteTable .whole) s₁ () s₂ := ran₂
  obtain ⟨L₂, entry₂, books₂, _⟩ := call_books books₁ (sound₀.take taken).publish quiet₁ ranClear
  have whole : held.total = 4096 := by
    simp only [Ledger.take, byteTable, fmCoreInitShare] at taken
    cases taken
    rfl
  have free₂ : L₂.free = 4095 :: (List.range 4095).reverse := by
    rw [show L₂ = (held.publish first).reset from entry₂]
    change (List.range held.total).reverse = _
    rw [whole, show List.range 4096 = List.range 4095 ++ [4095] from List.range_succ,
      List.reverse_append, List.reverse_singleton, List.singleton_append]
  have room : canAlloc byteTable s₂ := by
    have freelist := books₂.free
    rw [free₂] at freelist
    exact Or.inl (by rw [freelist.1]; simp)
  obtain ⟨second, s₃, _, insertedAgain, _⟩ := byteTable_takesSeven rep₂ quiet₂ empty room
  have ran₃ : Runs 0 (seven.program byteTable .whole) s₂ (.ok second) s₃ := insertedAgain
  obtain ⟨L₃, entry₃, books₃, _⟩ := call_books books₂
    (Ledger.Sound.entry ((sound₀.take taken).publish) entry₂) quiet₂ ran₃
  obtain ⟨held₃, taken₃, rfl⟩ := entry₃
  have last : second = 4095 := by
    simp only [Ledger.take, free₂] at taken₃
    cases taken₃
    rfl
  have run : CallRun byteTable .whole byteStart (([] ++ [⟨byteStart, seven, .ok first, s₁⟩]) ++
      [⟨s₁, .clear, (), s₂⟩] ++ [⟨s₂, seven, .ok second, s₃⟩]) s₃ :=
    ((CallRun.nil.snoc (show seven.InRange byteTable byteStart from trivial) ran₁).snoc
      (show SerialCall.clear.InRange byteTable s₁ from trivial) ranClear).snoc
      (show seven.InRange byteTable s₂ from trivial) ran₃
  have active : (s₃.slot second).state = .active := (books₃.live second).mpr (by
    simp [Ledger.publish])
  have below := (claim _ s₃ run).2 second active
  rw [last] at below
  exact absurd below (by decide)

end Fastmem
