/-
The bucket locks of a key-changing update, action by action.

The array of (key, bucket) pairs is collected with possible repetitions, sorted,
and locked and unlocked with one test for repetitions. Read off the actions of a
run: the locks are exactly the old and new buckets of the changed keys, in
ascending order, each taken once and released once, and no chain cell is touched
outside a bucket that is held.
-/

import Fastmem.SerialTrace
import Fastmem.Core.LockedPaths

set_option autoImplicit false

namespace Fastmem

open Prog (perform iterate forEach foldEach Performs)
open Machine

variable {n : Nat} {α β : Type} {t idx : Nat} {s s' : Core n} {D : ShareDef n} {gran : Gran}

/-! ### The array of locks -/

section LockArray

variable {old new : Rec n}

/-- The entries that the test `j == 0 || lockset[j] != lockset[j - 1]` selects. -/
def selected (pairs : List (Nat × Nat)) : List (Nat × Nat) :=
  (List.range pairs.length).filterMap fun j =>
    if j = 0 ∨ pairs[j]? ≠ pairs[j - 1]? then pairs[j]? else none

theorem collectLockset_length (changed : List Nat) :
    (collectLockset D old new changed).length ≤ 2 * changed.length := by
  unfold collectLockset
  suffices general : ∀ collected : List (Nat × Nat),
      (changed.foldl (fun lockset k =>
        lockset ++ (if (k, fmCoreKeyBucket (D.keydef k) new) ∈ lockset then []
          else [(k, fmCoreKeyBucket (D.keydef k) new)]) ++
          (if (k, fmCoreKeyBucket (D.keydef k) old) ∈ lockset then []
            else [(k, fmCoreKeyBucket (D.keydef k) old)])) collected).length ≤
        collected.length + 2 * changed.length by
    have all := general []
    simpa using all
  induction changed with
  | nil =>
      intro collected
      simp
  | cons first rest ih =>
      intro collected
      rw [List.foldl_cons]
      refine Nat.le_trans (ih _) ?_
      rw [List.length_append, List.length_append, List.length_cons]
      split <;> split <;> simp <;> omega

private def selectedAfter (prev : Nat × Nat) (pairs : List (Nat × Nat)) : List (Nat × Nat) :=
  (List.range pairs.length).filterMap fun j =>
    if pairs[j]? ≠ (prev :: pairs)[j]? then pairs[j]? else none

private theorem selectedAfter_cons (prev pair : Nat × Nat) (rest : List (Nat × Nat)) :
    selectedAfter prev (pair :: rest) =
      if pair = prev then selectedAfter pair rest else pair :: selectedAfter pair rest := by
  unfold selectedAfter
  rw [List.length_cons, List.range_succ_eq_map, List.filterMap_cons, List.filterMap_map]
  by_cases same : pair = prev <;> simp [same]

private theorem firstEntries_cons (pair : Nat × Nat) (rest : List (Nat × Nat)) :
    firstEntries (pair :: rest) = pair :: selectedAfter pair rest := by
  induction rest generalizing pair with
  | nil => rfl
  | cons again rest ih =>
      rw [firstEntries, ih, selectedAfter_cons]
      by_cases same : pair = again
      · rw [if_pos same, if_pos same.symm, same]
      · rw [if_neg same, if_neg (Ne.symm same)]

theorem firstEntries_selected (pairs : List (Nat × Nat)) : firstEntries pairs = selected pairs := by
  cases pairs with
  | nil => rfl
  | cons pair rest =>
      rw [firstEntries_cons]
      unfold selected selectedAfter
      rw [List.length_cons, List.range_succ_eq_map, List.filterMap_cons, List.filterMap_map]
      simp

/-- The locks of a key change: exactly the buckets concerned, in ascending order by key and
bucket, out of an array that stays within its bounds. -/
structure LockArray (D : ShareDef n) (old new : Rec n) (pairs : List (Nat × Nat)) : Prop where
  coded : pairs =
    selected (sortLockset (collectLockset D old new (changedKeys D old new)))
  bounded : (collectLockset D old new (changedKeys D old new)).length ≤ 2 * fmMaxChangedKeys
  exact_ : ∀ k b, (k, b) ∈ pairs ↔
    k < D.keys ∧ (D.keydef k).ops.cmpRecRec old new ≠ 0 ∧
      (b = fmCoreKeyBucket (D.keydef k) old ∨ b = fmCoreKeyBucket (D.keydef k) new)
  ascending : pairs.Pairwise fun p q => p.1 < q.1 ∨ (p.1 = q.1 ∧ p.2 < q.2)

theorem lockset_array (D : ShareDef n) (old new : Rec n) :
    LockArray D old new (lockset D old new (changedKeys D old new)) where
  coded := firstEntries_selected _
  bounded := by
    refine Nat.le_trans (collectLockset_length _) (Nat.mul_le_mul_left 2 ?_)
    exact List.length_take_le ..
  exact_ k b := by
    rw [mem_lockset]
    constructor
    · rintro ⟨k', changed, same⟩
      obtain ⟨valid, unequal⟩ := mem_changedKeys.mp changed
      rcases same with same | same <;> cases same
      · exact ⟨valid, unequal, Or.inr rfl⟩
      · exact ⟨valid, unequal, Or.inl rfl⟩
    · rintro ⟨valid, unequal, rfl | rfl⟩
      · exact ⟨k, mem_changedKeys.mpr ⟨valid, unequal⟩, Or.inr rfl⟩
      · exact ⟨k, mem_changedKeys.mpr ⟨valid, unequal⟩, Or.inl rfl⟩
  ascending := by
    refine (lockset_strict D old new _).imp_of_mem fun {p q} first second below => ?_
    exact (lockRank_lt (lockset_small first) (lockset_small second)).mp below

end LockArray

/-! ### Events -/

abbrev CoreEvent (n : Nat) := (coreMachine n).Event

/-- The program, run alone, performs these actions and returns. -/
abbrev Traces (t : Nat) (program : CoreProg n α) (s : Core n) (events : List (CoreEvent n))
    (result : α) (s' : Core n) : Prop :=
  Traced (coreMachine n) t program s events result s'

theorem traces_perform_inv {ρ : Type} {action : Act n ρ} {f : ρ → CoreProg n α} {answer : α}
    {events : List (CoreEvent n)} (ran : Traces t (perform action >>= f) s events answer s') :
    ∃ result mid later, Act.exec t action s = some (result, mid) ∧
      Traces t (f result) mid later answer s' ∧ events = ⟨ρ, action, s⟩ :: later :=
  Traced.perform_bind_inv (M := coreMachine n) ran

theorem traces_bind_inv {program : CoreProg n β} {f : β → CoreProg n α} {answer : α}
    {events : List (CoreEvent n)} (ran : Traces t (program >>= f) s events answer s') :
    ∃ value mid first second, Traces t program s first value mid ∧
      Traces t (f value) mid second answer s' ∧ events = first ++ second :=
  Traced.bind_inv (M := coreMachine n) ran

def InBucket (s : Core n) (k b i : Nat) : Prop :=
  ∃ items, Threaded s.cell (Cell.next k) (.head k b) items ∧ i ∈ items

/-- The cell is in a bucket that the thread holds. The link of the updated slot between its two
chains counts for the new one. -/
def CellHeld (D : ShareDef n) (new : Rec n) (t idx : Nat) (s : Core n) : Cell → Prop
  | .head k b => s.owner (.bucket k b) = some t
  | .next k i => ∃ b, s.owner (.bucket k b) = some t ∧
      (InBucket s k b i ∨ i = idx ∧ b = fmCoreKeyBucket (D.keydef k) new ∧
        ∀ b', ¬ InBucket s k b' i)
  | .freeHead | .freeNext _ => False

def Act.touched {ρ : Type} : Act n ρ → Option Cell
  | .loadCell cell | .storeCell cell _ => some cell
  | _ => none

def Act.lockedBucket {ρ : Type} : Act n ρ → Option (Nat × Nat)
  | .lock (.bucket k b) => some (k, b)
  | _ => none

def Act.unlockedBucket {ρ : Type} : Act n ρ → Option (Nat × Nat)
  | .unlock (.bucket k b) => some (k, b)
  | _ => none

/-- Link cells are loaded and stored in held buckets only. -/
def Guarded (D : ShareDef n) (new : Rec n) (t idx : Nat) (event : CoreEvent n) : Prop :=
  ∀ cell, Act.touched event.action = some cell → CellHeld D new t idx event.before cell

def lockedBucket (event : CoreEvent n) : Option (Nat × Nat) := Act.lockedBucket event.action

def unlockedBucket (event : CoreEvent n) : Option (Nat × Nat) := Act.unlockedBucket event.action

/-- The run takes these bucket locks in this order, releases them in the reverse order, and
touches chain cells under them only. -/
structure Disciplined (D : ShareDef n) (new : Rec n) (t idx : Nat) (pairs : List (Nat × Nat))
    (events : List (CoreEvent n)) : Prop where
  acquired : events.filterMap lockedBucket = pairs
  released : events.filterMap unlockedBucket = pairs.reverse
  guarded : ∀ event ∈ events, Guarded D new t idx event

def Inside (D : ShareDef n) (new : Rec n) (t idx : Nat) (event : CoreEvent n) : Prop :=
  lockedBucket event = none ∧ unlockedBucket event = none ∧ Guarded D new t idx event

def Act.elsewhere (ρ : Type) (action : Act n ρ) : Prop :=
  action.lockedBucket = none ∧ action.unlockedBucket = none ∧ action.touched = none

section Inside

variable {new : Rec n} {events later : List (CoreEvent n)}

theorem inside_of_elsewhere {event : CoreEvent n} (kind : Act.elsewhere event.Res event.action) :
    Inside D new t idx event := by
  refine ⟨kind.1, kind.2.1, fun cell touched => ?_⟩
  rw [kind.2.2] at touched
  cases touched

theorem inside_append (first : ∀ event ∈ events, Inside D new t idx event)
    (second : ∀ event ∈ later, Inside D new t idx event) :
    ∀ event ∈ events ++ later, Inside D new t idx event := by
  intro event member
  rcases List.mem_append.mp member with member | member
  · exact first event member
  · exact second event member

theorem inside_cons {event : CoreEvent n} (first : Inside D new t idx event)
    (second : ∀ event ∈ later, Inside D new t idx event) :
    ∀ other ∈ event :: later, Inside D new t idx other :=
  List.forall_mem_cons.mpr ⟨first, second⟩

theorem Disciplined.of_inside (inside : ∀ event ∈ events, Inside D new t idx event) :
    Disciplined D new t idx [] events where
  acquired := List.filterMap_eq_nil_iff.mpr fun event member => (inside event member).1
  released := List.filterMap_eq_nil_iff.mpr fun event member => (inside event member).2.1
  guarded event member := (inside event member).2.2

structure Closing (D : ShareDef n) (new : Rec n) (t idx : Nat) (pairs : List (Nat × Nat))
    (events : List (CoreEvent n)) : Prop where
  acquired : events.filterMap lockedBucket = []
  released : events.filterMap unlockedBucket = pairs.reverse
  guarded : ∀ event ∈ events, Guarded D new t idx event

theorem Closing.after {pairs : List (Nat × Nat)}
    (inside : ∀ event ∈ events, Inside D new t idx event)
    (closing : Closing D new t idx pairs later) : Closing D new t idx pairs (events ++ later) where
  acquired := by
    rw [List.filterMap_append, (Disciplined.of_inside inside).acquired, closing.acquired]
    rfl
  released := by
    rw [List.filterMap_append, (Disciplined.of_inside inside).released, closing.released]
    rfl
  guarded := List.forall_mem_append.mpr ⟨fun event member => (inside event member).2.2,
    closing.guarded⟩

theorem Closing.step {pairs : List (Nat × Nat)} {event : CoreEvent n}
    (inside : Inside D new t idx event) (closing : Closing D new t idx pairs later) :
    Closing D new t idx pairs (event :: later) :=
  Closing.after (inside_cons inside (List.forall_mem_nil _)) closing

theorem Disciplined.after {pairs : List (Nat × Nat)}
    (inside : ∀ event ∈ events, Inside D new t idx event)
    (disciplined : Disciplined D new t idx pairs later) :
    Disciplined D new t idx pairs (events ++ later) where
  acquired := by
    rw [List.filterMap_append, (Disciplined.of_inside inside).acquired, disciplined.acquired]
    rfl
  released := by
    rw [List.filterMap_append, (Disciplined.of_inside inside).released, disciplined.released]
    rfl
  guarded := List.forall_mem_append.mpr ⟨fun event member => (inside event member).2.2,
    disciplined.guarded⟩

/-! ### The loops over the locks -/

theorem Disciplined.locked {pairs : List (Nat × Nat)} {result : Unit}
    (ran : Traces t (lockBuckets pairs) s events result s')
    (closing : Closing D new t idx pairs later) :
    Disciplined D new t idx pairs (events ++ later) := by
  have taken : events.filterMap lockedBucket = pairs ∧ events.filterMap unlockedBucket = [] ∧
      ∀ event ∈ events, Guarded D new t idx event := by
    clear closing
    induction pairs generalizing s events with
    | nil =>
        obtain ⟨rfl, _⟩ := ran.ret_inv
        exact ⟨rfl, rfl, nofun⟩
    | cons pair rest ih =>
        obtain ⟨_, _, _, _, after, rfl⟩ := traces_perform_inv ran
        obtain ⟨locks, unlocks, guarded⟩ := ih after
        exact ⟨congrArg (pair :: ·) locks, unlocks, List.forall_mem_cons.mpr ⟨nofun, guarded⟩⟩
  constructor
  · rw [List.filterMap_append, taken.1, closing.acquired, List.append_nil]
  · rw [List.filterMap_append, taken.2.1, closing.released]
    rfl
  · exact List.forall_mem_append.mpr ⟨taken.2.2, closing.guarded⟩

theorem Closing.unlocked {pairs : List (Nat × Nat)} {result : Unit}
    (ran : Traces t (unlockBuckets pairs) s events result s') :
    Closing D new t idx pairs (events ++ []) := by
  rw [List.append_nil]
  unfold unlockBuckets at ran
  suffices given : events.filterMap lockedBucket = [] ∧
      events.filterMap unlockedBucket = pairs.reverse ∧
      ∀ event ∈ events, Guarded D new t idx event from ⟨given.1, given.2.1, given.2.2⟩
  generalize pairs.reverse = items at ran ⊢
  induction items generalizing s events with
  | nil =>
      obtain ⟨rfl, _⟩ := ran.ret_inv
      exact ⟨rfl, rfl, nofun⟩
  | cons pair rest ih =>
      obtain ⟨_, _, _, _, after, rfl⟩ := traces_perform_inv ran
      obtain ⟨locks, unlocks, guarded⟩ := ih after
      exact ⟨locks, congrArg (pair :: ·) unlocks, List.forall_mem_cons.mpr ⟨nofun, guarded⟩⟩

/-! ### Chain work in held buckets -/

theorem Placed.inBucket {place : Places} (placed : Placed s.cell place) {k b i : Nat} :
    InBucket s k b i ↔ place k i = some b := by
  obtain ⟨chain, chains, members⟩ := placed
  constructor
  · rintro ⟨items, threaded, member⟩
    rw [threaded.unique (chains.threaded k b), members] at member
    exact member
  · intro home
    exact ⟨chain k b, chains.threaded k b, (members k b i).mpr home⟩

theorem inside_of_cell {event : CoreEvent n} {cell : Cell}
    (locks : lockedBucket event = none) (unlocks : unlockedBucket event = none)
    (touched : Act.touched event.action = some cell)
    (held : CellHeld D new t idx event.before cell) : Inside D new t idx event := by
  refine ⟨locks, unlocks, fun other also => ?_⟩
  obtain rfl : cell = other := Option.some.inj (touched.symm.trans also)
  exact held

theorem Act.readsSlot.elsewhere (ρ : Type) (action : Act n ρ) (kind : Act.readsSlot ρ action) :
    Act.elsewhere ρ action := by
  cases action <;> first | exact ⟨rfl, rfl, rfl⟩ | cases kind

theorem readPassing_inside {i : Nat} {test : Rec n → Bool} {row : Option (Rec n)}
    (ran : Traces t (readPassing gran i test) s events row s') :
    ∀ event ∈ events, Inside D new t idx event := fun event member =>
  inside_of_elsewhere
    (ran.performs ((readPassing_readsSlot i test).mono Act.readsSlot.elsewhere) event member)

theorem dupCheck_inside {k b : Nat} {rec : Rec n} {dup : Bool} {place : Places}
    (placed : Placed s.cell place) (held : s.owner (.bucket k b) = some t)
    (ran : Traces t (fmCoreDupCheck D gran k b rec) s events dup s') :
    ∀ event ∈ events, Inside D new t idx event := by
  unfold fmCoreDupCheck at ran
  dsimp only at ran
  split at ran
  · obtain ⟨chain, chains, _⟩ := placed
    obtain ⟨head, mid, later, loaded, walked, rfl⟩ :=
      traces_perform_inv ran
    cases loaded
    refine inside_cons (inside_of_cell rfl rfl rfl held) ?_
    -- the walk is at the end of the chain or at one of its slots
    refine Traced.iterate_all (Inside D new t idx)
      (fun h mid => mid = s ∧ ∃ before after, chain k b = before ++ after ∧ h = after.head?)
      ?_ ⟨rfl, [], chain k b, rfl, ?_⟩ walked
    · rintro h _ events outcome mid ⟨rfl, before, after, split, rfl⟩ round
      have threaded := chains.threaded k b
      rw [split] at threaded
      cases after with
      | nil =>
          obtain ⟨rfl, rfl, _⟩ := round.ret_inv
          exact ⟨nofun, nofun⟩
      | cons i rest =>
          obtain ⟨row, _, first, second, read, round, rfl⟩ :=
            traces_bind_inv round
          obtain rfl := reads_unchanged (readPassing_reads i _) read.exec
          have reading : ∀ event ∈ first, Inside D new t idx event := readPassing_inside read
          cases row with
          | some buf =>
              obtain ⟨rfl, rfl, _⟩ := round.ret_inv
              exact ⟨inside_append reading nofun, nofun⟩
          | none =>
              obtain ⟨_, _, rest', loaded, round, rfl⟩ :=
                traces_perform_inv round
              cases loaded
              obtain ⟨rfl, rfl, rfl⟩ := round.ret_inv
              have member : i ∈ chain k b := by
                rw [split]
                exact List.mem_append_right _ (List.mem_cons_self ..)
              have atLink : CellHeld D new t idx mid (.next k i) :=
                ⟨b, held, Or.inl ⟨_, chains.threaded k b, member⟩⟩
              refine ⟨inside_append reading (inside_cons (inside_of_cell rfl rfl rfl atLink) nofun),
                ?_⟩
              intro again same
              cases same
              refine ⟨rfl, before ++ [i], rest, ?_, threaded.next_eq⟩
              rw [split, List.append_assoc]
              rfl
    · exact (chains.threaded k b).head_eq
  · obtain ⟨rfl, _⟩ := ran.ret_inv
    nofun

theorem dupCheckChanged_inside {changed : List Nat} {rec : Rec n} {dup : Option Nat}
    {place : Places} (placed : Placed s.cell place)
    (held : ∀ k ∈ changed, s.owner (.bucket k (fmCoreKeyBucket (D.keydef k) rec)) = some t)
    (ran : Traces t (dupCheckChanged D gran rec changed) s events dup s') :
    ∀ event ∈ events, Inside D new t idx event := by
  induction changed generalizing events with
  | nil =>
      obtain ⟨rfl, _⟩ := ran.ret_inv
      nofun
  | cons k rest ih =>
      obtain ⟨dup', _, first, second, checked, after, rfl⟩ :=
        traces_bind_inv ran
      obtain rfl := reads_unchanged (dupCheck_reads k _ rec) checked.exec
      refine inside_append (dupCheck_inside placed (held k (List.mem_cons_self ..)) checked) ?_
      split at after
      · obtain ⟨rfl, _⟩ := after.ret_inv
        nofun
      · exact ih (fun k' member => held k' (List.mem_cons_of_mem k member)) after

theorem cellHeld_after {chain : ChainLists} {k b : Nat} {before after : List Nat}
    (chains : Chains s.cell chain) (held : s.owner (.bucket k b) = some t)
    (split : chain k b = before ++ after) :
    CellHeld D new t idx s (cellAfter (Cell.next k) (.head k b) before) := by
  cases before with
  | nil => exact held
  | cons first rest =>
      obtain ⟨last, member, same⟩ := cellAfter_mem (Cell.next k) first rest
      change CellHeld D new t idx s (cellAfter (Cell.next k) (Cell.next k first) rest)
      rw [same]
      refine ⟨b, held, Or.inl ⟨_, chains.threaded k b, ?_⟩⟩
      rw [split]
      exact List.mem_append_left _ member

theorem chainUnlink_inside {k b i : Nat} {result : Except Err Unit} {place : Places}
    (placed : Placed s.cell place) (held : s.owner (.bucket k b) = some t)
    (ran : Traces t (fmCoreChainUnlink k b i) s events result s') :
    ∀ event ∈ events, Inside D new t idx event := by
  obtain ⟨chain, chains, _⟩ := placed
  -- the walk is at the cell past some part of the chain
  refine Traced.iterate_all (Inside D new t idx) (fun link mid => mid = s ∧ ∃ before after,
    chain k b = before ++ after ∧ link = cellAfter (Cell.next k) (.head k b) before)
    ?_ ⟨rfl, [], chain k b, rfl, rfl⟩ ran
  rintro link s events outcome mid ⟨rfl, before, after, split, rfl⟩ round
  have threaded := chains.threaded k b
  rw [split] at threaded
  have atLink : CellHeld D new t idx s (cellAfter (Cell.next k) (.head k b) before) :=
    cellHeld_after chains held split
  obtain ⟨pointed, _, later, loaded, round, rfl⟩ :=
    traces_perform_inv round
  cases loaded
  rw [threaded.suffix.head_eq] at round
  cases after with
  | nil =>
      obtain ⟨rfl, rfl, _⟩ := round.ret_inv
      exact ⟨inside_cons (inside_of_cell rfl rfl rfl atLink) nofun, nofun⟩
  | cons h rest =>
      have member : h ∈ chain k b := by
        rw [split]
        exact List.mem_append_right _ (List.mem_cons_self ..)
      by_cases here : h = i
      · subst here
        simp only [List.head?_cons, if_true] at round
        obtain ⟨_, _, _, loaded, round, rfl⟩ := traces_perform_inv round
        cases loaded
        obtain ⟨_, _, _, stored, round, rfl⟩ := traces_perform_inv round
        cases stored
        obtain ⟨rfl, rfl, _⟩ := round.ret_inv
        refine ⟨inside_cons (inside_of_cell rfl rfl rfl atLink) (inside_cons (inside_of_cell rfl rfl
          rfl ?_) (inside_cons (inside_of_cell rfl rfl rfl atLink) nofun)), nofun⟩
        exact ⟨b, held, Or.inl ⟨_, chains.threaded k b, member⟩⟩
      · simp only [List.head?_cons, if_neg here] at round
        obtain ⟨rfl, rfl, rfl⟩ := round.ret_inv
        refine ⟨inside_cons (inside_of_cell rfl rfl rfl atLink) nofun, fun again same => ?_⟩
        cases same
        refine ⟨rfl, before ++ [h], rest, ?_, (cellAfter_append ..).symm⟩
        rw [split, List.append_assoc]
        rfl

theorem chainLink_inside {k : Nat} {result : Unit} {place : Places}
    (placed : Placed s.cell place) (loose : place k idx = none)
    (held : s.owner (.bucket k (fmCoreKeyBucket (D.keydef k) new)) = some t)
    (ran : Traces t (fmCoreChainLink k (fmCoreKeyBucket (D.keydef k) new) idx) s
      events result s') :
    ∀ event ∈ events, Inside D new t idx event := by
  obtain ⟨_, _, _, loaded, ran, rfl⟩ := traces_perform_inv ran
  cases loaded
  obtain ⟨_, _, _, stored, ran, rfl⟩ := traces_perform_inv ran
  cases stored
  obtain ⟨_, rfl⟩ := Traced.perform_inv (M := coreMachine n) ran
  refine inside_cons (inside_of_cell rfl rfl rfl held) (inside_cons (inside_of_cell rfl rfl rfl ?_)
    (inside_cons (inside_of_cell rfl rfl rfl held) nofun))
  refine ⟨_, held, Or.inr ⟨rfl, rfl, fun b' chained => ?_⟩⟩
  rw [placed.inBucket, loose] at chained
  cases chained

theorem relinkChanged_inside {old : Rec n} {changed : List Nat} {result : Unit} {place : Places}
    (ran : Traces t (relinkChanged D old new idx changed) s events result s')
    (placed : Placed s.cell place) (distinct : changed.Nodup)
    (homes : ∀ k ∈ changed, place k idx = some (fmCoreKeyBucket (D.keydef k) old))
    (heldOld : ∀ k ∈ changed, s.owner (.bucket k (fmCoreKeyBucket (D.keydef k) old)) = some t)
    (heldNew : ∀ k ∈ changed, s.owner (.bucket k (fmCoreKeyBucket (D.keydef k) new)) = some t) :
    ∀ event ∈ events, Inside D new t idx event := by
  induction changed generalizing s events place with
  | nil =>
      obtain ⟨rfl, _⟩ := ran.ret_inv
      nofun
  | cons k rest ih =>
      obtain ⟨_, _, first, second, moved, after, rfl⟩ := traces_bind_inv ran
      obtain ⟨_, _, walk, link, unlinked, linked, rfl⟩ :=
        traces_bind_inv moved
      have here : k ∈ k :: rest := List.mem_cons_self ..
      obtain ⟨cell, unlinked', placed₁, _⟩ := chainUnlink_placed (t := t) placed (homes k here)
      obtain ⟨_, rfl⟩ := unlinked.exec.deterministic unlinked'
      have loose : setPlace place k idx none k idx = none := if_pos ⟨rfl, rfl⟩
      obtain ⟨cell', linked', placed₂, _⟩ := chainLink_placed (t := t)
        (b := fmCoreKeyBucket (D.keydef k) new) (s := { s with cell := cell }) placed₁ loose
      obtain ⟨_, rfl⟩ := linked.exec.deterministic linked'
      refine inside_append (inside_append (chainUnlink_inside placed (heldOld k here) unlinked)
        (chainLink_inside (s := { s with cell := cell }) placed₁ loose (heldNew k here) linked)) ?_
      refine ih after placed₂ (List.nodup_cons.mp distinct).2 (fun k' member => ?_)
        (fun k' member => heldOld k' (List.mem_cons_of_mem k member))
        (fun k' member => heldNew k' (List.mem_cons_of_mem k member))
      have other : ¬ (k' = k ∧ idx = idx) := by
        rintro ⟨rfl, _⟩
        exact (List.nodup_cons.mp distinct).1 member
      unfold setPlace
      rw [if_neg other, if_neg other]
      exact homes k' (List.mem_cons_of_mem k member)

/-! ### Whole updates -/

theorem rowLock {i : Nat} : Inside D new t idx ⟨Unit, .lock (.wlock i), s⟩ :=
  inside_of_elsewhere ⟨rfl, rfl, rfl⟩

theorem rowUnlock {i : Nat} : Inside D new t idx ⟨Unit, .unlock (.wlock i), s⟩ :=
  inside_of_elsewhere ⟨rfl, rfl, rfl⟩

theorem slotStale_inside {i : Nat} {g : UInt32} {stale : Bool}
    (ran : Traces t (slotStale i g) s events stale s') :
    ∀ event ∈ events, Inside D new t idx event := fun event member =>
  inside_of_elsewhere
    (ran.performs ((slotStale_readsSlot i g).mono Act.readsSlot.elsewhere) event member)

theorem writeImage_elsewhere (i : Nat) (rec : Rec n) :
    (fmCoreWriteImage gran i rec).Performs Act.elsewhere := by
  have copied : (memcpyIn gran i rec).Performs Act.elsewhere := by
    cases gran with
    | whole => exact .perform ⟨rfl, rfl, rfl⟩
    | bytewise => exact .forEach fun _ _ => .perform ⟨rfl, rfl, rfl⟩
  exact .step ⟨rfl, rfl, rfl⟩ fun _ => copied.bind fun _ => .perform ⟨rfl, rfl, rfl⟩

theorem writeImage_inside {i : Nat} {rec : Rec n} {result : Unit}
    (ran : Traces t (fmCoreWriteImage gran i rec) s events result s') :
    ∀ event ∈ events, Inside D new t idx event := fun event member =>
  inside_of_elsewhere (ran.performs (writeImage_elsewhere i rec) event member)

end Inside

section Update

variable {old new : Rec n} {g : UInt32} {events : List (CoreEvent n)} {result : Except Err Unit}

theorem holdBuckets_held (owner : Lock → Option Nat) {k b : Nat} (changed : k ∈ changedKeys D old new)
    (concerned : b = fmCoreKeyBucket (D.keydef k) old ∨ b = fmCoreKeyBucket (D.keydef k) new) :
    holdBuckets t (lockset D old new (changedKeys D old new)) owner (.bucket k b) = some t := by
  obtain ⟨valid, unequal⟩ := mem_changedKeys.mp changed
  have member := ((lockset_array D old new).exact_ k b).mpr ⟨valid, unequal, concerned⟩
  exact if_pos (List.contains_iff_mem.mpr member)

theorem homes_old (live : liveAt s idx g) (current : liveAt s idx g → (s.slot idx).data = old)
    {k : Nat} (changed : k ∈ changedKeys D old new) :
    homes D s k idx = some (fmCoreKeyBucket (D.keydef k) old) := by
  unfold homes
  rw [if_pos ⟨(mem_changedKeys.mp changed).1, live.1⟩, current live]

theorem updateRow_disciplined (rep : Rep D s none) (free : ∀ k b, s.owner (.bucket k b) = none)
    (current : liveAt s idx g → (s.slot idx).data = old)
    (ran : Traces t (fmCoreUpdateRow D gran idx g old new) s events result s') :
    Disciplined D new t idx (lockset D old new (changedKeys D old new)) events := by
  unfold fmCoreUpdateRow at ran
  by_cases unchanged : changedKeys D old new = []
  · rw [if_pos unchanged] at ran
    rw [unchanged]
    refine Disciplined.of_inside fun event member => inside_of_elsewhere (ran.performs ?_ event member)
    refine .step ⟨rfl, rfl, rfl⟩ fun _ => ?_
    refine ((slotStale_readsSlot idx g).mono Act.readsSlot.elsewhere).bind fun stale => ?_
    split
    · exact .step ⟨rfl, rfl, rfl⟩ fun _ => .ret _
    · exact (writeImage_elsewhere idx new).bind fun _ => .step ⟨rfl, rfl, rfl⟩ fun _ => .ret _
  · rw [if_neg unchanged] at ran
    obtain ⟨_, _, taken, _, locked, ran₁, rfl⟩ := traces_bind_inv ran
    obtain rfl := lockBuckets_inv (lockset_nodup ..) free locked.exec
    obtain ⟨dup, _, checks, _, checked, ran₂, rfl⟩ := traces_bind_inv ran₁
    obtain rfl := reads_unchanged (dupCheckChanged_reads new _) checked.exec
    have checking : ∀ event ∈ checks, Inside D new t idx event :=
      dupCheckChanged_inside (s := { s with owner := holdBuckets t _ s.owner }) rep.placed
        (fun k changed => holdBuckets_held s.owner changed (Or.inr rfl)) checked
    cases dup with
    | some k =>
        obtain ⟨_, _, given, _, unlocked, ended, rfl⟩ :=
          traces_bind_inv ran₂
        obtain ⟨rfl, _⟩ := ended.ret_inv
        exact .locked locked (.after checking (.unlocked unlocked))
    | none =>
        obtain ⟨_, _, _, lockedRow, ran₃, rfl⟩ :=
          traces_perform_inv ran₂
        obtain ⟨_, rfl⟩ := exec_lock_inv lockedRow
        obtain ⟨stale, _, tests, _, tested, ran₄, rfl⟩ :=
          traces_bind_inv ran₃
        obtain ⟨staleIff, rfl⟩ := slotStale_inv tested.exec
        have testing : ∀ event ∈ tests, Inside D new t idx event := slotStale_inside tested
        by_cases live : liveAt s idx g
        · have fresh : stale = false := by
            rw [staleIff, Bool.not_eq_false', decide_eq_true_eq]
            exact live
          rw [fresh, if_neg Bool.false_ne_true] at ran₄
          obtain ⟨_, _, writes, _, written, ran₅, rfl⟩ := traces_bind_inv ran₄
          obtain rfl := writeImage_inv written.exec
          obtain ⟨_, _, moves, _, moved, ran₆, rfl⟩ := traces_bind_inv ran₅
          obtain ⟨_, _, _, _, ran₇, rfl⟩ := traces_perform_inv ran₆
          obtain ⟨_, _, given, _, unlocked, ended, rfl⟩ := traces_bind_inv ran₇
          obtain ⟨rfl, _⟩ := ended.ret_inv
          have held : ∀ k b, k ∈ changedKeys D old new →
              (b = fmCoreKeyBucket (D.keydef k) old ∨ b = fmCoreKeyBucket (D.keydef k) new) →
              Function.update (holdBuckets t (lockset D old new (changedKeys D old new)) s.owner)
                (.wlock idx) (some t) (.bucket k b) = some t := fun k b changed concerned =>
            (Function.update_of_ne (by simp) ..).trans (holdBuckets_held s.owner changed concerned)
          have moving : ∀ event ∈ moves, Inside D new t idx event :=
            relinkChanged_inside moved rep.placed (changedKeys_nodup D old new)
              (fun k changed => homes_old live current changed)
              (fun k changed => held k _ changed (Or.inl rfl))
              (fun k changed => held k _ changed (Or.inr rfl))
          exact .locked locked (.after checking (.step rowLock (.after testing
            (.after (writeImage_inside written) (.after moving
              (.step rowUnlock (.unlocked unlocked)))))))
        · have stale : stale = true := by
            rw [staleIff, Bool.not_eq_true', decide_eq_false_iff_not]
            exact live
          rw [stale, if_pos rfl] at ran₄
          obtain ⟨_, _, _, _, ran₅, rfl⟩ := traces_perform_inv ran₄
          obtain ⟨_, _, given, _, unlocked, ended, rfl⟩ := traces_bind_inv ran₅
          obtain ⟨rfl, _⟩ := ended.ret_inv
          exact .locked locked (.after checking (.step rowLock (.after testing
            (.step rowUnlock (.unlocked unlocked)))))

theorem updateRowLocked_disciplined (rep : Rep D s none)
    (free : ∀ k b, s.owner (.bucket k b) = none)
    (current : liveAt s idx g → (s.slot idx).data = old)
    (ran : Traces t (fmCoreUpdateRowLocked D gran idx g old new) s events result s') :
    Disciplined D new t idx
      (if liveAt s idx g then lockset D old new (changedKeys D old new) else []) events := by
  obtain ⟨stale, s, tests, _, tested, ran₁, rfl⟩ := traces_bind_inv ran
  obtain ⟨staleIff, rfl⟩ := slotStale_inv tested.exec
  have testing : ∀ event ∈ tests, Inside D new t idx event := slotStale_inside tested
  by_cases live : liveAt s idx g
  · have fresh : stale = false := by
      rw [staleIff, Bool.not_eq_false', decide_eq_true_eq]
      exact live
    rw [if_pos live]
    rw [fresh, if_neg Bool.false_ne_true] at ran₁
    by_cases unchanged : changedKeys D old new = []
    · rw [if_pos unchanged] at ran₁
      obtain ⟨_, _, writes, _, written, ended, rfl⟩ := traces_bind_inv ran₁
      obtain ⟨rfl, _⟩ := ended.ret_inv
      rw [unchanged]
      refine Disciplined.of_inside (inside_append testing ?_)
      exact inside_append (writeImage_inside written) (List.forall_mem_nil _)
    · rw [if_neg unchanged] at ran₁
      obtain ⟨_, _, taken, _, locked, ran₂, rfl⟩ := traces_bind_inv ran₁
      obtain rfl := lockBuckets_inv (lockset_nodup ..) free locked.exec
      obtain ⟨dup, _, checks, _, checked, ran₃, rfl⟩ := traces_bind_inv ran₂
      obtain rfl := reads_unchanged (dupCheckChanged_reads new _) checked.exec
      have checking : ∀ event ∈ checks, Inside D new t idx event :=
        dupCheckChanged_inside (s := { s with owner := holdBuckets t _ s.owner }) rep.placed
          (fun k changed => holdBuckets_held s.owner changed (Or.inr rfl)) checked
      cases dup with
      | some k =>
          obtain ⟨_, _, given, _, unlocked, ended, rfl⟩ := traces_bind_inv ran₃
          obtain ⟨rfl, _⟩ := ended.ret_inv
          exact .after testing (.locked locked (.after checking (.unlocked unlocked)))
      | none =>
          obtain ⟨_, _, writes, _, written, ran₄, rfl⟩ := traces_bind_inv ran₃
          obtain rfl := writeImage_inv written.exec
          obtain ⟨_, _, moves, _, moved, ran₅, rfl⟩ := traces_bind_inv ran₄
          obtain ⟨_, _, given, _, unlocked, ended, rfl⟩ := traces_bind_inv ran₅
          obtain ⟨rfl, _⟩ := ended.ret_inv
          have moving : ∀ event ∈ moves, Inside D new t idx event :=
            relinkChanged_inside moved rep.placed (changedKeys_nodup D old new)
              (fun k changed => homes_old live current changed)
              (fun k changed => holdBuckets_held s.owner changed (Or.inl rfl))
              (fun k changed => holdBuckets_held s.owner changed (Or.inr rfl))
          exact .after testing (.locked locked (.after checking (.after (writeImage_inside written)
            (.after moving (.unlocked unlocked)))))
  · have refused : stale = true := by
      rw [staleIff, Bool.not_eq_true', decide_eq_false_iff_not]
      exact live
    rw [if_neg live]
    rw [refused, if_pos rfl] at ran₁
    obtain ⟨rfl, _⟩ := ran₁.ret_inv
    exact Disciplined.of_inside (inside_append testing (List.forall_mem_nil _))

end Update

/-- A run that takes and releases these locks, leaves every lock as it was, and changes nothing
when it reports an error. -/
def LocksBalanced (D : ShareDef n) (new : Rec n) (t idx : Nat) (s : Core n) (pairs : List (Nat × Nat))
    (program : CoreProg n (Except Err Unit)) : Prop :=
  ∃ events result s', Traces t program s events result s' ∧
    Disciplined D new t idx pairs events ∧ s'.owner = s.owner ∧
    ∀ e, result = .error e → s' = s

/-- The bucket locks of a key change are exactly those of the buckets concerned, taken in
ascending order and released on every exit, and all chain work is done under them. The call
that finds its slot locked by its caller returns before the key change when the row is gone. -/
theorem updateLocks_balanced (D : ShareDef n) (gran : Gran) (hashes : HashesAgree D) (s : Core n)
    (rep : Rep D s none) (t idx : Nat) (g : UInt32) (old new : Rec n)
    (current : liveAt s idx g → (s.slot idx).data = old) :
    LockArray D old new (lockset D old new (changedKeys D old new)) ∧
      (Quiet s → LocksBalanced D new t idx s (lockset D old new (changedKeys D old new))
        (fmCoreUpdateRow D gran idx g old new)) ∧
      ((∀ l, s.owner l = if l = .wlock idx then some t else none) →
        LocksBalanced D new t idx s
          (if liveAt s idx g then lockset D old new (changedKeys D old new) else [])
          (fmCoreUpdateRowLocked D gran idx g old new)) := by
  refine ⟨lockset_array D old new, fun quiet => ?_, fun holding => ?_⟩
  · obtain ⟨result, s', ran, _, quiet', _⟩ := updateRow_runs (t := t) gran new hashes rep quiet
      fun active gen => current ⟨active, gen⟩
    obtain ⟨events, traced⟩ := Exec.traced (M := coreMachine n) ran
    refine ⟨events, result, s', traced, updateRow_disciplined rep (fun k b => quiet _) current traced,
      ?_, ?_⟩
    · funext l
      exact (quiet' l).trans (quiet l).symm
    · rintro e rfl
      exact (updateRow_inv quiet ran).2
  · have free : ∀ k b, s.owner (.bucket k b) = none := fun k b =>
      (holding _).trans (if_neg (by simp))
    obtain ⟨result, s', ran, _, kept, _⟩ := updateRowLocked_runs (t := t) gran new hashes rep free
      fun active gen => current ⟨active, gen⟩
    obtain ⟨events, traced⟩ := Exec.traced (M := coreMachine n) ran
    refine ⟨events, result, s', traced, updateRowLocked_disciplined rep free current traced, kept, ?_⟩
    rintro e rfl
    exact (updateRowLocked_inv free ran).2

/-- The row 2 of the rows 0 and 2 becomes 3: bucket 0 and bucket 1 are locked in this order. -/
theorem updateLocks_balanced_evenRows :
    LocksBalanced byteTable (fun _ => 3) 0 1 evenRows [(0, 0), (0, 1)]
      (fmCoreUpdateRow byteTable .whole 1 0 (fun _ => 2) fun _ => 3) :=
  (updateLocks_balanced byteTable .whole byteTable_hashes evenRows evenRows_rep 0 1 0
    (fun _ => 2) (fun _ => 3) fun _ => rfl).2.1 fun _ => rfl

end Fastmem
