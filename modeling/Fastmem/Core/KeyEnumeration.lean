/-
Enumeration of the rows that match a packed key.

A lookup finds the first match in its chain; each continued lookup walks the
chain again from its head and returns the next match behind the slot returned
last. Repeated until nothing is found, the lookups return every matching row
once, in chain order. Packed keys match records of their own bucket only.
-/

import Fastmem.Core.SerialRuns

set_option autoImplicit false

namespace Fastmem

open Prog (perform iterate)
open Machine

variable {n : Nat}

/-- fm_core_find, then fm_core_find_next from the slot returned last until it fails: what the
successful calls returned. -/
def findAll (D : ShareDef n) (gran : Gran) (key : Nat) (packed : PackedKey) :
    CoreProg n (List (Nat × Rec n)) := do
  let first ← fmCoreFind D gran key packed
  match first with
  | .error _ => return []
  | .ok found =>
      iterate (found.1, [found]) fun (cur, returned) => do
        let next ← fmCoreFindNext D gran key packed (some cur)
        match next with
        | .error _ => return .inr returned
        | .ok found => return .inl (found.1, returned ++ [found])

/-- The lookups return the matching rows, each once and in chain order. -/
structure Enumerates (D : ShareDef n) (s : Core n) (key : Nat) (packed : PackedKey)
    (returned : List (Nat × Rec n)) : Prop where
  ordered : ∃ items, Threaded s.cell (Cell.next key)
      (.head key (fmBucket (D.keydef key) ((D.keydef key).ops.hashKey packed))) items ∧
    (returned.map Prod.fst).Sublist items
  once : (returned.map Prod.fst).Nodup
  exactly : ∀ i rec, (i, rec) ∈ returned ↔ (s.slot i).state = .active ∧ (s.slot i).data = rec ∧
    (D.keydef key).ops.cmpRecKey rec packed = 0
  counted : returned.length = ((activeSlots s).filter fun i =>
    (D.keydef key).ops.cmpRecKey (s.slot i).data packed = 0).card

section Lookups

variable {D : ShareDef n} {gran : Gran} {s : Core n} {t key : Nat} {packed : PackedKey}

def Core.imageAt (s : Core n) (i : Nat) : Nat × Rec n := (i, (s.slot i).data)

theorem findOutcome_cases (s : Core n) (test : Rec n → Bool) (items : List Nat) :
    (findOutcome s test items = .error .notFound ∧ items.filter (passes s test) = []) ∨
      ∃ skipped i rest, items = skipped ++ i :: rest ∧
        findOutcome s test items = .ok (s.imageAt i) ∧
        items.filter (passes s test) = i :: rest.filter (passes s test) := by
  cases found : items.find? (passes s test) with
  | none =>
      refine Or.inl ⟨findOutcome_none found, List.filter_eq_nil_iff.mpr ?_⟩
      exact List.find?_eq_none.mp found
  | some i =>
      obtain ⟨passed, skipped, rest, split, missed⟩ := List.find?_eq_some_iff_append.mp found
      have none : skipped.filter (passes s test) = [] :=
        List.filter_eq_nil_iff.mpr fun j member hit => by simpa [hit] using missed j member
      refine Or.inr ⟨skipped, i, rest, split, findOutcome_some found, ?_⟩
      rw [split, List.filter_append, none, List.nil_append, List.filter_cons_of_pos passed]

theorem findRest_runs {items : List Nat} (threaded : Threaded s.cell (Cell.next key)
      (.head key (fmBucket (D.keydef key) ((D.keydef key).ops.hashKey packed))) items)
    (settled : ∀ i, (s.slot i).seq % 2 = 0) (unlocked : ∀ b, s.owner (.bucket key b) = none)
    {before after : List Nat} {cur : Nat} (split : items = before ++ cur :: after)
    (returned : List (Nat × Rec n)) :
    Runs t (iterate (cur, returned) fun (cur, returned) => do
        let next ← fmCoreFindNext D gran key packed (some cur)
        match next with
        | .error _ => return .inr returned
        | .ok found => return .inl (found.1, returned ++ [found])) s
      (returned ++ (after.filter (passes s fun buf =>
        (D.keydef key).ops.cmpRecKey buf packed = 0)).map s.imageAt) s := by
  generalize length : after.length = size
  -- on what is left behind the slot returned last
  induction size using Nat.strongRecOn generalizing before cur after returned with
  | ind size ih =>
    have distinct := threaded.nodup
    rw [split] at distinct
    have notBefore : cur ∉ before := fun inBefore =>
      (List.nodup_append.mp distinct).2.2 cur inBefore cur (List.mem_cons_self ..) rfl
    have looked : Runs t (fmCoreFindNext D gran key packed (some cur)) s _ s :=
      findNext_runs (some cur) threaded settled unlocked
    rw [split, pastCursor_append notBefore] at looked
    rcases findOutcome_cases s (fun buf => (D.keydef key).ops.cmpRecKey buf packed = 0) after with
      ⟨missing, none⟩ | ⟨skipped, i, rest, behind, found, matches_⟩
    · rw [missing] at looked
      rw [none]
      apply Exec.iterate_leave
      refine runs_bind looked ?_
      rw [List.map_nil, List.append_nil]
      exact runs_pure _ s
    · rw [found] at looked
      have shorter : rest.length < size := by
        rw [← length, behind, List.length_append, List.length_cons]
        omega
      have resplit : items = (before ++ cur :: skipped) ++ i :: rest := by
        rw [split, behind]
        simp
      have later := ih rest.length shorter resplit (returned ++ [s.imageAt i]) rfl
      rw [matches_, List.map_cons]
      rw [List.append_assoc, List.singleton_append] at later
      exact Exec.iterate_again (runs_bind looked (runs_pure _ s)) later

theorem findAll_runs {items : List Nat} (threaded : Threaded s.cell (Cell.next key)
      (.head key (fmBucket (D.keydef key) ((D.keydef key).ops.hashKey packed))) items)
    (settled : ∀ i, (s.slot i).seq % 2 = 0) (unlocked : ∀ b, s.owner (.bucket key b) = none) :
    Runs t (findAll D gran key packed) s ((items.filter (passes s fun buf =>
      (D.keydef key).ops.cmpRecKey buf packed = 0)).map s.imageAt) s := by
  have looked : Runs t (fmCoreFind D gran key packed) s _ s :=
    find_runs threaded (fun i _ => settled i) (unlocked _)
  rcases findOutcome_cases s (fun buf => (D.keydef key).ops.cmpRecKey buf packed = 0) items with
    ⟨missing, none⟩ | ⟨skipped, i, rest, split, found, matches_⟩
  · rw [missing] at looked
    rw [none]
    exact runs_bind looked (runs_pure _ s)
  · rw [found] at looked
    rw [matches_, List.map_cons]
    exact runs_bind looked (findRest_runs threaded settled unlocked split [s.imageAt i])

theorem enumerates_chain (rep : Rep D s none) (agrees : PackedAgrees D key packed)
    {items : List Nat} (threaded : Threaded s.cell (Cell.next key)
      (.head key (fmBucket (D.keydef key) ((D.keydef key).ops.hashKey packed))) items) :
    Enumerates D s key packed ((items.filter (passes s fun buf =>
      (D.keydef key).ops.cmpRecKey buf packed = 0)).map s.imageAt) := by
  obtain ⟨chain, chains, members⟩ := rep.placed
  have slots : ((items.filter (passes s fun buf =>
      (D.keydef key).ops.cmpRecKey buf packed = 0)).map s.imageAt).map Prod.fst =
      items.filter (passes s fun buf => (D.keydef key).ops.cmpRecKey buf packed = 0) := by
    rw [List.map_map, show Prod.fst ∘ s.imageAt = id from rfl, List.map_id]
  have hit : ∀ i, i ∈ items.filter (passes s fun buf =>
      (D.keydef key).ops.cmpRecKey buf packed = 0) ↔ (s.slot i).state = .active ∧
        (D.keydef key).ops.cmpRecKey (s.slot i).data packed = 0 := by
    intro i
    rw [List.mem_filter]
    unfold passes
    simp only [Bool.and_eq_true, decide_eq_true_eq]
    refine ⟨fun both => both.2, fun both => ⟨?_, both⟩⟩
    rw [threaded.unique (chains.threaded _ _), members]
    unfold homes fmCoreKeyBucket
    rw [if_pos ⟨agrees.1, both.1⟩, agrees.2 _ both.2]
  have distinct := threaded.nodup.filter (passes s fun buf =>
    (D.keydef key).ops.cmpRecKey buf packed = 0)
  refine ⟨⟨items, threaded, ?_⟩, ?_, ?_, ?_⟩
  · rw [slots]
    exact List.filter_sublist
  · rw [slots]
    exact distinct
  · intro i rec
    rw [List.mem_map]
    constructor
    · rintro ⟨j, member, same⟩
      cases same
      obtain ⟨active, equal⟩ := (hit i).mp member
      exact ⟨active, rfl, equal⟩
    · rintro ⟨active, rfl, equal⟩
      exact ⟨i, (hit i).mpr ⟨active, equal⟩, rfl⟩
  · rw [List.length_map, ← List.toFinset_card_of_nodup distinct]
    congr 1
    ext i
    rw [List.mem_toFinset, hit, Finset.mem_filter]
    unfold activeSlots
    rw [Finset.mem_filter, Finset.mem_range]
    constructor
    · rintro ⟨active, equal⟩
      exact ⟨⟨rep.allocated i active, active⟩, equal⟩
    · rintro ⟨⟨_, active⟩, equal⟩
      exact ⟨active, equal⟩

theorem findAll_enumerates (rep : Rep D s none) (quiet : Quiet s)
    (agrees : PackedAgrees D key packed) :
    ∃ returned, Runs t (findAll D gran key packed) s returned s ∧
      Enumerates D s key packed returned := by
  obtain ⟨chain, chains, _⟩ := rep.placed
  have threaded := chains.threaded key (fmBucket (D.keydef key) ((D.keydef key).ops.hashKey packed))
  exact ⟨_, findAll_runs threaded rep.settled fun _ => quiet _, enumerates_chain rep agrees threaded⟩

end Lookups

def UpdateProgram (D : ShareDef n) (gran : Gran) (idx : Nat) (g : UInt32) (old new : Rec n)
    (program : CoreProg n (Except Err Unit)) : Prop :=
  program = fmCoreUpdateRow D gran idx g old new ∨
    program = withRowLock idx (fmCoreUpdateRowLocked D gran idx g old new)

theorem update_moves {D : ShareDef n} {gran : Gran} {s s' : Core n} {t idx : Nat} {g : UInt32}
    {old new : Rec n} {program : CoreProg n (Except Err Unit)} (hashes : HashesAgree D)
    (rep : Rep D s none) (quiet : Quiet s) (below : idx < s.slotCount)
    (current : (s.slot idx).state = .active → (s.slot idx).gen = g → (s.slot idx).data = old)
    (updates : UpdateProgram D gran idx g old new program)
    (ran : Runs t program s (.ok ()) s') :
    Rep D s' none ∧ Quiet s' ∧ rows s' idx = some (g, new) := by
  have updated : ∀ final, updateSpec D s idx g old new (.ok ()) final →
      rows final idx = some (g, new) := by
    intro final spec
    rw [spec.2.2, Function.update_self]
  rcases updates with rfl | rfl
  · obtain ⟨result, final, ran', rep', quiet', spec⟩ := call_runs (t := t) gran hashes rep quiet
      (.updateRow idx g old new) ⟨below, current⟩
    obtain ⟨same, rfl⟩ := ran.deterministic ran'
    cases same
    exact ⟨rep', quiet', updated _ spec⟩
  · obtain ⟨result, final, ran', rep', quiet', spec⟩ := call_runs (t := t) gran hashes rep quiet
      (.updateRowLocked idx g old new) ⟨below, current⟩
    obtain ⟨same, rfl⟩ := ran.deterministic ran'
    cases same
    exact ⟨rep', quiet', updated _ spec⟩

/-- The lookups enumerate the matching rows exactly, and after an update they return the row
under exactly the packed keys that its new image matches. -/
theorem enumeration_exact (D : ShareDef n) (gran : Gran) (hashes : HashesAgree D) (s : Core n)
    (rep : Rep D s none) (quiet : Quiet s) :
    (∀ t key packed, PackedAgrees D key packed → ∃ returned,
      Runs t (findAll D gran key packed) s returned s ∧ Enumerates D s key packed returned) ∧
    ∀ t idx g old new program s', idx < s.slotCount →
      ((s.slot idx).state = .active → (s.slot idx).gen = g → (s.slot idx).data = old) →
      UpdateProgram D gran idx g old new program → Runs t program s (.ok ()) s' →
      ∀ u key packed, PackedAgrees D key packed → ∃ returned,
        Runs u (findAll D gran key packed) s' returned s' ∧ Enumerates D s' key packed returned ∧
        ∀ rec, (idx, rec) ∈ returned ↔
          rec = new ∧ (D.keydef key).ops.cmpRecKey new packed = 0 := by
  refine ⟨fun t key packed agrees => findAll_enumerates rep quiet agrees, ?_⟩
  intro t idx g old new program s' below current updates ran u key packed agrees
  obtain ⟨rep', quiet', moved⟩ := update_moves hashes rep quiet below current updates ran
  obtain ⟨active, _, image⟩ := rows_eq_some.mp moved
  obtain ⟨returned, looked, enumerates⟩ : ∃ returned,
      Runs u (findAll D gran key packed) s' returned s' ∧ Enumerates D s' key packed returned :=
    findAll_enumerates rep' quiet' agrees
  refine ⟨returned, looked, enumerates, fun rec => ?_⟩
  rw [enumerates.exactly, image]
  constructor
  · rintro ⟨_, rfl, equal⟩
    exact ⟨rfl, equal⟩
  · rintro ⟨rfl, equal⟩
    exact ⟨active, rfl, equal⟩

def byteBag : ShareDef 1 :=
  fmCoreInitShare 1 4 2 (fun _ => byteOps) (fun _ => false) oneKey_le fourRecords_le twoBuckets_pow

theorem byteBag_hashes : HashesAgree byteBag := byteTable_hashes

def bagServed : List (Served 1) × Core 1 :=
  serve byteBag .whole 100
    [.insertRow fun _ => 7, .insertRow fun _ => 5, .insertRow fun _ => 7] ([], byteStart)

theorem bagServed_rep : Rep byteBag bagServed.2 none ∧ Quiet bagServed.2 :=
  SerialRun.rep byteBag_hashes (SerialRun.nil.serve 100 _)

theorem bagServed_updates :
    ((coreMachine 1).evaluate 0 100 (fmCoreUpdateRow byteBag .whole 0 0 (fun _ => 7) fun _ => 5)
      bagServed.2).map (fun done => (done.1, (done.2.slot 1).state, (done.2.slot 1).data)) =
    some (.ok (), .active, fun _ => 5) := by
  decide +kernel

/-- Both sevens are found behind each other; after the update of the first the key 5 finds it
with the other row of that key, and the key 7 no longer. -/
theorem enumeration_exact_bagServed :
    (∃ returned, Runs 0 (findAll byteBag .whole 0 [7]) bagServed.2 returned bagServed.2 ∧
      (0, fun _ => 7) ∈ returned ∧ (2, fun _ => 7) ∈ returned ∧ ∀ rec, (1, rec) ∉ returned) ∧
    ∃ s', Runs 0 (fmCoreUpdateRow byteBag .whole 0 0 (fun _ => 7) fun _ => 5) bagServed.2
        (.ok ()) s' ∧
      (∃ moved, Runs 1 (findAll byteBag .whole 0 [5]) s' moved s' ∧ (0, fun _ => 5) ∈ moved ∧
        (1, fun _ => 5) ∈ moved) ∧
      ∃ left, Runs 1 (findAll byteBag .whole 0 [7]) s' left s' ∧ ∀ rec, (0, rec) ∉ left := by
  obtain ⟨before, after⟩ := enumeration_exact byteBag .whole byteBag_hashes bagServed.2
    bagServed_rep.1 bagServed_rep.2
  have agrees : ∀ value : UInt8, PackedAgrees byteBag 0 [value] := byteTable_packed
  obtain ⟨returned, looked, enumerates⟩ := before 0 0 [7] (agrees 7)
  obtain ⟨⟨result, s'⟩, evaluated, done⟩ := Option.map_eq_some_iff.mp bagServed_updates
  obtain ⟨rfl, active, image⟩ : result = .ok () ∧ (s'.slot 1).state = .active ∧
      (s'.slot 1).data = fun _ => 5 := by simpa using done
  have ran := exec_of_evaluate evaluated
  have found := after 0 0 0 (fun _ => 7) (fun _ => 5) _ s' (by decide +kernel) (by decide +kernel)
    (Or.inl rfl) ran 1 0
  obtain ⟨moved, looked₅, enumerates₅, moves⟩ := found [5] (agrees 5)
  obtain ⟨left, looked₇, _, leaves⟩ := found [7] (agrees 7)
  refine ⟨⟨returned, looked, ?_, ?_, fun rec member => ?_⟩, s', ran,
    ⟨moved, looked₅, (moves _).mpr ⟨rfl, rfl⟩, ?_⟩, left, looked₇, fun rec member => ?_⟩
  · exact (enumerates.exactly _ _).mpr (by decide +kernel)
  · exact (enumerates.exactly _ _).mpr (by decide +kernel)
  · obtain ⟨_, rfl, equal⟩ := (enumerates.exactly _ _).mp member
    exact absurd equal (by decide +kernel)
  · exact (enumerates₅.exactly _ _).mpr ⟨active, image, rfl⟩
  · exact absurd ((leaves rec).mp member).2 (by decide +kernel)

end Fastmem
