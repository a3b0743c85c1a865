/-
Several threads update one row, each with an old record the row once had.

All of them are calls of fm_core_update_row for one slot and one generation. The
slot lock serialises the part of a call that checks the row, writes the image and
moves the slot between chains; the duplicate check before it runs beside the
sections of other threads. Whether the chains survive is decided section by
section, by what `Harmless` says of the state in which the row is checked.
-/

import Fastmem.Core.OrphanChains
import Fastmem.CriticalSections
import Mathlib.Tactic.IntervalCases

set_option autoImplicit false

namespace Fastmem

open Prog (perform iterate forEach foldEach Performs)
open ThreadSystem

variable {n : Nat} {D : ShareDef n} {gran : Gran} {idx : Nat} {g : UInt32}

/-- Threads that update the row of generation `g` in slot `idx`. A call is given an old and a
new record. -/
def updaters (D : ShareDef n) (gran : Gran) (idx : Nat) (g : UInt32) :
    ThreadSystem (coreMachine n) where
  Call := Rec n × Rec n
  Res := Except Err Unit
  Loc := Unit
  code _ call _ := do return (← fmCoreUpdateRow D gran idx g call.1 call.2, ())
  allowed _ _ _ s := decide (idx < s.slotCount)

def CommitsHarmless (c : (updaters D gran idx g).Config) (t : Nat) :
    (updaters D gran idx g).Event → Prop
  | .act (.loadGen i) _ => ∀ old new program, c.thread t = .busy (old, new) program → i = idx →
      (c.st.slot idx).state = .active → (c.st.slot idx).gen = g → Harmless D c.st idx old new
  | _ => True

/-! ### The section of the slot lock -/

def Core.memory (s : Core n) : Core n := { s with owner := fun _ => none }

/-- The bucket locks a thread holds, and the memory it works on inside the section. -/
structure RowGhost (n : Nat) where
  held : List (Nat × Nat)
  inside : Option (Core n)

/-- The thread inside the section knows the memory; with nobody inside, every row can be
found. -/
structure RowInv (D : ShareDef n) (idx : Nat) (s : Core n) (ghosts : Nat → Unit × RowGhost n) :
    Prop where
  buckets : ∀ k b u, s.owner (.bucket k b) = some u ↔ (k, b) ∈ (ghosts u).2.held
  holder : ∀ u memory, (ghosts u).2.inside = some memory →
    s.owner (.wlock idx) = some u ∧ s.memory = memory
  taken : ∀ u, s.owner (.wlock idx) = some u → (ghosts u).2.inside ≠ none
  free : s.owner (.wlock idx) = none → Findable D s

def rowSection (D : ShareDef n) (idx : Nat) : Protocol (coreMachine n) where
  Kind := Unit
  Ghost := RowGhost n
  Inv := RowInv D idx
  Attempt _ _ _ := True

abbrev RowTriple (D : ShareDef n) (idx t : Nat) (promise : (rowSection D idx).Promise) {α : Type}
    (ghost : RowGhost n) (program : CoreProg n α) (post : α → RowGhost n → Prop) : Prop :=
  (rowSection D idx).Triple t () promise ghost program post

section Triples

variable {t : Nat} {promise : (rowSection D idx).Promise} {α : Type} {held : List (Nat × Nat)}
  {memory s s' : Core n} {ghosts : Nat → Unit × RowGhost n} {ghost : RowGhost n}

theorem RowInv.keep (inv : RowInv D idx s ghosts) (mine : ghosts t = ((), ghost)) :
    RowInv D idx s (Function.update ghosts t ((), ghost)) := by
  rw [← mine, Function.update_eq_self]
  exact inv

theorem RowInv.enter (inv : RowInv D idx s ghosts) (mine : (ghosts t).2.held = held)
    (alone : ∀ u, s.owner (.wlock idx) = some u → u = t)
    (buckets : ∀ k b, s'.owner (.bucket k b) = s.owner (.bucket k b))
    (owner : s'.owner (.wlock idx) = some t) :
    RowInv D idx s' (Function.update ghosts t ((), ⟨held, some s'.memory⟩)) where
  buckets k b u := by
    rw [buckets, inv.buckets]
    by_cases own : u = t
    · subst own
      rw [Function.update_self, mine]
    · rw [Function.update_of_ne own]
  holder u known inside := by
    by_cases own : u = t
    · subst own
      rw [Function.update_self] at inside
      exact ⟨owner, Option.some.inj inside⟩
    · rw [Function.update_of_ne own] at inside
      exact absurd (alone u (inv.holder u known inside).1) own
  taken u holds := by
    rw [owner] at holds
    cases holds
    rw [Function.update_self]
    exact Option.some_ne_none _
  free unlocked := by
    rw [owner] at unlocked
    cases unlocked

theorem reads_triple {program : CoreProg n α} (work : program.Performs Act.reads) :
    RowTriple D idx t promise ghost program fun _ ghost' => ghost' = ghost := by
  refine Protocol.Triple.performs (fun _ _ => trivial) ?_ work
  intro ρ action s ghosts result s' kind inv _ ran
  cases action <;> cases kind <;> cases ran <;> exact inv

theorem inside_triple {program : CoreProg n α} (memory : Core n)
    (work : program.Performs Act.lockfree) :
    RowTriple D idx t promise ⟨held, some memory⟩ program fun value ghost' =>
      ∃ memory', Runs t program memory value memory' ∧ ghost' = ⟨held, some memory'⟩ := by
  refine Protocol.Triple.serial (P := rowSection D idx) (fun memory => ⟨held, some memory⟩) memory
    (fun _ _ _ => trivial) ?_ work
  intro ρ action memory s ghosts result s' kind inv mine ran
  obtain ⟨holds, rfl⟩ := inv.holder t memory (by rw [mine])
  have kept : s'.owner = s.owner := lockfree_owner kind ran
  refine ⟨s'.memory, ?_, RowInv.enter inv (by rw [mine]) ?_ (fun k b => by rw [kept])
    (by rw [kept, holds])⟩
  · change Act.exec t action { s with owner := fun _ => none } = _
    rw [lockfree_exec kind, show Act.exec t action s = _ from ran]
    rfl
  · intro u taken
    rw [holds] at taken
    exact (Option.some.inj taken).symm

theorem lockRow_triple : RowTriple D idx t promise ⟨held, none⟩ (perform (.lock (.wlock idx)))
    fun _ ghost' => ∃ memory, ghost' = ⟨held, some memory⟩ ∧ Findable D memory := by
  refine Protocol.Triple.perform trivial ?_
  intro s ghosts result s' inv mine _ ran
  change Act.exec t (.lock (.wlock idx)) s = some (result, s') at ran
  obtain ⟨free, rfl⟩ := exec_lock_inv ran
  refine ⟨⟨held, some s.memory⟩, ?_, s.memory, rfl, (inv.free free).withOwner _⟩
  refine RowInv.enter inv (by rw [mine]) ?_ (fun k b => owner_setOwner_of_ne (by simp))
    (Function.update_self ..)
  intro u taken
  rw [free] at taken
  cases taken

theorem unlockRow_triple (found : Findable D memory) :
    RowTriple D idx t promise ⟨held, some memory⟩ (perform (.unlock (.wlock idx)))
      fun _ ghost' => ghost' = ⟨held, none⟩ := by
  refine Protocol.Triple.perform trivial ?_
  intro s ghosts result s' inv mine _ ran
  cases ran
  obtain ⟨holds, rfl⟩ := inv.holder t memory (by rw [mine])
  have freed : (s.setOwner (.wlock idx) none).owner (.wlock idx) = none := Function.update_self ..
  refine ⟨⟨held, none⟩, ⟨fun k b u => ?_, fun u known inside => ?_, fun u taken => ?_,
    fun _ => found.withOwner _⟩, rfl⟩
  · rw [owner_setOwner_of_ne (by simp), inv.buckets]
    by_cases own : u = t
    · subst own
      rw [Function.update_self, mine]
    · rw [Function.update_of_ne own]
  · by_cases own : u = t
    · subst own
      rw [Function.update_self] at inside
      cases inside
    · rw [Function.update_of_ne own] at inside
      have also := (inv.holder u known inside).1
      rw [holds] at also
      exact absurd (Option.some.inj also).symm own
  · rw [freed] at taken
    cases taken

theorem RowInv.buckets_changed {l : Nat × Nat} {owner : Option Nat} {held' : List (Nat × Nat)}
    (inv : RowInv D idx s ghosts) (mine : ghosts t = ((), ⟨held, none⟩))
    (changed : ∀ k b u, (s.setOwner (.bucket l.1 l.2) owner).owner (.bucket k b) = some u ↔
      (k, b) ∈ if u = t then held' else (ghosts u).2.held) :
    RowInv D idx (s.setOwner (.bucket l.1 l.2) owner)
      (Function.update ghosts t ((), ⟨held', none⟩)) := by
  have sameRow : (s.setOwner (.bucket l.1 l.2) owner).owner (.wlock idx) = s.owner (.wlock idx) :=
    owner_setOwner_of_ne (by simp)
  have sameInside : ∀ u, (Function.update ghosts t ((), ⟨held', none⟩) u).2.inside =
      (ghosts u).2.inside := by
    intro u
    by_cases own : u = t
    · subst own
      rw [Function.update_self, mine]
    · rw [Function.update_of_ne own]
  refine ⟨fun k b u => ?_, fun u known inside => ?_, fun u taken => ?_, fun free => ?_⟩
  · rw [changed]
    by_cases own : u = t
    · subst own
      rw [Function.update_self, if_pos rfl]
    · rw [Function.update_of_ne own, if_neg own]
  · rw [sameInside] at inside
    rw [sameRow]
    exact inv.holder u known inside
  · rw [sameInside]
    exact inv.taken u (sameRow.symm.trans taken)
  · exact (inv.free (sameRow.symm.trans free)).withOwner _

theorem lockBucket_triple (l : Nat × Nat) :
    RowTriple D idx t promise ⟨held, none⟩ (perform (.lock (.bucket l.1 l.2)))
      fun _ ghost' => ghost' = ⟨l :: held, none⟩ := by
  refine Protocol.Triple.perform trivial ?_
  intro s ghosts result s' inv mine _ ran
  change Act.exec t (.lock (.bucket l.1 l.2)) s = some (result, s') at ran
  obtain ⟨free, rfl⟩ := exec_lock_inv ran
  refine ⟨⟨l :: held, none⟩, RowInv.buckets_changed inv mine fun k b u => ?_, rfl⟩
  have before := inv.buckets k b u
  by_cases here : (k, b) = l
  · subst here
    rw [show (s.setOwner (.bucket k b) (some t)).owner (.bucket k b) = some t from
      Function.update_self ..]
    rw [free] at before
    by_cases own : u = t
    · simp [own]
    · rw [if_neg own, ← before]
      simp [Ne.symm own]
  · have elsewhere : Lock.bucket k b ≠ .bucket l.1 l.2 := by
      intro clash
      injection clash with sameKey sameBucket
      exact here (Prod.ext sameKey sameBucket)
    rw [owner_setOwner_of_ne elsewhere, before]
    by_cases own : u = t
    · subst own
      rw [if_pos rfl, mine, List.mem_cons]
      simp [here]
    · rw [if_neg own]

theorem unlockBucket_triple (l : Nat × Nat) (notLater : l ∉ held) :
    RowTriple D idx t promise ⟨l :: held, none⟩ (perform (.unlock (.bucket l.1 l.2)))
      fun _ ghost' => ghost' = ⟨held, none⟩ := by
  refine Protocol.Triple.perform trivial ?_
  intro s ghosts result s' inv mine _ ran
  cases ran
  refine ⟨⟨held, none⟩, RowInv.buckets_changed inv mine fun k b u => ?_, rfl⟩
  have before := inv.buckets k b u
  by_cases here : (k, b) = l
  · subst here
    have own : s.owner (.bucket k b) = some t := (inv.buckets k b t).mpr (by rw [mine]; simp)
    rw [show (s.setOwner (.bucket k b) none).owner (.bucket k b) = none from
      Function.update_self ..]
    by_cases isMe : u = t
    · simp [isMe, notLater]
    · rw [if_neg isMe, ← before, own]
      simp [Ne.symm isMe]
  · have elsewhere : Lock.bucket k b ≠ .bucket l.1 l.2 := by
      intro clash
      injection clash with sameKey sameBucket
      exact here (Prod.ext sameKey sameBucket)
    rw [owner_setOwner_of_ne elsewhere, before]
    by_cases own : u = t
    · subst own
      rw [if_pos rfl, mine, List.mem_cons]
      simp [here]
    · rw [if_neg own]

theorem lockBuckets_triple (pairs : List (Nat × Nat)) :
    RowTriple D idx t promise ⟨held, none⟩ (lockBuckets pairs)
      fun _ ghost' => ghost' = ⟨pairs.reverse ++ held, none⟩ := by
  induction pairs generalizing held with
  | nil => exact Protocol.Triple.ret rfl
  | cons l rest ih =>
      refine Protocol.Triple.bind (lockBucket_triple l) ?_
      rintro _ _ rfl
      refine Protocol.Triple.mono ih ?_
      rintro _ _ rfl
      rw [List.reverse_cons, List.append_assoc, List.singleton_append]

theorem unlockBuckets_triple {pairs : List (Nat × Nat)} (distinct : pairs.Nodup) :
    RowTriple D idx t promise ⟨pairs.reverse, none⟩ (unlockBuckets pairs)
      fun _ ghost' => ghost' = ⟨[], none⟩ := by
  have backwards : pairs.reverse.Nodup := List.nodup_reverse.mpr distinct
  refine Protocol.Triple.mono (Protocol.Triple.forEach
    (fun left ghost => ghost = (⟨left, none⟩ : RowGhost n) ∧ left.Nodup) ?_ ⟨rfl, backwards⟩)
    fun _ _ done => done.1
  rintro l rest _ ⟨rfl, distinctRest⟩
  obtain ⟨notLater, later⟩ := List.nodup_cons.mp distinctRest
  refine Protocol.Triple.mono (unlockBucket_triple l notLater) ?_
  rintro _ _ rfl
  exact ⟨rfl, later⟩

def ChecksHarmless (promise : (rowSection D idx).Promise) (g : UInt32) (old new : Rec n) : Prop :=
  ∀ s ghosts, promise (.loadGen idx : Act n UInt32) s ghosts → (s.slot idx).state = .active →
    (s.slot idx).gen = g → Harmless D s idx old new

theorem slotStale_rowTriple {old new : Rec n} (promised : ChecksHarmless promise g old new) :
    RowTriple D idx t promise ⟨held, some memory⟩ (slotStale idx g) fun stale ghost' =>
      ghost' = ⟨held, some memory⟩ ∧ (stale = false →
        (memory.slot idx).state = .active ∧ Harmless D memory idx old new) := by
  refine Protocol.Triple.bind (inside_triple memory (Performs.perform trivial)) ?_
  rintro state _ ⟨memory', loaded, rfl⟩
  obtain ⟨rfl, rfl⟩ : state = (memory.slot idx).state ∧ memory' = memory :=
    loaded.deterministic (Machine.Exec.perform rfl)
  by_cases active : (memory'.slot idx).state = .active
  · rw [if_neg (not_not_intro active)]
    have checked : RowTriple D idx t promise ⟨held, some memory'⟩ (perform (.loadGen idx))
        fun gen ghost' => ghost' = ⟨held, some memory'⟩ ∧ gen = (memory'.slot idx).gen ∧
          ((memory'.slot idx).gen = g → Harmless D memory' idx old new) := by
      refine Protocol.Triple.perform trivial ?_
      intro s ghosts result s' inv mine promise ran
      cases ran
      obtain ⟨_, rfl⟩ := inv.holder t memory' (by rw [mine])
      exact ⟨_, RowInv.keep inv mine, rfl, rfl, fun same =>
        (promised s ghosts promise active same).withOwner _⟩
    refine Protocol.Triple.bind checked ?_
    rintro gen _ ⟨rfl, rfl, harmless⟩
    refine Protocol.Triple.ret ⟨rfl, fun fresh => ⟨active, harmless ?_⟩⟩
    simpa using fresh
  · rw [if_pos active]
    exact Protocol.Triple.ret ⟨rfl, fun impossible => by cases impossible⟩

theorem committed_findable {written final : Core n} {old new : Rec n}
    (found : Findable D memory) (active : (memory.slot idx).state = .active)
    (harmless : Harmless D memory idx old new)
    (wrote : Runs t (fmCoreWriteImage gran idx new) memory () written)
    (relinked : Runs t (relinkChanged D old new idx (changedKeys D old new)) written () final) :
    Findable D final := by
  obtain ⟨final', ran, found'⟩ := commit_findable (t := t) gran found active harmless
  obtain ⟨_, rfl⟩ := (runs_bind wrote relinked).deterministic ran
  exact found'

theorem updateRow_rowTriple {old new : Rec n} (promised : ChecksHarmless promise g old new) :
    RowTriple D idx t promise ⟨[], none⟩ (fmCoreUpdateRow D gran idx g old new)
      fun _ ghost' => ghost' = ⟨[], none⟩ := by
  unfold fmCoreUpdateRow
  by_cases unchanged : changedKeys D old new = []
  · simp only [unchanged, if_true]
    refine Protocol.Triple.bind lockRow_triple ?_
    rintro _ _ ⟨memory, rfl, found⟩
    refine Protocol.Triple.bind (slotStale_rowTriple promised) ?_
    rintro stale _ ⟨rfl, fresh⟩
    cases stale with
    | true =>
        refine Protocol.Triple.bind (unlockRow_triple found) ?_
        rintro _ _ rfl
        exact Protocol.Triple.ret rfl
    | false =>
        obtain ⟨active, harmless⟩ := fresh rfl
        refine Protocol.Triple.bind (inside_triple memory (writeImage_lockfree idx new)) ?_
        rintro _ _ ⟨written, wrote, rfl⟩
        have found' : Findable D written := committed_findable found active harmless wrote (by
          rw [unchanged]
          exact runs_pure () written)
        refine Protocol.Triple.bind (unlockRow_triple found') ?_
        rintro _ _ rfl
        exact Protocol.Triple.ret rfl
  · simp only [unchanged, if_false]
    have distinct := lockset_nodup D old new (changedKeys D old new)
    refine Protocol.Triple.bind (lockBuckets_triple _) ?_
    rintro _ _ rfl
    rw [List.append_nil]
    refine Protocol.Triple.bind (reads_triple (dupCheckChanged_reads new _)) ?_
    rintro dup _ rfl
    cases dup with
    | some k =>
        refine Protocol.Triple.bind (unlockBuckets_triple distinct) ?_
        rintro _ _ rfl
        exact Protocol.Triple.ret rfl
    | none =>
        refine Protocol.Triple.bind lockRow_triple ?_
        rintro _ _ ⟨memory, rfl, found⟩
        refine Protocol.Triple.bind (slotStale_rowTriple promised) ?_
        rintro stale _ ⟨rfl, fresh⟩
        cases stale with
        | true =>
            refine Protocol.Triple.bind (unlockRow_triple found) ?_
            rintro _ _ rfl
            refine Protocol.Triple.bind (unlockBuckets_triple distinct) ?_
            rintro _ _ rfl
            exact Protocol.Triple.ret rfl
        | false =>
            obtain ⟨active, harmless⟩ := fresh rfl
            refine Protocol.Triple.bind (inside_triple memory (writeImage_lockfree idx new)) ?_
            rintro _ _ ⟨written, wrote, rfl⟩
            refine Protocol.Triple.bind (inside_triple written
              (relinkChanged_lockfree old new idx (changedKeys D old new))) ?_
            rintro _ _ ⟨final, relinked, rfl⟩
            have found' := committed_findable found active harmless wrote relinked
            refine Protocol.Triple.bind (unlockRow_triple found') ?_
            rintro _ _ rfl
            refine Protocol.Triple.bind (unlockBuckets_triple distinct) ?_
            rintro _ _ rfl
            exact Protocol.Triple.ret rfl

end Triples

/-! ### Whole runs -/

def rowFit (D : ShareDef n) (gran : Gran) (idx : Nat) (g : UInt32) :
    Protocol.Fit (updaters D gran idx g) (rowSection D idx) where
  condition := CommitsHarmless
  idleKind := ()
  kind _ := ()
  promise _ call := fun _ action s _ => match action with
    | .loadGen i => i = idx → (s.slot idx).state = .active → (s.slot idx).gen = g →
        Harmless D s idx call.1 call.2
    | _ => True
  Idle _ _ ghost := ghost = ⟨[], none⟩
  Done _ _ _ _ ghost := ghost = ⟨[], none⟩

theorem rowFit_laws : (rowFit D gran idx g).Laws where
  promised := by
    rintro c ghosts t call ρ action result _ _ _ ⟨next, busy⟩ condition
    cases action with
    | loadGen i => exact condition call.1 call.2 _ busy
    | _ => trivial
  start := by
    rintro c ghosts t call kept inv _ _ idle _ _
    refine ⟨⟨[], none⟩, RowInv.keep inv (Prod.ext rfl idle), ?_⟩
    refine Protocol.Triple.bind (updateRow_rowTriple ?_) ?_
    · exact fun s ghosts promised active same => promised rfl active same
    · rintro _ _ rfl
      exact Protocol.Triple.ret rfl
  finish := by
    rintro s ghosts t call result kept ghost inv mine rfl
    exact ⟨_, RowInv.keep inv mine, rfl⟩

theorem updaters_findable {R : (updaters D gran idx g).Run} {s : Core n} (found : Findable D s)
    (quiet : Quiet s) (starts : R.StartsIn s ()) (harmless : R.Meets CommitsHarmless) {i : Nat}
    (bound : i ≤ R.len) (resting : ∀ t, ∃ kept, (R.cfg i).thread t = .idle kept) :
    Findable D (R.st i) ∧ ∀ k b, (R.st i).owner (.bucket k b) = none := by
  obtain ⟨ghosts, covers⟩ := Protocol.Fit.covered rowFit_laws harmless (fun m => by
    refine ⟨fun _ => ((), ⟨[], none⟩), ⟨?_, ?_, ?_, ?_⟩, fun _ => rfl, fun u => ?_⟩
    · intro k b u
      rw [starts, show s.owner (.bucket k b) = none from quiet _]
      simp
    · intro u memory clash
      cases clash
    · intro u taken
      rw [starts, show s.owner (.wlock idx) = none from quiet _] at taken
      cases taken
    · intro _
      rw [starts]
      exact found
    · rw [starts]
      rfl) i bound 0
  have inv : RowInv D idx (R.st i) ghosts := covers.inv
  have outside : ∀ u, (ghosts u).2 = ⟨[], none⟩ := by
    intro u
    obtain ⟨kept, idle⟩ := resting u
    exact covers.idle idle
  constructor
  · apply inv.free
    cases owner : (R.st i).owner (.wlock idx) with
    | none => rfl
    | some u => exact absurd (congrArg RowGhost.inside (outside u)) (inv.taken u owner)
  · intro k b
    cases owner : (R.st i).owner (.bucket k b) with
    | none => rfl
    | some u =>
        have member := (inv.buckets k b u).mp owner
        rw [outside u] at member
        cases member

/-- After concurrent updates of one row that all did no harm, every chain walk ends and every
row is found by its key. -/
theorem staleUpdates_harmless (D : ShareDef n) (gran : Gran) (idx : Nat) (g : UInt32)
    (s : Core n) (rep : Rep D s none) (quiet : Quiet s) (R : (updaters D gran idx g).Run)
    (starts : R.StartsIn s ()) (harmless : R.Meets CommitsHarmless) :
    ∀ i, i ≤ R.len → (∀ t, ∃ kept, (R.cfg i).thread t = .idle kept) →
      (∀ k b, ∃ items, Threaded (R.st i).cell (Cell.next k) (.head k b) items) ∧
      ∀ r, ((R.st i).slot r).state = .active → ∀ k, k < D.keys →
        (∃ items, Threaded (R.st i).cell (Cell.next k)
          (.head k (fmCoreKeyBucket (D.keydef k) ((R.st i).slot r).data)) items ∧ r ∈ items) ∧
        ∀ packed, (D.keydef k).ops.cmpRecKey ((R.st i).slot r).data packed = 0 →
          fmBucket (D.keydef k) ((D.keydef k).ops.hashKey packed) =
            fmCoreKeyBucket (D.keydef k) ((R.st i).slot r).data →
          ∀ t, ∃ j, Runs t (fmCoreFind D gran k packed) (R.st i)
              (.ok (j, ((R.st i).slot j).data)) (R.st i) ∧
            ((R.st i).slot j).state = .active ∧
            (D.keydef k).ops.cmpRecKey ((R.st i).slot j).data packed = 0 := by
  intro i bound resting
  obtain ⟨found, unlocked⟩ := updaters_findable rep.findable quiet starts harmless bound resting
  obtain ⟨chain, threaded, homed⟩ := found.chained
  refine ⟨fun k b => ⟨chain k b, threaded k b⟩, fun r active k valid => ⟨⟨_, threaded k _, ?_⟩, ?_⟩⟩
  · exact homed k _ r (if_pos ⟨valid, active⟩)
  · intro packed equal hashed t
    exact found.find gran (unlocked k) valid active equal hashed

/-! ### Two updates of one row -/

/-- Two threads are given the row 0 as the old record. Thread 0 makes it 1, then thread 1 makes
it `new`. -/
def staleUpdate (new : UInt8) (steps : Nat) : List (Nat × Option (Rec 1 × Rec 1)) :=
  (0, some (fun _ => 0, fun _ => 1)) :: (1, some (fun _ => 0, fun _ => new)) ::
    (List.replicate 21 (0, none) ++ List.replicate steps (1, none))

def evenStart : (updaters byteTable .whole 0 0).Config := ⟨evenRows, fun _ => .idle ()⟩

theorem loop_played : (play evenStart (staleUpdate 3 28)).isSome = true := by decide +kernel

theorem orphan_played : (play evenStart (staleUpdate 4 26)).isSome = true := by decide +kernel

/-- Both updates link the slot into bucket 1. -/
def loopRun : (updaters byteTable .whole 0 0).Run :=
  Run.ofSchedule evenStart (staleUpdate 3 28) loop_played

/-- The second update leaves an orphan node in bucket 1. -/
def orphanRun : (updaters byteTable .whole 0 0).Run :=
  Run.ofSchedule evenStart (staleUpdate 4 26) orphan_played

def PastImages (R : (updaters D gran idx g).Run) : Prop :=
  ∀ i, i < R.len → ∀ old new, R.ev i = .start (old, new) →
    ∃ j, j ≤ i ∧ ((R.st j).slot idx).data = old

def isIdle {S : ThreadSystem (coreMachine n)} : S.Thread → Bool
  | .idle _ => true
  | .busy _ _ => false

theorem twoThreads_rest {R : (updaters D gran idx g).Run} {s : Core n} (starts : R.StartsIn s ())
    (two : ∀ i, i < R.len → R.tid i < 2) (first : isIdle ((R.cfg R.len).thread 0) = true)
    (second : isIdle ((R.cfg R.len).thread 1) = true) (t : Nat) :
    ∃ kept, (R.cfg R.len).thread t = .idle kept := by
  have ended : ∀ thread : (updaters D gran idx g).Thread, isIdle thread = true →
      ∃ kept, thread = .idle kept := by
    intro thread idle
    cases thread with
    | idle kept => exact ⟨kept, rfl⟩
    | busy call program => cases idle
  rcases Nat.lt_or_ge t 2 with low | high
  · rcases (by omega : t = 0 ∨ t = 1) with rfl | rfl
    · exact ended _ first
    · exact ended _ second
  · refine ⟨(), (Run.untouched (fun i bound same => ?_) R.len (Nat.le_refl _)).trans ?_⟩
    · have := two i bound
      omega
    · rw [starts]

/-- Bucket 1 ends as a cycle: a lookup there never returns. -/
theorem staleUpdates_loop : Rep byteTable evenRows none ∧ Quiet evenRows ∧
    loopRun.StartsIn evenRows () ∧ PastImages loopRun ∧
    (∀ t, ∃ kept, (loopRun.cfg loopRun.len).thread t = .idle kept) ∧
    ¬ ∃ items, Threaded (loopRun.st loopRun.len).cell (Cell.next 0) (.head 0 1) items := by
  refine ⟨evenRows_rep, fun _ => rfl, rfl, ?_, ?_, ?_⟩
  · intro i bound old new started
    change i < 51 at bound
    refine ⟨0, Nat.zero_le i, ?_⟩
    interval_cases i <;> cases started <;> rfl
  · exact twoThreads_rest rfl (by decide +kernel) (by decide +kernel) (by decide +kernel)
  · rintro ⟨items, threaded⟩
    have head : (loopRun.st loopRun.len).cell (.head 0 1) = some 0 := by decide +kernel
    have next : (loopRun.st loopRun.len).cell (.next 0 0) = some 0 := by decide +kernel
    cases items with
    | nil =>
        rw [show (loopRun.st loopRun.len).cell (.head 0 1) = none from threaded] at head
        cases head
    | cons first rest =>
        obtain rfl : first = 0 := Option.some.inj (threaded.1.symm.trans head)
        have again := threaded.restart (next.trans head.symm)
        have lengths := congrArg List.length (again.unique threaded.2)
        simp at lengths

theorem byteTable_harmless {s : Core 1} {old new : Rec 1} (chain : Nat → List Nat)
    (changed : changedKeys byteTable old new = [0])
    (threaded : ∀ b, Threaded s.cell (Cell.next 0) (.head 0 b) (chain b))
    (loose : 0 ∉ chain (fmCoreKeyBucket (byteTable.keydef 0) new))
    (last : ∀ b, b ≠ fmCoreKeyBucket (byteTable.keydef 0) old → 0 ∈ chain b → chain b = [0]) :
    Harmless byteTable s 0 old new where
  unchanged k valid notChanged := by
    rw [changed, List.mem_singleton] at notChanged
    exact absurd (Nat.lt_one_iff.mp valid) notChanged
  noReturn k isChanged items there member := by
    rw [changed, List.mem_singleton] at isChanged
    subst isChanged
    rw [there.unique (threaded _)] at member
    exact absurd member loose
  behind k isChanged b different front rest there i member := by
    rw [changed, List.mem_singleton] at isChanged
    subst isChanged
    have split := (threaded b).unique there
    rw [last b different (by rw [split]; simp)] at split
    have lengths := congrArg List.length split
    simp only [List.length_append, List.length_cons, List.length_nil] at lengths
    rw [List.length_eq_zero_iff.mp (by omega : rest.length = 0)] at member
    cases member

theorem orphanRun_harmless : orphanRun.Meets CommitsHarmless := by
  intro i bound
  change i < 49 at bound
  by_cases first : i = 8
  · subst first
    intro old new program busy _ _ _
    cases busy
    refine byteTable_harmless (fun b => if b = 0 then [0, 1] else []) (by decide +kernel)
      (fun b => ?_) (by decide +kernel) fun b different => ?_
    · match b with
      | 0 => exact ⟨rfl, rfl, rfl⟩
      | 1 => exact rfl
      | b + 2 => exact rfl
    · change b ≠ 0 at different
      simp [different]
  by_cases second : i = 35
  · subst second
    intro old new program busy _ _ _
    cases busy
    refine byteTable_harmless (fun b => if b = 0 then [1] else if b = 1 then [0] else [])
      (by decide +kernel) (fun b => ?_) (by decide +kernel) fun b different => ?_
    · match b with
      | 0 => exact ⟨rfl, rfl⟩
      | 1 => exact ⟨rfl, rfl⟩
      | b + 2 => exact rfl
    · change b ≠ 0 at different
      by_cases one : b = 1 <;> simp [different, one]
  interval_cases i <;> trivial

/-- The slot ends in both chains, and both rows are found. -/
theorem staleUpdates_harmless_orphanRun :
    Threaded (orphanRun.st orphanRun.len).cell (Cell.next 0) (.head 0 1) [0, 1] ∧
    (∀ k b, ∃ items, Threaded (orphanRun.st orphanRun.len).cell (Cell.next k) (.head k b) items) ∧
    ∃ items, Threaded (orphanRun.st orphanRun.len).cell (Cell.next 0) (.head 0 0) items ∧
      1 ∈ items := by
  have harmless := staleUpdates_harmless byteTable .whole 0 0 evenRows evenRows_rep (fun _ => rfl)
    orphanRun rfl orphanRun_harmless orphanRun.len (Nat.le_refl _)
    (twoThreads_rest rfl (by decide +kernel) (by decide +kernel) (by decide +kernel))
  refine ⟨⟨rfl, rfl, rfl⟩, harmless.1, ?_⟩
  exact (harmless.2 1 (by decide +kernel) 0 (by decide)).1

end Fastmem
