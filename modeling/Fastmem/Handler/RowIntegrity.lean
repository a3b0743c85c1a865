/-
Chains, freelist, counter and unique keys under the row calls of many handlers.

An update moves its row between chains by the old record that its caller hands
over, so the chains are right only if this is the image in the slot. update_row
does not check it. Here it is called behind the read of its row in a write
statement: the handler has held the row's lock since, and up to the generation
check of the update its steps only look. So the old record is the image, and
what is known of the core's threads is known of the handlers.
-/

import Fastmem.Concurrent.UniqueKeys
import Fastmem.Handler.ComposedUpdates
import Fastmem.PhasedPrograms

set_option autoImplicit false

namespace Fastmem

open Prog (perform)
open ThreadSystem

variable {n : Nat}

/-! ### The two phases of update_row -/

def Act.looksAt (idx : Nat) (ρ : Type) : Act n ρ → Prop
  | .loadGen other => other = idx
  | action => Act.keepsHeld ρ action

def Act.genless (ρ : Type) : Act n ρ → Prop
  | .loadGen _ => False
  | _ => True

theorem Act.looksAt.keepsHeld {idx : Nat} {ρ : Type} {action : Act n ρ}
    (kind : Act.looksAt idx ρ action) : Act.keepsHeld ρ action := by
  cases action with
  | loadGen other => trivial
  | _ => exact kind

section Phases

variable {gran : Gran} {D : ShareDef n} {idx : Nat}

theorem readRow_performs {condition : (ρ : Type) → Act n ρ → Prop} (checkGen : Bool) (g : UInt32)
    (state : condition _ (.loadState idx))
    (gen : checkGen = true → condition _ (.loadGen idx)) (seq : condition _ (.loadSeq idx))
    (data : condition _ (.loadData idx)) (byte : ∀ at_, condition _ (.loadByte idx at_)) :
    (fmCoreReadRow (n := n) gran idx checkGen g).Performs condition := by
  have mismatch : (genMismatch (n := n) idx checkGen g).Performs condition := by
    cases checkGen with
    | false => exact .ret _
    | true => exact .step (gen rfl) fun _ => .ret _
  have copy : (memcpyOut (n := n) gran idx).Performs condition := by
    cases gran with
    | whole => exact .perform data
    | bytewise =>
        apply Prog.Performs.foldEach
        intro accumulated at_ _
        exact .step (byte at_) fun _ => .ret _
  apply Prog.Performs.iterate
  intro _
  refine .step state fun found => ?_
  split
  · exact .ret _
  · refine mismatch.bind fun differs => ?_
    split
    · exact .ret _
    · have copied : (seqlockCopy (n := n) gran idx).Performs condition := by
        refine .step seq fun before => ?_
        split
        · exact .ret _
        · refine copy.bind fun buf => .step seq fun after => ?_
          split
          · exact .ret _
          · exact .ret _
      refine copied.bind fun outcome => ?_
      cases outcome with
      | none => exact .ret _
      | some buf => exact .ret _

theorem readCheck_looksAt (old : Rec n) (h : Handler) :
    (readCheck gran idx old h).Performs (Act.looksAt idx) := by
  unfold readCheck
  split
  · refine (readRow_performs true h.currentGen trivial (fun _ => rfl) trivial trivial
      fun _ => trivial).bind fun row => ?_
    cases row with
    | error e => exact .ret _
    | ok scratch =>
        dsimp only
        split
        · exact .ret _
        · exact .ret _
  · exact .ret _

theorem slotStale_looksAt (g : UInt32) :
    (slotStale (n := n) idx g).Performs (Act.looksAt idx) := by
  refine .step trivial fun state => ?_
  split
  · exact .ret _
  · exact .step rfl fun _ => .ret _

theorem readPassing_genless (other : Nat) (test : Rec n → Bool) :
    (readPassing gran other test).Performs Act.genless := by
  refine (readRow_performs false 0 trivial (fun clash => by cases clash) trivial trivial
    fun _ => trivial).bind fun row => ?_
  cases row with
  | ok buf => exact .ret _
  | error e => exact .ret _

theorem dupCheck_genless (k b : Nat) (rec : Rec n) :
    (fmCoreDupCheck D gran k b rec).Performs Act.genless := by
  unfold fmCoreDupCheck
  dsimp only
  split
  · refine .step trivial fun head => .iterate fun h => ?_
    cases h with
    | none => exact .ret _
    | some other =>
        refine (readPassing_genless other _).bind fun row => ?_
        cases row with
        | some buf => exact .ret _
        | none => exact .step trivial fun _ => .ret _
  · exact .ret _

theorem dupCheckChanged_genless (new : Rec n) (changed : List Nat) :
    (dupCheckChanged D gran new changed).Performs Act.genless := by
  induction changed with
  | nil => exact .ret _
  | cons k rest ih =>
      refine (dupCheck_genless k _ new).bind fun dup => ?_
      split
      · exact .ret _
      · exact ih

theorem writeImage_genless (new : Rec n) :
    (fmCoreWriteImage gran idx new).Performs Act.genless := by
  have copies : (memcpyIn gran idx new).Performs Act.genless := by
    apply (memcpyIn_stores gran idx new).mono
    intro ρ action stores
    cases action with
    | loadGen other => exact stores
    | _ => trivial
  exact .step trivial fun _ => copies.bind fun _ => .perform trivial

theorem chainUnlink_genless (k b : Nat) :
    (fmCoreChainUnlink (n := n) k b idx).Performs Act.genless := by
  refine .iterate fun link => .step trivial fun pointed => ?_
  cases pointed with
  | none => exact .ret _
  | some h =>
      dsimp only
      split
      · exact .step trivial fun _ => .step trivial fun _ => .ret _
      · exact .ret _

theorem relinkChanged_genless (old new : Rec n) (changed : List Nat) :
    (relinkChanged D old new idx changed).Performs Act.genless :=
  .forEach fun k _ => (chainUnlink_genless k _).bind fun _ =>
    .step trivial fun _ => .step trivial fun _ => .perform trivial

theorem unlockBuckets_genless (pairs : List (Nat × Nat)) :
    (unlockBuckets (n := n) pairs).Performs Act.genless :=
  .forEach fun _ _ => .perform trivial

theorem updateRowLocked_phased (g : UInt32) (old new : Rec n) :
    (fmCoreUpdateRowLocked D gran idx g old new).Phased (Act.looksAt idx) Act.genless := by
  unfold fmCoreUpdateRowLocked
  refine Prog.Phased.bind (slotStale_looksAt g) fun stale => .late ?_
  split
  · exact .ret _
  · dsimp only
    split
    · exact (writeImage_genless new).bind fun _ => .ret _
    · have locks : (lockBuckets (n := n) (lockset D old new (changedKeys D old new))).Performs
          Act.genless := .forEach fun _ _ => .perform trivial
      refine locks.bind fun _ => (dupCheckChanged_genless new _).bind fun dup => ?_
      cases dup with
      | some k => exact (unlockBuckets_genless _).bind fun _ => .ret _
      | none =>
          exact (writeImage_genless new).bind fun _ => (relinkChanged_genless old new _).bind
            fun _ => (unlockBuckets_genless _).bind fun _ => .ret _

theorem unlockCurrentRow_genless (h : Handler) :
    (unlockCurrentRow (n := n) h).Performs Act.genless := by
  unfold unlockCurrentRow
  split
  · exact .step trivial fun _ => .ret _
  · exact .ret _
  · exact .ret _

theorem fmUpdateRowLocked_phased (T : TableShare n) (old new : Rec n) {h : Handler}
    (current : h.currentSlot = some idx) :
    (fmUpdateRowLocked T gran old new h).Phased (Act.looksAt idx) Act.genless := by
  unfold fmUpdateRowLocked fmUpdateLockedOn
  rw [current]
  refine Prog.Phased.bind (readCheck_looksAt old h) fun checked => ?_
  cases checked with
  | error e => exact .ret _
  | ok _ =>
      refine Prog.Phased.followed (updateRowLocked_phased h.currentGen old new) fun result => ?_
      cases result with
      | error e => exact .ret _
      | ok _ => exact .ret _

theorem updateRow_phased (T : TableShare n) (old new : Rec n) {h : Handler}
    (holds : HoldsRow h idx) :
    (updateRow T gran old new h).Phased (Act.looksAt idx) Act.genless := by
  unfold updateRow
  rw [takeCurrentRow_held holds]
  change Prog.Phased _ _ ((fmUpdateRowLocked T gran old new h).bind _)
  refine Prog.Phased.followed (fmUpdateRowLocked_phased T old new holds.currentSlot) fun result => ?_
  exact (unlockCurrentRow_genless result.2).bind fun _ => .ret _

end Phases

/-! ### The conditions on the steps of an update -/

section Conditions

variable {getRecBits : Bytes → Nat → Nat → UInt8} {T : TableShare n} {gran : Gran}

def FindsCurrent (c : (rowHandlers getRecBits T gran).Config) (t : Nat) :
    (rowHandlers getRecBits T gran).Event → Prop
  | .act (.loadGen idx) _ => ∀ old new program, c.thread t = .busy (.updateRow old new) program →
      (c.st.slot idx).state = .active → (c.st.slot idx).data = old
  | _ => True

/-- The duplicate check of an update reads no row that a write_row has linked and not yet
published and that equals the new record in a unique key the update changes. -/
def ChecksPublished (c : (rowHandlers getRecBits T gran).Config) (t : Nat) :
    (rowHandlers getRecBits T gran).Event → Prop
  | .act (.loadState y) _ => ∀ old new program, c.thread t = .busy (.updateRow old new) program →
      (c.st.slot y).state.unused → ∀ k ∈ changedKeys T.core old new,
        dupChecked (T.core.keydef k) new = true →
        (T.core.keydef k).ops.cmpRecRec (c.st.slot y).data new ≠ 0
  | _ => True

variable {R : (rowHandlers getRecBits T gran).Run} {garbage : Nat → Rec n} {heap : Heap}
  {opened : Info}

/-- The row has not changed between its read and the check of its generation. -/
theorem findsCurrent_of_reads (starts : R.StartsIn (Core.fresh garbage heap) opened)
    (kept : LockKept opened (fun _ => false) 0) (cycles : UpdatesRead R) :
    R.Meets FindsCurrent := by
  have explained := quietRun_explained (rowHandlers_obedient getRecBits T gran) starts kept
  intro m bound
  have acts := R.acts bound
  generalize R.ev m = event at acts
  cases event with
  | start call => trivial
  | unroll => trivial
  | finish call result => trivial
  | act action result =>
      cases action with
      | loadGen idx =>
          intro old new program busy active
          rcases acts with ⟨call, ρ, action, next, value, acting, same, _, _⟩ | ⟨none, _⟩
          swap
          · exact absurd rfl (none _ _ _)
          cases same
          cases busy.symm.trans acting
          obtain ⟨i, info, lower, idle, running, inside⟩ :=
            R.call_started starts m (Nat.le_of_lt bound) _ busy
          obtain ⟨own, starting⟩ := Run.call_starting (by omega) idle running
          have read : JustRead R (R.tid m) old info i := by
            rw [← own] at idle ⊢
            exact cycles i old new info (by omega) starting idle
          obtain ⟨at_, holds, owner, row⟩ := read.current starts kept (by omega)
          have phased : Prog.Phased (Act.looksAt at_) Act.genless
              (rowProgram getRecBits T gran info (.updateRow old new)) := by
            unfold rowProgram onHandler
            exact Prog.Phased.followed (Prog.Phased.followed (updateRow_phased T old new holds)
              fun _ => .ret _) fun _ => .ret _
          obtain ⟨rest, busy', phase⟩ := R.phased SameHeld.refl
            (fun kind ran => (Act.looksAt.keepsHeld kind).same ran)
            running phased lower (Nat.le_of_lt bound)
            fun k above upper => inside k (by omega) upper
          cases busy.symm.trans busy'
          -- the second phase looks at no generation
          rcases phase with late | ⟨⟨kind, _⟩ | late, calm⟩
          · exact late.1.elim
          · have first : Calm R (R.tid m) i (i + 1) := calm_of_idle (by omega) idle
            have still := held_slot explained (by omega : i ≤ m) (Nat.le_of_lt bound)
              (OwnSteps.trans first calm) owner row.active
            have here : idx = at_ := kind
            rw [here]
            change ((R.st m).slot at_).data = old
            rw [still]
            exact row.data
          · exact late.1.elim
      | _ => trivial

end Conditions

/-! ### The calls keep to the protocol -/

def cyclePromise (S : Setting n) (call : RowCall n) : (coreProtocol S).Promise :=
  fun _ action s ghosts => (∀ u, ¬ (ghosts u).2.Truncates) ∧
    match action with
    | .loadGen idx => ∀ old new, call = .updateRow old new → S.linked →
        (s.slot idx).state = .active → (s.slot idx).data = old
    | .loadState y => ∀ old new, call = .updateRow old new → S.distinct →
        ∀ u a p, (ghosts u).2.role = .chaining y a p → ∀ k ∈ changedKeys S.D old new,
          dupChecked (S.D.keydef k) new = true → (S.D.keydef k).ops.cmpRecRec a new ≠ 0
    | _ => True

theorem mayUpdate_of_promise (S : Setting n) (t : Nat) (old new : Rec n) :
    MayUpdate S t (cyclePromise S (.updateRow old new)) old new where
  current linked idx g := by
    intro s kinds ghosts promised active _
    exact promised.2 old new rfl linked active
  moves idx := by
    constructor
    · intro distinct ghost k changed checked y s kinds g inv _ _ promised _ u a p role _
      exact promised.2 old new rfl distinct u a p role k changed checked
    · intro linked ghost k changed s kinds g inv _ _ promised emptied
      obtain ⟨u, cleared, empty, role, _⟩ := emptied
      exact promised.1 u ⟨cleared, empty, role⟩

section Fit

variable {S : Setting n} {getRecBits : Bytes → Nat → Nat → UInt8} {T : TableShare n}

/-- What a run is asked for where chains count and where unique keys do. -/
structure CycleBehaves (S : Setting n) (c : (rowHandlers getRecBits T S.gran).Config) (t : Nat)
    (event : (rowHandlers getRecBits T S.gran).Event) : Prop where
  current : S.linked → FindsCurrent c t event
  published : S.distinct → ChecksPublished c t event

def cycleFit (S : Setting n) (getRecBits : Bytes → Nat → Nat → UInt8) (T : TableShare n) :
    Protocol.Fit (rowHandlers getRecBits T S.gran) (coreProtocol S) where
  condition := CycleBehaves S
  idleKind := false
  kind _ := false
  promise _ call := cyclePromise S call
  Idle _ info ghost := ∃ slots seen, ghost = Ghost.rest slots seen ∧ LockKept info slots seen
  Done _ _ _ info ghost := ∃ slots seen, Ended S slots seen ghost ∧ LockKept info slots seen

theorem cycleFit_promised (core : S.D = T.core) {c : (rowHandlers getRecBits T S.gran).Config}
    {ghosts : Nat → (coreProtocol S).Kind × (coreProtocol S).Ghost} {t : Nat} {call : RowCall n}
    {ρ : Type} {action : Act n ρ} {result : ρ} (inv : (coreProtocol S).Inv c.st ghosts)
    (kinds : ∀ u, (ghosts u).1 = (cycleFit S getRecBits T).kindOf (c.thread u))
    (busy : ∃ next, c.thread t = .busy call (.act action next))
    (behaves : CycleBehaves S c t (.act action result)) :
    cyclePromise S call action c.st ghosts := by
  obtain ⟨next, busy⟩ := busy
  constructor
  · exact uncleared_of_kinds rfl (fun _ => rfl) inv kinds
  · cases action with
    | loadGen idx =>
        intro old new same linked active
        subst same
        exact behaves.current linked old new _ busy active
    | loadState y =>
        intro old new same distinct u a p role k changed checked
        subst same
        have linked := S.distinct_linked distinct
        obtain ⟨unused, _, image⟩ := (inv.1.ok u).chaining role
        rw [core] at changed checked ⊢
        have differs := behaves.published distinct old new _ busy unused k changed checked
        rw [(image linked).1] at differs
        exact differs
    | _ => trivial

theorem cycleFit_laws (core : S.D = T.core) : (cycleFit S getRecBits T).Laws where
  promised inv kinds _ busy behaves := cycleFit_promised core inv kinds busy behaves
  start := by
    intro c ghosts t call info inv _ _ idle allowed _
    obtain ⟨slots, seen, mine, same, sound, below⟩ := idle
    obtain ⟨learned, more, _⟩ := resting_starts inv mine
    refine ⟨Ghost.rest slots c.st.slotCount, learned, ?_⟩
    subst same
    have opens : ∀ idx, CoreTriple.FlipOpen S (cyclePromise S call) idx :=
      fun _ _ _ _ promised u cleared emptied role => promised.1 u ⟨cleared, emptied, role⟩
    have may : ∀ old new, call = .updateRow old new →
        MayUpdate S t (cyclePromise S call) old new := by
      intro old new isUpdate
      subst isUpdate
      exact mayUpdate_of_promise S t old new
    have triple : CoreTriple S t false (cyclePromise S call)
        (Ghost.rest (rowSlots info.toHandler.held) c.st.slotCount)
        (rowProgram getRecBits T S.gran info call) fun outcome ghost' =>
          RowKept outcome.2.toHandler ghost' :=
      rowProgram_kept getRecBits T core call may opens (RowCall.rndPos_valid allowed) sound
        (below.mono more)
    apply triple.mono
    intro outcome ghost' keeps
    obtain ⟨seen', rest, sound', below'⟩ := keeps
    subst rest
    exact ⟨rowSlots outcome.2.toHandler.held, seen', Ended.rest, rfl, sound', below'⟩
  finish := by
    intro s ghosts t call result info ghost inv mine done
    obtain ⟨slots, seen, ended, keeps⟩ := done
    refine ⟨Ghost.rest slots seen, ended_rests inv ?_, slots, seen, rfl, keeps⟩
    rw [mine]
    exact ended

end Fit

/-! ### Whole runs -/

section Runs

variable {getRecBits : Bytes → Nat → Nat → UInt8} {T : TableShare n}

/-- Every moment of a run of read-update cycles is explained by ghost values. -/
theorem cycleRun_covered {S : Setting n} (core : S.D = T.core)
    {R : (rowHandlers getRecBits T S.gran).Run} {garbage : Nat → Rec n} {heap : Heap}
    {opened : Info} (starts : R.StartsIn (Core.fresh garbage heap) opened)
    (kept : LockKept opened (fun _ => false) 0) (cycles : UpdatesRead R)
    (published : S.distinct → R.Meets ChecksPublished) :
    ∀ i, i ≤ R.len → ∃ ghosts, (cycleFit S getRecBits T).Covers 0 (R.cfg i) ghosts := by
  have behaves : R.Meets (CycleBehaves S) := fun i bound =>
    ⟨fun _ => findsCurrent_of_reads starts kept cycles i bound,
      fun distinct => published distinct i bound⟩
  intro i bound
  exact restingRun_covered (cycleFit_laws core) behaves starts rfl
    (fun _ => ⟨fun _ => false, 0, rfl, kept⟩) i bound 0

/-- Chains, freelist and counter under any interleaving of the row calls of any number of
handlers that read a row before they update it. -/
theorem rowHandlers_integrity (getRecBits : Bytes → Nat → Nat → UInt8) (T : TableShare n)
    (hashes : HashesAgree T.core) (R : (rowHandlers getRecBits T .whole).Run)
    (garbage : Nat → Rec n) (heap : Heap) (readCheckUsed : Bool) (maxKeyLength activeIndex : Nat)
    (starts : R.StartsIn (Core.fresh garbage heap)
      (fmOpened readCheckUsed maxKeyLength activeIndex)) (cycles : UpdatesRead R) :
    ∀ i, i ≤ R.len →
      (∀ k b, (R.st i).owner (.bucket k b) = none → ChainWhole T.core (R.st i) k b) ∧
      OneChain (R.st i) ∧
      ((∀ t, ∃ info, (R.cfg i).thread t = .idle info) → Consistent T.core (R.st i)) := by
  intro i bound
  have kept := fmOpened_kept readCheckUsed maxKeyLength activeIndex
  obtain ⟨ghosts, covers⟩ := cycleRun_covered (S := wholeSetting T.core hashes) rfl starts kept
    cycles False.elim i bound
  have inv := covers.inv.1
  refine ⟨fun k b free => inv.chainWhole trivial free, inv.oneChain trivial, ?_⟩
  intro resting
  apply inv.consistent trivial
  intro t
  obtain ⟨info, idle⟩ := resting t
  obtain ⟨slots, seen, mine, _⟩ := covers.idle idle
  rw [mine]
  rfl

/-- No two rows have one value of a unique key, unless an update has checked a row that was
linked and not yet published. -/
theorem rowHandlers_uniqueKeys (getRecBits : Bytes → Nat → Nat → UInt8) (T : TableShare n)
    (keys : KeysEquivalent T.core) (R : (rowHandlers getRecBits T .whole).Run)
    (garbage : Nat → Rec n) (heap : Heap) (readCheckUsed : Bool) (maxKeyLength activeIndex : Nat)
    (starts : R.StartsIn (Core.fresh garbage heap)
      (fmOpened readCheckUsed maxKeyLength activeIndex)) (cycles : UpdatesRead R)
    (published : R.Meets ChecksPublished) : ∀ i, i ≤ R.len → DistinctRows T.core (R.st i) := by
  intro i bound
  have kept := fmOpened_kept readCheckUsed maxKeyLength activeIndex
  obtain ⟨ghosts, covers⟩ := cycleRun_covered (S := distinctSetting T.core keys) rfl starts kept
    cycles (fun _ => published) i bound
  exact covers.inv.1.distinctRows trivial

end Runs

theorem rowHandlers_integrity_cycleTurns : cycleTurnsRun.len = 122 ∧ UpdatesRead cycleTurnsRun ∧
    ∀ i, i ≤ cycleTurnsRun.len → OneChain (cycleTurnsRun.st i) := by
  refine ⟨rfl, cycleTurns_cycles, fun i bound => ?_⟩
  exact (rowHandlers_integrity zeroBits byteShare byteTable_hashes cycleTurnsRun _ _ false 1 64 rfl
    cycleTurns_cycles i bound).2.1

def checkStep {getRecBits : Bytes → Nat → Nat → UInt8} {T : TableShare n} {gran : Gran}
    (c : (rowHandlers getRecBits T gran).Config) (t : Nat)
    (event : (rowHandlers getRecBits T gran).Event) : Bool :=
  match event with
  | .act (.loadState y) _ => (c.thread t).calling.all fun call =>
      match call with
      | .updateRow old new => checksLive T.core (c.st.slot y) old new
      | _ => true
  | _ => true

theorem checksPublished_of_steps {getRecBits : Bytes → Nat → Nat → UInt8} {T : TableShare n}
    {gran : Gran} {R : (rowHandlers getRecBits T gran).Run}
    (steps : ∀ i, i < R.len → checkStep (R.cfg i) (R.tid i) (R.ev i) = true) :
    R.Meets ChecksPublished := by
  intro i bound
  have passed := steps i bound
  unfold checkStep at passed
  unfold ChecksPublished
  generalize R.ev i = event at passed
  split
  · rename_i y _
    intro old new program busy unused k changed _
    rw [busy] at passed
    exact differs_of_checksLive passed unused changed
  · trivial

/-- Handler 0 changes its row 7 to 5 while handler 1 has linked the row 9 into the same bucket and
not yet published it. Then handler 0 tries to change its row 8 to 9. -/
def changeTurns : List (Nat × Option (RowCall 1)) :=
  List.flatten [callSteps 0 (.externalLock .wrlck) 1, callSteps 0 (.writeRow true fun _ => 7) 35,
    callSteps 0 (.writeRow true fun _ => 8) 17, callSteps 0 (.indexReadIdxMap 0 [7]) 19,
    callSteps 1 (.externalLock .wrlck) 1, callSteps 1 (.writeRow true fun _ => 9) 19,
    callSteps 0 (.updateRow (fun _ => 7) fun _ => 5) 31, List.replicate 5 (1, none),
    callSteps 0 (.indexReadIdxMap 0 [8]) 19, callSteps 0 (.updateRow (fun _ => 8) fun _ => 9) 22,
    callSteps 0 (.externalLock .unlck) 1]

theorem changeTurns_played : (play (S := rowHandlers zeroBits byteShare .whole)
    ⟨byteStart, fun _ => .idle (fmOpened false 1 64)⟩ changeTurns).isSome = true := by
  decide +kernel

def changeTurnsRun : (rowHandlers zeroBits byteShare .whole).Run :=
  Run.ofSchedule ⟨byteStart, fun _ => .idle (fmOpened false 1 64)⟩ changeTurns changeTurns_played

def changeInfo (t m : Nat) : Info :=
  ((changeTurnsRun.cfg m).thread t).resting.getD (fmOpened false 1 64)

def readBeforeChange (i : Nat) : Option (RowCall 1 × Nat × Nat) :=
  if i = 98 then some (.indexReadIdxMap 0 [7], 56, 75) else some (.indexReadIdxMap 0 [8], 135, 154)

theorem changeTurns_passes :
    ((∀ i, i < changeTurnsRun.len → startsRead changeTurnsRun readBeforeChange i = true) ∧
      replays checkStep
        (⟨byteStart, fun _ => .idle (fmOpened false 1 64)⟩ :
          (rowHandlers zeroBits byteShare .whole).Config) changeTurns = true) ∧
    ((∀ i, i < changeTurnsRun.len → changeTurnsRun.tid i ≤ 1) ∧
      (∀ t, t ≤ 1 → ((changeTurnsRun.cfg 180).thread t).resting.isSome = true)) ∧
    changeTurnsRun.returns 1 (.writeRow true fun _ => 9) (changeInfo 1 78) 78 134
      (.changed (.ok ())) (changeInfo 1 135) = true ∧
    changeTurnsRun.returns 0 (.updateRow (fun _ => 7) fun _ => 5) (changeInfo 0 98) 98 129
      (.changed (.ok ())) (changeInfo 0 130) = true ∧
    changeTurnsRun.returns 0 (.updateRow (fun _ => 8) fun _ => 9) (changeInfo 0 155) 155 177
      (.changed (.error .foundDuppKey)) (changeInfo 0 178) = true := by
  decide +kernel

theorem changeTurns_active : activeSlots (changeTurnsRun.st 180) = {0, 1, 2} := by
  obtain ⟨_, ⟨movers, resting⟩, _⟩ := changeTurns_passes
  have rests := changeTurnsRun.all_rest 1 rfl movers (Nat.le_refl 180) resting
  have counted := (quietRun_rests (rowHandlers_obedient zeroBits byteShare .whole)
    (R := changeTurnsRun) rfl (fmOpened_kept false 1 64) (Nat.le_refl 180) rests).2
  exact activeSlots_eq counted (by decide +kernel) (by decide +kernel)

theorem rowHandlers_uniqueKeys_changeTurns :
    changeTurnsRun.Returned 1 (.writeRow true fun _ => 9) (changeInfo 1 78) 78 134
      (.changed (.ok ())) (changeInfo 1 135) ∧
    changeTurnsRun.Returned 0 (.updateRow (fun _ => 7) fun _ => 5) (changeInfo 0 98) 98 129
      (.changed (.ok ())) (changeInfo 0 130) ∧
    changeTurnsRun.Returned 0 (.updateRow (fun _ => 8) fun _ => 9) (changeInfo 0 155) 155 177
      (.changed (.error .foundDuppKey)) (changeInfo 0 178) ∧
    activeSlots (changeTurnsRun.st 180) = {0, 1, 2} ∧
    ∀ i, i ≤ changeTurnsRun.len → DistinctRows byteTable (changeTurnsRun.st i) := by
  obtain ⟨⟨cycles, published⟩, _, inserted, updated, refused⟩ := changeTurns_passes
  exact ⟨Run.returned_of_returns inserted, Run.returned_of_returns updated,
    Run.returned_of_returns refused, changeTurns_active,
    rowHandlers_uniqueKeys zeroBits byteShare byteTable_consistent.toKeysEquivalent changeTurnsRun
      _ _ false 1 64 rfl (updatesRead_of_steps readBeforeChange cycles)
      (checksPublished_of_steps (Run.ofSchedule_passes checkStep published))⟩

end Fastmem
