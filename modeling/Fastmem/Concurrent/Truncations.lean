/-
Truncation beside other calls (fm_core.h).

fm_core_clear empties the chains bucket by bucket, frees the slots and builds the
freelist anew, all under the struct mutex. A delete that has flipped its row and
an update that links its row again take part in the same chains and the same
freelist without the mutex. Where neither of them overlaps the truncation in this
way, the share is consistent whenever no call is under way.
-/

import Fastmem.Concurrent.UniqueKeys
import Fastmem.Core.CallFrames
import Fastmem.RunExtension

set_option autoImplicit false

namespace Fastmem

open Prog (perform forEach)
open ThreadSystem

variable {n : Nat}

/-- Chains, freelist and counter under any interleaving of truncations, inserts, updates, deletes
and lookups that keeps truncations apart from deletes and from relinking updates. -/
theorem truncations_consistent (D : ShareDef n) (hashes : HashesAgree D)
    (R : (coreClients D .whole).Run) (garbage : Nat → Rec n) (heap : Heap)
    (starts : R.StartsIn (Core.fresh garbage heap) ()) (current : R.Meets PassesCurrent)
    (apart : R.Meets TruncatesApart) :
    ∀ i, i ≤ R.len →
      (∀ k b, (R.st i).owner (.bucket k b) = none → ChainWhole D (R.st i) k b) ∧
      OneChain (R.st i) ∧
      ((∀ t, ∃ kept, (R.cfg i).thread t = .idle kept) → Consistent D (R.st i)) := by
  have behaves : R.Meets (Behaves (wholeSetting D hashes) False fun _ _ _ => True) :=
    fun i bound => ⟨fun _ => current i bound, fun _ => apart i bound, False.elim, False.elim,
      fun _ _ _ => trivial⟩
  intro i bound
  obtain ⟨ghosts, covers⟩ := coreRun_covered (S := wholeSetting D hashes) False.elim starts behaves
    i bound 0
  refine ⟨fun k b free => covers.inv.1.chainWhole trivial free, covers.inv.1.oneChain trivial, ?_⟩
  intro resting
  exact covers.inv.1.consistent trivial (covers_idle covers resting)

/-! ### A concrete run -/

section Tests

variable {D : ShareDef n} {gran : Gran} {c : (coreClients D gran).Config} {t : Nat}
  {event : (coreClients D gran).Event}

theorem passesCurrent_without
    (updateNone : ∀ u call program, c.thread u = .busy call program → call.updates = none) :
    PassesCurrent c t event := by
  unfold PassesCurrent
  split
  · rintro g old new ⟨call, program, busy, isUpdate⟩ _ _
    cases (updateNone _ _ _ busy).symm.trans isUpdate
  · trivial

theorem truncatesApart_without (clearNone : ∀ u program, c.thread u ≠ .busy .clear program) :
    TruncatesApart c t event := by
  unfold TruncatesApart
  split
  · rintro ⟨program, clears⟩
    exact absurd clears (clearNone _ _)
  · rintro u ⟨⟨program, clears⟩, _⟩
    exact clearNone _ _ clears
  · intro g old new _ u program clears
    exact absurd clears (clearNone _ _)
  · trivial

def Act.clears (ρ : Type) : Act n ρ → Prop
  | .lock .structMutex | .storeState _ .deleting => False
  | _ => True

theorem truncatesApart_inside
    (updateNone : ∀ u call program, c.thread u = .busy call program → call.updates = none)
    (actions : ∀ (ρ : Type) (action : Act n ρ) (result : ρ), event = .act action result →
      Act.clears ρ action) : TruncatesApart c t event := by
  unfold TruncatesApart
  split
  · exact (actions _ _ _ rfl).elim
  · exact (actions _ _ _ rfl).elim
  · rintro g old new ⟨call, program, busy, isUpdate⟩
    cases (updateNone _ _ _ busy).symm.trans isUpdate
  · trivial

/-- What fm_core_clear does once it has the struct mutex. -/
def clearHolding (D : ShareDef n) : CoreProg n Unit := do
  clearBuckets D
  let cnt ← perform .loadChunkCnt
  let total := cnt * fmChunkSize
  clearSlots total
  perform (.storeCell .freeHead none)
  forEach (List.range total) fmCoreFreeSlot
  perform (.storeRecords 0)
  perform (.unlock .structMutex)

theorem clear_eq (D : ShareDef n) :
    fmCoreClear D = perform (.lock .structMutex) >>= fun _ => clearHolding D := rfl

/-- A call beside which nobody else moves is a call of a serial run. -/
theorem SerialRun.called {R : (coreClients D gran).Run} {start : Core n} {served : List (Served n)}
    {t i j : Nat} {call : CoreCall n} {result : CoreRes n}
    (run : SerialRun D gran start served (R.st i))
    (returned : R.Returned t call () i j result ()) (sole : ∀ m, i < m → m < j → R.tid m = t)
    (serial : SerialCall n) (answer : serial.Res → CoreRes n)
    (same : call.program D gran = do return answer (← serial.program D gran))
    (allowed : serial.Allowed D (R.st i)) :
    ∃ served, SerialRun D gran start served (R.st (j + 1)) := by
  have ran : Runs t (call.program D gran >>= fun outcome => return (outcome, ())) (R.st (i + 1))
      (result, ()) (R.st j) := returned.exec sole
  rw [returned.outside.1] at ran
  rw [returned.outside.2]
  obtain ⟨outcome, mid, first, last⟩ := runs_bind_inv ran
  obtain ⟨_, rfl⟩ := runs_pure_inv last
  rw [same] at first
  obtain ⟨value, mid', inner, outer⟩ := runs_bind_inv first
  obtain ⟨_, rfl⟩ := runs_pure_inv outer
  exact ⟨_, run.snoc allowed inner⟩

theorem clearHolding_clears (D : ShareDef n) : (clearHolding D).Performs Act.clears := by
  refine Prog.Performs.bind (.forEach fun k _ => .forEach fun b _ => ?_) fun _ => ?_
  · exact .step trivial fun _ => .step trivial fun _ => .perform trivial
  · refine .step trivial fun cnt => Prog.Performs.bind (.forEach fun i _ => ?_) fun _ => ?_
    · exact .step trivial fun _ => .step trivial fun _ => .step trivial fun _ => .perform trivial
    · refine .step trivial fun _ => Prog.Performs.bind (.forEach fun i _ => ?_) fun _ => ?_
      · exact .step trivial fun _ => .step trivial fun _ => .perform trivial
      · exact .step trivial fun _ => .perform trivial

def storesBelow (limit : Nat) : (coreClients D gran).Event → Bool
  | .act (.storeState idx _) _ => decide (idx < limit)
  | _ => true

theorem free_above (R : (coreClients D gran).Run) (limit : Nat)
    (free : ∀ idx, limit ≤ idx → ((R.st 0).slot idx).state = .free)
    (steps : ∀ i, i < R.len → storesBelow limit (R.ev i) = true) :
    ∀ i, i ≤ R.len → ∀ idx, limit ≤ idx → ((R.st i).slot idx).state = .free := by
  refine @Run.invariant _ _ R (fun c => ∀ idx, limit ≤ idx → (c.st.slot idx).state = .free) free
    fun i bound before idx above => ?_
  have below := steps i bound
  rcases R.acts bound with ⟨call, ρ, action, next, result, _, event, ran, _⟩ | ⟨_, same⟩
  swap
  · change ((R.st (i + 1)).slot idx).state = .free
    rw [same]
    exact before idx above
  rw [event] at below
  have now : ((R.st i).slot idx).state = .free := before idx above
  change ((R.st (i + 1)).slot idx).state = .free
  generalize R.st i = s at ran now
  generalize R.st (i + 1) = s' at ran
  have stored : ∀ j (slot : Slot n), slot.state = (s.slot j).state →
      ((s.setSlot j slot).slot idx).state = .free := by
    intro j slot same
    by_cases here : idx = j
    · subst here
      rw [show (s.setSlot idx slot).slot idx = slot from Function.update_self ..]
      exact same.trans now
    · rw [show (s.setSlot j slot).slot idx = s.slot idx from Function.update_of_ne here ..]
      exact now
  cases action with
  | storeState j state =>
      cases ran
      have different : idx ≠ j := by
        have : j < limit := of_decide_eq_true below
        omega
      rw [show (s.setSlot j _).slot idx = s.slot idx from Function.update_of_ne different ..]
      exact now
  | bumpGen j =>
      cases ran
      exact stored j _ rfl
  | bumpSeq j =>
      cases ran
      exact stored j _ rfl
  | storeData j rec =>
      cases ran
      exact stored j _ rfl
  | storeByte j at_ byte =>
      cases ran
      exact stored j _ rfl
  | initSlots c =>
      cases ran
      change (if idx / fmChunkSize = c then _ else _ : Slot n).state = .free
      split
      · rfl
      · exact now
  | lock l =>
      have locked : Act.exec (R.tid i) (.lock l) s = some (result, s') := ran
      obtain ⟨_, rfl⟩ := exec_lock_inv locked
      exact now
  | _ =>
      cases ran
      exact now

variable {R : (coreClients D gran).Run}

structure Careful (R : (coreClients D gran).Run) : Prop where
  current : R.Meets PassesCurrent
  apart : R.Meets TruncatesApart

theorem Careful.start (careful : Careful R) (u : Nat) (call : CoreCall n)
    (idle : (R.cfg R.len).thread u = .idle ()) (allowed : call.allowed D u (R.st R.len) = true) :
    ∃ R' : (coreClients D gran).Run, R'.Extends R ∧ Careful R' ∧ R'.len = R.len + 1 ∧
      R'.st R'.len = R.st R.len ∧
      (R'.cfg R'.len).thread u = .busy call ((coreClients D gran).code u call ()) ∧
      ∀ t, t ≠ u → (R'.cfg R'.len).thread t = (R.cfg R.len).thread t := by
  have first : Step (R.cfg R.len) u (.start call)
      ((R.cfg R.len).set u (.busy call ((coreClients D gran).code u call ()))) :=
    Step.start (S := coreClients D gran) call idle allowed
  exact ⟨R.snoc first, Run.snoc_extends first, ⟨Run.snoc_meets first careful.current trivial,
    Run.snoc_meets first careful.apart trivial⟩, rfl, Run.snoc_st first,
    (Run.snoc_thread first u).trans (Function.update_self ..),
    fun t other => (Run.snoc_thread first t).trans (Function.update_of_ne other ..)⟩

theorem Careful.finish {u : Nat} {call : CoreCall n} {result : CoreRes n} {s' : Core n}
    (careful : Careful R)
    (busy : (R.cfg R.len).thread u = .busy call ((coreClients D gran).code u call ()))
    (ran : Runs u (call.program D gran) (R.st R.len) result s')
    (beside : ∀ t call program, (R.cfg R.len).thread t = .busy call program →
      call.updates = none ∧ call ≠ .clear) :
    ∃ R' : (coreClients D gran).Run, R'.Extends R ∧ Careful R' ∧ R.len < R'.len ∧
      R'.st R'.len = s' ∧ (R'.cfg R'.len).thread u = .idle () ∧
      ∀ t, t ≠ u → (R'.cfg R'.len).thread t = (R.cfg R.len).thread t := by
  have code : Runs u ((coreClients D gran).code u call ()) (R.st R.len) (result, ()) s' :=
    runs_bind ran (runs_pure _ _)
  obtain ⟨R', j, continued, ended, length, longer, _⟩ := R.resumed busy code
    (.of_all (fun _ _ => (trivial : (fun _ _ => True) _ _)) _)
  have still : ∀ i, R.len ≤ i → i < R'.len → ∀ t call program,
      (R'.cfg i).thread t = .busy call program → call.updates = none ∧ call ≠ .clear :=
    continued.calls (fun call => CoreCall.updates call = none ∧ call ≠ CoreCall.clear)
      (beside u call _ busy) beside
  refine ⟨R', continued.extension, ⟨continued.extension.meets careful.current ?_,
    continued.extension.meets careful.apart ?_⟩, by omega, ?_, ?_, fun t other => ?_⟩
  · exact fun i lower upper =>
      passesCurrent_without fun t call program now => (still i lower upper t call program now).1
  · refine fun i lower upper => truncatesApart_without fun t program now => ?_
    exact (still i lower upper t _ program now).2 rfl
  · unfold Run.st
    rw [ended]
  · rw [ended]
    exact Function.update_self ..
  · rw [ended]
    exact Function.update_of_ne other ..

theorem Careful.clear {u : Nat} (careful : Careful R)
    (rep : Rep D (R.st R.len) none) (quiet : Quiet (R.st R.len))
    (idle : (R.cfg R.len).thread u = .idle ()) (settled : NoDeleteUnderWay (R.st R.len))
    (updateNone : ∀ t call program, (R.cfg R.len).thread t = .busy call program →
      call.updates = none) :
    ∃ R' : (coreClients D gran).Run, R'.Extends R ∧ Careful R' ∧ Rep D (R'.st R'.len) none ∧
      Quiet (R'.st R'.len) ∧ rows (R'.st R'.len) = (fun _ => none) ∧
      (R'.cfg R'.len).thread = (R.cfg R.len).thread ∧
      ∃ j, R'.len = j + 1 ∧ R'.Returned u .clear () R.len j .done () := by
  obtain ⟨s', ran, rep', quiet', gone⟩ := clear_runs (t := u) rep quiet
  rw [clear_eq] at ran
  obtain ⟨_, mid, locked, holding⟩ := runs_perform_inv ran
  have first : Step (R.cfg R.len) u (.start .clear)
      ((R.cfg R.len).set u (.busy .clear ((coreClients D gran).code u .clear ()))) :=
    .start CoreCall.clear idle rfl
  let R₁ := R.snoc first
  let rest : CoreProg n (CoreRes n × Unit) := do return (← (do clearHolding D; return .done), ())
  have running : (R₁.cfg R₁.len).thread u = .busy .clear (.act (.lock .structMutex) fun _ => rest) :=
    (Run.snoc_thread first u).trans (Function.update_self ..)
  have second : Step (R₁.cfg R₁.len) u (.act (.lock .structMutex) ())
      ⟨mid, Function.update (R₁.cfg R₁.len).thread u (.busy .clear rest)⟩ := by
    refine .act running ?_
    rw [show (R₁.cfg R₁.len).st = R.st R.len from Run.snoc_st first]
    exact locked
  let R₂ := R₁.snoc second
  have within : (R₂.cfg R₂.len).thread u = .busy .clear rest :=
    (Run.snoc_thread second u).trans (Function.update_self ..)
  have others : ∀ t, t ≠ u → (R₂.cfg R₂.len).thread t = (R.cfg R.len).thread t := by
    intro t other
    exact (Run.snoc_thread second t).trans ((Function.update_of_ne other ..).trans
      ((Run.snoc_thread first t).trans (Function.update_of_ne other ..)))
  have remains : Runs u rest (R₂.st R₂.len) (.done, ()) s' := by
    rw [Run.snoc_st]
    exact runs_bind (runs_bind holding (runs_pure _ _)) (runs_pure _ _)
  obtain ⟨R', j, continued, ended, length, longer, returns⟩ := R₂.resumed within remains
    (((clearHolding_clears D).bind fun _ => .ret _).bind fun _ => .ret _)
  have begun : R₂.Extends R := (Run.snoc_extends second).trans (Run.snoc_extends first)
  have inside : ∀ i, R₂.len ≤ i → i < R'.len → ∀ t call program,
      (R'.cfg i).thread t = .busy call program → call.updates = none := by
    refine continued.calls (fun call => CoreCall.updates call = none) rfl fun t call program busy => ?_
    by_cases own : t = u
    · subst own
      rw [within] at busy
      cases busy
      rfl
    · rw [others t own] at busy
      exact updateNone t call program busy
  have careful₂ : Careful R₂ := by
    refine ⟨Run.snoc_meets second (Run.snoc_meets first careful.current trivial) trivial,
      Run.snoc_meets second (Run.snoc_meets first careful.apart trivial) fun _ => ?_⟩
    rw [show (R₁.cfg R₁.len).st = R.st R.len from Run.snoc_st first]
    exact settled
  have final : R'.st R'.len = s' := by
    unfold Run.st
    rw [ended]
  refine ⟨R', continued.extension.trans begun,
    ⟨continued.extension.meets careful₂.current fun i lower upper =>
      passesCurrent_without (inside i lower upper),
    continued.extension.meets careful₂.apart fun i lower upper =>
      truncatesApart_inside (inside i lower upper) (continued.actions i lower upper)⟩,
    final ▸ rep', final ▸ quiet', final ▸ gone, ?_, j, length, ?_⟩
  · rw [ended]
    funext t
    by_cases own : t = u
    · subst own
      rw [idle]
      exact Function.update_self ..
    · exact (Function.update_of_ne own ..).trans (others t own)
  · have whole : Run.Continues R₁ R' u .clear fun _ _ => True :=
      (Run.Continues.snoc running second fun _ _ _ _ => trivial).trans
        (continued.mono fun _ _ _ => trivial)
    exact Run.Continues.returned first whole idle length (Nat.le_of_succ_le longer) returns

/-- The call is under way at time `i` and has not returned by time `j`. -/
def Overlaps (R : (coreClients D gran).Run) (t : Nat) (call : CoreCall n) (i j : Nat) : Prop :=
  (∃ program, (R.cfg i).thread t = .busy call program) ∧
    ∃ a b result, a ≤ j ∧ j < b ∧ R.Returned t call () a b result ()

/-- A lookup and an insert begin, the table is truncated, then both go on. -/
theorem Careful.besideClear (careful : Careful R) (hashes : HashesAgree D) {start : Core n}
    (starts : R.StartsIn start ()) (rep : Rep D (R.st R.len) none) (quiet : Quiet (R.st R.len))
    (settled : NoDeleteUnderWay (R.st R.len)) (rests : ∀ t, ∃ kept, (R.cfg R.len).thread t = .idle kept)
    {key : Nat} (valid : key < D.keys) (packed : PackedKey) (rec : Rec n) :
    ∃ (R' : (coreClients D gran).Run) (j : Nat), R'.Extends R ∧ Careful R' ∧
      R'.st (R.len + 2) = R.st R.len ∧ R'.Returned 0 .clear () (R.len + 2) j .done () ∧
      rows (R'.st (j + 1)) = (fun _ => none) ∧
      Overlaps R' 1 (.find key packed) (R.len + 2) j ∧
      Overlaps R' 2 (.insertRow rec) (R.len + 2) j ∧
      ∀ t, ∃ kept, (R'.cfg R'.len).thread t = .idle kept := by
  have idle : ∀ t, (R.cfg R.len).thread t = .idle () := fun t => (rests t).choose_spec
  -- both calls begin
  obtain ⟨R₁, extended₁, careful₁, length₁, st₁, own₁, others₁⟩ :=
    careful.start 1 (.find key packed) (idle 1) (decide_eq_true valid)
  obtain ⟨R₂, extended₂, careful₂, length₂, st₂, own₂, others₂⟩ :=
    careful₁.start 2 (.insertRow rec) ((others₁ 2 (by decide)).trans (idle 2)) rfl
  have same : R₂.st R₂.len = R.st R.len := st₂.trans st₁
  have length : R₂.len = R.len + 2 := by omega
  have finds := (others₂ 1 (by decide)).trans own₁
  have rest : ∀ t, t ≠ 1 → t ≠ 2 → (R₂.cfg R₂.len).thread t = .idle () :=
    fun t first second => (others₂ t second).trans ((others₁ t first).trans (idle t))
  have busy : ∀ t call program, (R₂.cfg R₂.len).thread t = .busy call program →
      call.updates = none ∧ call ≠ .clear := by
    intro t call program now
    by_cases first : t = 1
    · subst first
      rw [finds] at now
      cases now
      exact ⟨rfl, nofun⟩
    · by_cases second : t = 2
      · subst second
        rw [own₂] at now
        cases now
        exact ⟨rfl, nofun⟩
      · rw [rest t first second] at now
        cases now
  -- the truncation
  rw [← same] at rep quiet settled
  obtain ⟨R₃, extended₃, careful₃, rep₃, quiet₃, gone, threads₃, j, length₃, cleared⟩ :=
    careful₂.clear rep quiet (rest 0 (by decide) (by decide)) settled
      fun t call program now => (busy t call program now).1
  -- the insert
  obtain ⟨outcome, s₄, inserted, rep₄, quiet₄, _⟩ := call_runs (t := 2) gran hashes rep₃ quiet₃
    (.insertRow rec) trivial
  obtain ⟨R₄, extended₄, careful₄, longer₄, st₄, own₄, others₄⟩ :=
    careful₃.finish (by rw [threads₃]; exact own₂) (runs_bind inserted (runs_pure (CoreRes.inserted outcome) s₄))
      (by rw [threads₃]; exact busy)
  rw [threads₃] at others₄
  -- the lookup
  obtain ⟨found, s₅, looked, _⟩ := call_runs (t := 1) gran hashes rep₄ quiet₄ (.find key packed) valid
  have beside : ∀ t call program, (R₄.cfg R₄.len).thread t = .busy call program →
      call.updates = none ∧ call ≠ .clear := by
    intro t call program now
    by_cases second : t = 2
    · subst second
      rw [own₄] at now
      cases now
    · rw [others₄ t second] at now
      exact busy t call program now
  obtain ⟨R₅, extended₅, careful₅, longer₅, _, own₅, others₅⟩ :=
    careful₄.finish ((others₄ 1 (by decide)).trans finds)
      (by rw [st₄]; exact runs_bind looked (runs_pure (CoreRes.found found) s₅)) beside
  have extended : R₅.Extends R₂ := extended₅.trans (extended₄.trans extended₃)
  have resting : ∀ t, (R₅.cfg R₅.len).thread t = .idle () := by
    intro t
    by_cases first : t = 1
    · subst first
      exact own₅
    · rw [others₅ t first]
      by_cases second : t = 2
      · subst second
        exact own₄
      · exact (others₄ t second).trans (rest t first second)
  have overlaps : ∀ t call, (R₂.cfg R₂.len).thread t =
      .busy call ((coreClients D gran).code t call ()) → Overlaps R₅ t call R₂.len j := by
    intro t call now
    refine ⟨⟨_, by rw [extended.cfg _ (Nat.le_refl _)]; exact now⟩, ?_⟩
    have still : (R₅.cfg R₃.len).thread t = .busy call ((coreClients D gran).code t call ()) := by
      rw [(extended₅.trans extended₄).cfg _ (Nat.le_refl _), threads₃]
      exact now
    obtain ⟨a, _, b, result, _, lower, upper, _, returned⟩ := R₅.call_returned
      ((extended.trans (extended₂.trans extended₁)).startsIn starts)
      (by omega : R₃.len ≤ R₅.len) (Nat.le_refl _) still fun program now => by
        rw [resting t] at now
        cases now
    exact ⟨a, b, result, by omega, by omega, returned⟩
  refine ⟨R₅, j, extended.trans (extended₂.trans extended₁), careful₅, ?_, ?_, ?_, ?_, ?_,
    fun t => ⟨(), resting t⟩⟩
  · rw [← length, extended.st (Nat.le_refl _), same]
  · rw [← length]
    exact (extended₅.trans extended₄).returned cleared
  · rw [← length₃, (extended₅.trans extended₄).st (Nat.le_refl _)]
    exact gone
  · rw [← length]
    exact overlaps 1 _ finds
  · rw [← length]
    exact overlaps 2 _ own₂

end Tests

def clearTurns : List (Nat × Option (CoreCall 1)) :=
  List.flatten [callSteps 0 (.insertRow fun _ => 7) 34, callSteps 0 (.insertRow fun _ => 8) 16,
    callSteps 1 (.updateRow 0 0 (fun _ => 7) fun _ => 10) 28, callSteps 0 (.deleteRow 1 0) 23]

theorem clearTurns_played : (play (S := coreClients byteTable .whole)
    ⟨byteStart, fun _ => .idle ()⟩ clearTurns).isSome = true := by
  decide +kernel

def clearTurnsRun : (coreClients byteTable .whole).Run :=
  Run.ofSchedule ⟨byteStart, fun _ => .idle ()⟩ clearTurns clearTurns_played

theorem clearTurns_starts : clearTurnsRun.StartsIn byteStart () := rfl

theorem clearTurns_passes :
    (carefulTurns (⟨byteStart, fun _ => .idle ()⟩ : (coreClients byteTable .whole).Config)
        clearTurns = true ∧
      (∀ i, i < clearTurnsRun.len → clearTurnsRun.tid i ≤ 1) ∧
      ∀ t, t ≤ 1 → ((clearTurnsRun.cfg 105).thread t).resting.isSome = true) ∧
    (clearTurnsRun.returns 0 (.insertRow fun _ => 7) () 0 34 (.inserted (.ok 0)) () = true ∧
      clearTurnsRun.returns 0 (.insertRow fun _ => 8) () 35 51 (.inserted (.ok 1)) () = true ∧
      clearTurnsRun.returns 1 (.updateRow 0 0 (fun _ => 7) fun _ => 10) () 52 80
        (.changed (.ok ())) () = true ∧
      clearTurnsRun.returns 0 (.deleteRow 1 0) () 81 104 (.changed (.ok ())) () = true) ∧
    (∀ m < 52, clearTurnsRun.tid m = 0) ∧ (∀ m < 81, 52 ≤ m → clearTurnsRun.tid m = 1) ∧
      (∀ m < 105, 81 ≤ m → clearTurnsRun.tid m = 0) ∧
    fmChunkSize ≤ (clearTurnsRun.st 105).slotCount ∧
      rows (clearTurnsRun.st 105) 0 = some (0, fun _ => 10) := by
  decide +kernel

theorem clearTurns_careful : Careful clearTurnsRun := by
  obtain ⟨current, noClear⟩ := meets_of_carefulTurns clearTurns_passes.1.1
  refine ⟨current, fun i bound => ?_⟩
  exact truncatesApart_without (noClear_run clearTurns_starts noClear i (Nat.le_of_lt bound))

theorem clearTurns_serial : ∃ served,
    SerialRun byteTable .whole byteStart served (clearTurnsRun.st 105) := by
  obtain ⟨_, ⟨seven, eight, updated, deleted⟩, early, middle, late, _⟩ := clearTurns_passes
  obtain ⟨_, first⟩ := SerialRun.called .nil (Run.returned_of_returns seven)
    (fun m _ upper => early m (by omega)) (.insertRow fun _ => 7) .inserted rfl trivial
  obtain ⟨_, second⟩ := first.called (Run.returned_of_returns eight)
    (fun m _ upper => early m (by omega)) (.insertRow fun _ => 8) .inserted rfl trivial
  obtain ⟨_, third⟩ := second.called (Run.returned_of_returns updated)
    (fun m lower upper => middle m (by omega) (by omega))
    (.updateRow 0 0 (fun _ => 7) fun _ => 10) .changed rfl (by decide +kernel)
  exact third.called (Run.returned_of_returns deleted)
    (fun m lower upper => late m (by omega) (by omega)) (.deleteRow 1 0) .changed rfl
    (by decide +kernel)

theorem clearTurns_rests (t : Nat) : ∃ kept, (clearTurnsRun.cfg 105).thread t = .idle kept :=
  clearTurnsRun.all_rest 1 rfl clearTurns_passes.1.2.1 (Nat.le_refl 105) clearTurns_passes.1.2.2 t

theorem clearTurns_settled : NoDeleteUnderWay (clearTurnsRun.st 105) := by
  have free := free_above clearTurnsRun 4 (fun _ _ => rfl) (by decide +kernel) 105
    (Nat.le_refl 105)
  obtain ⟨_, _, _, _, _, below, _⟩ := clearTurns_passes
  obtain ⟨_, run⟩ := clearTurns_serial
  obtain ⟨list, freelist, _, all⟩ := (run.rep byteTable_hashes).1.freelist
  intro idx gone
  by_cases small : idx < 4
  · refine ⟨list, freelist, all idx ?_ small ?_ nofun⟩
    · unfold fmChunkSize at below
      omega
    · rcases gone with state | state <;> rw [state] <;> decide
  · rw [free idx (by omega)] at gone
    rcases gone with clash | clash <;> cases clash

/-- A row is there when the truncation begins, and a lookup and an insert are under way. -/
theorem truncations_consistent_clearTurns :
    ∃ (R : (coreClients byteTable .whole).Run) (j : Nat), R.StartsIn byteStart () ∧
      R.Returned 1 (.updateRow 0 0 (fun _ => 7) fun _ => 10) () 52 80 (.changed (.ok ())) () ∧
      rows (R.st 107) 0 = some (0, fun _ => 10) ∧ R.Returned 0 .clear () 107 j .done () ∧
      rows (R.st (j + 1)) = (fun _ => none) ∧ Overlaps R 1 (.find 0 [10]) 107 j ∧
      Overlaps R 2 (.insertRow fun _ => 9) 107 j ∧
      (∀ t, ∃ kept, (R.cfg R.len).thread t = .idle kept) ∧ Consistent byteTable (R.st R.len) := by
  have length : clearTurnsRun.len = 105 := rfl
  obtain ⟨_, run⟩ := clearTurns_serial
  have rests := clearTurns_rests
  have settled := clearTurns_settled
  obtain ⟨_, ⟨_, _, updated, _⟩, _, _, _, _, row⟩ := clearTurns_passes
  rw [← length] at run rests settled row
  obtain ⟨rep, quiet⟩ := run.rep byteTable_hashes
  obtain ⟨R, j, extended, careful', same, cleared, gone, looks, inserts, resting⟩ :=
    clearTurns_careful.besideClear byteTable_hashes clearTurns_starts rep quiet settled rests
      (by decide : 0 < byteTable.keys) [10] fun _ => 9
  rw [← same] at row
  have starts := extended.startsIn clearTurns_starts
  exact ⟨R, j, starts, extended.returned (Run.returned_of_returns updated), row, cleared, gone, looks, inserts,
    resting, (truncations_consistent byteTable byteTable_hashes R _ _ starts careful'.current
      careful'.apart R.len (Nat.le_refl _)).2.2 resting⟩

end Fastmem
