/-
The ownership protocol of any number of calling threads.

`Behaves` collects the conditions on the steps of a run; `coreFit` says how the
calls follow the protocol under them. A run whose steps behave has, at every
moment, ghost values that explain its configuration.
-/

import Fastmem.Concurrent.Clients

set_option autoImplicit false

namespace Fastmem

open Prog (perform iterate forEach foldEach)
open ThreadSystem

variable {n : Nat}

/-- `quiet` runs have no truncation; `row` is a further condition on the state in which a call
acts. -/
structure Behaves (S : Setting n) (quiet : Prop) (row : Nat → CoreCall n → Core n → Prop)
    (c : (coreClients S.D S.gran).Config) (t : Nat) (event : (coreClients S.D S.gran).Event) :
    Prop where
  current : S.linked → PassesCurrent c t event
  apart : ¬ quiet → TruncatesApart c t event
  published : S.distinct → ReadsPublished c t event
  unclear : quiet → StartsNoClear c t event ∧ ∀ u program, c.thread u ≠ .busy .clear program
  row : ∀ call program, c.thread t = .busy call program → row t call c.st

def corePromise (S : Setting n) (call : CoreCall n) : (coreProtocol S).Promise :=
  fun _ action s ghosts =>
    match action with
    | .loadGen idx => ∀ g old new, call.updates = some (idx, g, old, new) → S.linked →
        (s.slot idx).state = .active → (s.slot idx).gen = g → (s.slot idx).data = old
    | .loadState y => ∀ idx g old new, call.updates = some (idx, g, old, new) → S.distinct →
        y ≠ idx → ∀ u a p, (ghosts u).2.role = .chaining y a p → ∀ k ∈ changedKeys S.D old new,
          dupChecked (S.D.keydef k) new = true → (S.D.keydef k).ops.cmpRecRec a new ≠ 0
    | .storeCell (.head k b) (some idx) => ∀ g old new, call.updates = some (idx, g, old, new) →
        S.linked → ¬ Emptied (rolesOf fun u => (ghosts u).2) k b
    | .storeState _ .deleting => ∀ u cleared emptied, (ghosts u).2.role ≠ .clearer cleared emptied
    | .lock .structMutex => call = .clear → NoDeleteUnderWay s
    | _ => True

def CoreCall.truncates : CoreCall n → Bool
  | .clear => true
  | _ => false

theorem CoreCall.eq_clear {call : CoreCall n} (truncates : call.truncates = true) :
    call = .clear := by
  cases call <;> first | rfl | cases truncates

def FoundStaying (S : Setting n) (promise : (coreProtocol S).Promise) (call : CoreCall n)
    (result : CoreRes n) : Prop :=
  ∀ key packed, call = .find key packed → S.linked → PackedAgrees S.D key packed →
    ∀ r, CoreTriple.Stays S promise key packed r → result ≠ .found (.error .notFound)

def coreFit (S : Setting n) (quiet : Prop) (row : Nat → CoreCall n → Core n → Prop) :
    Protocol.Fit (coreClients S.D S.gran) (coreProtocol S) where
  condition := Behaves S quiet row
  idleKind := false
  kind := CoreCall.truncates
  promise t call := fun _ action s ghosts => corePromise S call action s ghosts ∧ row t call s ∧
    (quiet → ∀ u, (ghosts u).2.Truncates → False)
  Idle _ _ ghost := ∃ slots seen, ghost = Ghost.rest slots seen
  Done t call result _ ghost := (∃ slots seen role, ghost = (Ghost.rest slots seen).become role ∧
      (role = .idle ∨ ∃ idx, role.settled S.D S.linked idx)) ∧
    FoundStaying S (fun _ action s ghosts => corePromise S call action s ghosts ∧ row t call s ∧
      (quiet → ∀ u, (ghosts u).2.Truncates → False)) call result

section Laws

variable {S : Setting n} {quiet : Prop} {row : Nat → CoreCall n → Core n → Prop}
  {c : (coreClients S.D S.gran).Config} {t : Nat}

theorem truncating_clears {ghosts : Nat → (coreProtocol S).Kind × (coreProtocol S).Ghost}
    (inv : (coreProtocol S).Inv c.st ghosts)
    (kinds : ∀ u, (ghosts u).1 = (coreFit S quiet row).kindOf (c.thread u)) {u : Nat}
    (truncates : (ghosts u).2.Truncates) :
    (∃ program, c.thread u = .busy .clear program) ∧ c.st.owner .structMutex = some u := by
  have isTrue := inv.2 u truncates
  rw [kinds u] at isTrue
  constructor
  · cases thread : c.thread u with
    | idle kept =>
        rw [thread] at isTrue
        cases isTrue
    | busy call program =>
        rw [thread] at isTrue
        exact ⟨program, congrArg (ThreadSystem.Thread.busy · program) (CoreCall.eq_clear isTrue)⟩
  · obtain ⟨cleared, emptied, role⟩ := truncates
    exact (inv.1.locks.tie .structMutex u).mpr ((inv.1.ok u).clearer role).1

theorem coreFit_promised {ghosts : Nat → (coreProtocol S).Kind × (coreProtocol S).Ghost} {call : CoreCall n} {ρ : Type}
    {action : Act n ρ} {result : ρ} (inv : (coreProtocol S).Inv c.st ghosts)
    (kinds : ∀ u, (ghosts u).1 = (coreFit S quiet row).kindOf (c.thread u))
    (permitted : (coreFit S quiet row).Permitted c ghosts)
    (busy : ∃ next, c.thread t = .busy call (.act action next))
    (behaves : Behaves S quiet row c t (.act action result)) :
    (coreFit S quiet row).promise t call action c.st ghosts := by
  obtain ⟨next, busy⟩ := busy
  have untruncated : quiet → ∀ u, (ghosts u).2.Truncates → False := by
    intro isQuiet u truncates
    obtain ⟨⟨program, clears⟩, _⟩ := truncating_clears inv kinds truncates
    exact (behaves.unclear isQuiet).2 u program clears
  have updating : ∀ {idx g old new}, call.updates = some (idx, g, old, new) →
      Updates c t idx g old new := fun updates => ⟨call, _, busy, updates⟩
  refine ⟨?_, behaves.row call _ busy, untruncated⟩
  cases action with
  | loadGen idx =>
      intro g old new updates linked
      exact behaves.current linked g old new (updating updates)
  | loadState y =>
      intro idx g old new updates distinct other u a p role k changed checked
      have linked := S.distinct_linked distinct
      obtain ⟨unused, _, image⟩ := (inv.1.ok u).chaining role
      have differs := behaves.published distinct idx g old new (updating updates) other unused k
        changed checked
      rw [(image linked).1] at differs
      exact differs
  | storeCell cell value =>
      cases cell with
      | head k b =>
          cases value with
          | none => trivial
          | some idx =>
              rintro g old new updates linked ⟨u, cleared, emptied, role, isEmptied⟩
              have truncates : (ghosts u).2.Truncates := ⟨cleared, emptied, role⟩
              by_cases isQuiet : quiet
              · exact untruncated isQuiet u truncates
              obtain ⟨⟨program, clears⟩, owner⟩ := truncating_clears inv kinds truncates
              refine behaves.apart isQuiet g old new (updating updates) u program clears
                ⟨⟨program, clears⟩, owner⟩ ?_
              -- what the truncation may attempt next says how far it has come
              cases program with
              | ret value => trivial
              | loop body start next => trivial
              | act action next =>
                  have allowed := permitted clears
                  cases action with
                  | lock l =>
                      cases l with
                      | bucket k' b' => exact allowed cleared emptied role k b isEmptied
                      | wlock i => trivial
                      | structMutex => trivial
                  | unlock l =>
                      cases l with
                      | bucket k' b' => exact allowed.2 cleared emptied role k b isEmptied
                      | wlock i => trivial
                      | structMutex => trivial
                  | storeCell cell value =>
                      cases cell with
                      | head k' b' => exact allowed cleared emptied role k b isEmptied
                      | next k' i => trivial
                      | freeHead => trivial
                      | freeNext i => trivial
                  | _ => trivial
      | next k i => trivial
      | freeHead => trivial
      | freeNext i => trivial
  | storeState idx state =>
      cases state with
      | deleting =>
          intro u cleared emptied role
          have truncates : (ghosts u).2.Truncates := ⟨cleared, emptied, role⟩
          by_cases isQuiet : quiet
          · exact untruncated isQuiet u truncates
          · exact behaves.apart isQuiet u (truncating_clears inv kinds truncates)
      | free => trivial
      | active => trivial
      | deleted => trivial
  | lock l =>
      cases l with
      | structMutex =>
          rintro rfl
          by_cases isQuiet : quiet
          · exact absurd busy ((behaves.unclear isQuiet).2 t _)
          · exact behaves.apart isQuiet ⟨_, busy⟩
      | wlock i => trivial
      | bucket k b => trivial
  | _ => trivial

theorem CoreInv.reseen {s : Core n} {g : Nat → Ghost n} {slots : Nat → Bool} {seen : Nat}
    (inv : CoreInv S s g) (mine : g t = Ghost.rest slots seen) :
    CoreInv S s (Function.update g t (Ghost.rest slots s.slotCount)) := by
  have holds : ∀ l, (Ghost.rest slots s.slotCount : Ghost n).holds l ↔ (g t).holds l := by
    intro l
    rw [mine]
    cases l <;> exact Iff.rfl
  refine inv.relock (by rw [mine]; rfl) (inv.locks.keep (Nat.le_refl _) holds (Nat.le_refl _))
    trivial ?_ ?_ ?_
  · intro free v _ _ clash
    cases clash
  · intro _ chain place _ _
    exact ⟨fun _ _ _ clash => (by cases clash), fun _ _ clash => (by cases clash)⟩
  · intro _ _
    exact ⟨fun _ _ _ clash => (by cases clash), fun _ _ _ _ clash => (by cases clash)⟩

theorem CoreInv.settleRest {s : Core n} {g : Nat → Ghost n} {slots : Nat → Bool} {seen : Nat}
    {role : Role n} (inv : CoreInv S s g) (mine : g t = (Ghost.rest slots seen).become role)
    (ended : role = .idle ∨ ∃ idx, role.settled S.D S.linked idx) :
    CoreInv S s (Function.update g t (Ghost.rest slots seen)) := by
  rcases ended with rfl | ⟨idx, settled⟩
  · rw [← show ((Ghost.rest slots seen : Ghost n).become .idle) = Ghost.rest slots seen from rfl,
      ← mine, Function.update_eq_self]
    exact inv
  · have isSettled : (g t).role.settled S.D S.linked idx := by
      rw [mine]
      exact settled
    have idle := inv.settle isSettled (by rw [mine]; rfl) (Or.inl rfl)
    rw [mine] at idle
    exact idle

theorem coreFit_finish {s : Core n}
    {ghosts : Nat → (coreProtocol S).Kind × (coreProtocol S).Ghost} {call : CoreCall n}
    {result : CoreRes n} {kept : Unit} {ghost : Ghost n} (inv : (coreProtocol S).Inv s ghosts)
    (mine : ghosts t = (call.truncates, ghost))
    (done : (coreFit S quiet row).Done t call result kept ghost) :
    ∃ ghost', (coreProtocol S).Inv s (Function.update ghosts t (false, ghost')) ∧
      (coreFit S quiet row).Idle t kept ghost' := by
  obtain ⟨⟨slots, seen, role, rfl, ended⟩, _⟩ := done
  have ghostIs : (ghosts t).2 = (Ghost.rest slots seen).become role := congrArg Prod.snd mine
  refine ⟨Ghost.rest slots seen, coreProtocol_update inv.2 ?_ ?_, slots, seen, rfl⟩
  · exact inv.1.settleRest ghostIs ended
  · rintro ⟨c, e, clash⟩
    cases clash

def CoreCall.Ready (call : CoreCall n) (slots : Nat → Bool) (seen : Nat) : Prop :=
  match call with
  | .updateRow idx _ _ _ | .deleteRow idx _ | .lockRow idx => idx < seen
  | .updateRowLocked idx _ _ _ | .deleteRowLocked idx _ | .unlockRow idx => slots idx = true
  | _ => True

theorem CoreCall.ready_of_allowed {D : ShareDef n} {t : Nat} {s : Core n} {slots : Nat → Bool}
    {call : CoreCall n} (holding : ∀ idx, s.owner (.wlock idx) = some t → slots idx = true)
    (granted : call.allowed D t s = true) : call.Ready slots s.slotCount := by
  cases call with
  | updateRow idx g old new => exact of_decide_eq_true (p := idx < s.slotCount) granted
  | deleteRow idx g => exact of_decide_eq_true (p := idx < s.slotCount) granted
  | lockRow idx => exact of_decide_eq_true (p := idx < s.slotCount) granted
  | updateRowLocked idx g old new => exact holding idx (eq_of_beq granted)
  | deleteRowLocked idx g => exact holding idx (eq_of_beq granted)
  | unlockRow idx => exact holding idx (eq_of_beq granted)
  | insertRow _ | clear | readRow _ _ _ | find _ _ | findNext _ _ _ | scanNext _ => trivial

section Triples

variable {slots : Nat → Bool} {seen : Nat}

theorem foundStaying_of_ne {promise : (coreProtocol S).Promise} {call : CoreCall n}
    {result : CoreRes n} (other : ∀ key packed, call ≠ .find key packed) :
    FoundStaying S promise call result :=
  fun key packed isFind => absurd isFind (other key packed)

theorem updates_current {call : CoreCall n} {idx : Nat} {g : UInt32} {old new : Rec n}
    (updates : call.updates = some (idx, g, old, new)) (linked : S.linked) :
    CoreTriple.Current S ((coreFit S quiet row).promise t call) idx g old :=
  fun _ _ _ promised => promised.1 g old new updates linked

theorem updates_mayMove {call : CoreCall n} {idx : Nat} {g : UInt32} {old new : Rec n}
    (updates : call.updates = some (idx, g, old, new)) :
    CoreTriple.MayMove S t ((coreFit S quiet row).promise t call) idx old new where
  unhidden distinct _ k changed checked _ _ _ _ _ _ _ promised other u a p role _ :=
    promised.1 idx g old new updates distinct other u a p role k changed checked
  opens linked _ _ _ _ _ _ _ _ _ promised :=
    promised.1 g old new updates linked

theorem flipOpen (call : CoreCall n) (idx : Nat) :
    CoreTriple.FlipOpen S ((coreFit S quiet row).promise t call) idx :=
  fun _ _ _ promised => promised.1

theorem program_triple (call : CoreCall n) (ready : call.Ready slots seen)
    (unclear : S.distinct → call ≠ .clear) :
    CoreTriple S t call.truncates ((coreFit S quiet row).promise t call) (Ghost.rest slots seen)
      (call.program S.D S.gran) fun result ghost' =>
        (coreFit S quiet row).Done t call result () ghost' := by
  have same : ∀ {result : CoreRes n} {ghost' : Ghost n} {seen : Nat},
      (∀ key packed, call ≠ .find key packed) → ghost' = Ghost.rest slots seen →
      (coreFit S quiet row).Done t call result () ghost' :=
    fun other isRest => ⟨⟨slots, _, .idle, isRest, Or.inl rfl⟩, foundStaying_of_ne other⟩
  have ended : ∀ {result : CoreRes n} {ghost' : Ghost n} {idx : Nat},
      (∀ key packed, call ≠ .find key packed) →
      (∃ role, ghost' = (Ghost.rest slots seen).become role ∧
        (role = .idle ∨ role.settled S.D S.linked idx)) →
      (coreFit S quiet row).Done t call result () ghost' := by
    rintro result _ idx other ⟨role, rfl, isOver⟩
    exact ⟨⟨slots, seen, role, rfl, isOver.imp id fun settled => ⟨idx, settled⟩⟩,
      foundStaying_of_ne other⟩
  cases call with
  | insertRow rec =>
      refine Protocol.Triple.bind CoreTriple.insertRow_triple ?_
      rintro _ _ ⟨count, isRest, _⟩
      exact Protocol.Triple.ret (same (fun _ _ clash => (by cases clash)) isRest)
  | updateRow idx g old new =>
      exact Protocol.Triple.bind (CoreTriple.updateRow_triple ready (updates_current rfl)
        (updates_mayMove rfl)) fun _ _ isRest =>
        Protocol.Triple.ret (same (fun _ _ clash => (by cases clash)) isRest)
  | updateRowLocked idx g old new =>
      exact Protocol.Triple.bind (CoreTriple.updateRowLocked_triple ready (updates_current rfl)
        (updates_mayMove rfl)) fun _ _ isOver =>
        Protocol.Triple.ret (ended (fun _ _ clash => (by cases clash)) isOver)
  | deleteRow idx g =>
      exact Protocol.Triple.bind (CoreTriple.deleteRow_triple ready (flipOpen _ idx))
        fun _ _ isRest =>
        Protocol.Triple.ret (same (fun _ _ clash => (by cases clash)) isRest)
  | deleteRowLocked idx g =>
      exact Protocol.Triple.bind (CoreTriple.deleteRowLocked_triple ready (flipOpen _ idx))
        fun _ _ isOver =>
        Protocol.Triple.ret (ended (fun _ _ clash => (by cases clash)) isOver)
  | clear =>
      have opens : CoreTriple.ClearOpen S ((coreFit S quiet row).promise t .clear) :=
        fun _ _ _ promised => promised.1 rfl
      exact Protocol.Triple.bind
        (CoreTriple.clear_triple opens fun distinct => unclear distinct rfl) fun _ _ isRest =>
        Protocol.Triple.ret (same (fun _ _ clash => (by cases clash)) isRest)
  | readRow idx checkGen g =>
      exact Protocol.Triple.bind CoreTriple.readRow_same fun _ _ isRest =>
        Protocol.Triple.ret (same (fun _ _ clash => (by cases clash)) isRest)
  | find key packed =>
      refine Protocol.Triple.bind CoreTriple.find_triple ?_
      rintro result _ ⟨count, isRest, _, found⟩
      refine Protocol.Triple.ret ⟨⟨slots, _, .idle, isRest, Or.inl rfl⟩, ?_⟩
      intro key' packed' isFind linked agrees r stays clash
      cases isFind
      exact found linked agrees r stays (by cases clash; rfl)
  | findNext key packed cur =>
      refine Protocol.Triple.bind CoreTriple.findNext_triple ?_
      rintro _ _ ⟨count, isRest, _⟩
      exact Protocol.Triple.ret (same (fun _ _ clash => (by cases clash)) isRest)
  | scanNext pos =>
      refine Protocol.Triple.bind CoreTriple.scanNext_sees ?_
      rintro _ _ ⟨count, isRest, _⟩
      exact Protocol.Triple.ret (same (fun _ _ clash => (by cases clash)) isRest)
  | lockRow idx =>
      refine Protocol.Triple.bind (CoreTriple.lockSlot (Or.inl ready)) ?_
      rintro _ _ ⟨_, rfl⟩
      exact Protocol.Triple.ret ⟨⟨Function.update slots idx true, seen, .idle, rfl, Or.inl rfl⟩,
        foundStaying_of_ne fun _ _ clash => (by cases clash)⟩
  | unlockRow idx =>
      refine Protocol.Triple.bind (CoreTriple.unlockSlot ready fun clash => (by cases clash)) ?_
      rintro _ _ rfl
      exact Protocol.Triple.ret ⟨⟨Function.update slots idx false, seen, .idle, rfl, Or.inl rfl⟩,
        foundStaying_of_ne fun _ _ clash => (by cases clash)⟩

end Triples

theorem coreFit_laws (calm : S.distinct → quiet) : (coreFit S quiet row).Laws where
  promised inv kinds permitted busy behaves := coreFit_promised inv kinds permitted busy behaves
  start := by
    intro c ghosts t call kept inv _ _ idle allowed behaves
    obtain ⟨slots, seen, mine⟩ := idle
    have raised := inv.1.reseen mine
    refine ⟨Ghost.rest slots c.st.slotCount, coreProtocol_update inv.2 raised ?_, ?_⟩
    · rintro ⟨cleared, emptied, clash⟩
      cases clash
    have ready : call.Ready slots c.st.slotCount := by
      refine CoreCall.ready_of_allowed (fun idx owner => ?_) allowed
      have held := (inv.1.locks.tie (.wlock idx) t).mp owner
      rw [show (ghosts t).2 = _ from mine] at held
      exact held
    have unclear : S.distinct → call ≠ .clear := by
      rintro distinct rfl
      exact (behaves.unclear (calm distinct)).1
    exact Protocol.Triple.bind (program_triple call ready unclear)
      fun _ _ done => Protocol.Triple.ret done
  finish inv mine done := coreFit_finish inv mine done

end Laws

end Fastmem
