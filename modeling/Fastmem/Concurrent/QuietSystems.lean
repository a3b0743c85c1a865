/-
Systems of threads that never truncate.

The calls of such a system are any programs that keep to the ownership protocol
and leave a thread holding slot locks at most. Its runs are explained by ghost
values at every moment, whatever the callers pass as old records and however
fine a memcpy is. The number of slots never falls: another thread might have
seen it.
-/

import Fastmem.Concurrent.Integrity
import Fastmem.RunEvents

set_option autoImplicit false

namespace Fastmem

open ThreadSystem

variable {n : Nat}

theorem loose_whole {gran : Gran} (linked : False) : gran = .whole := linked.elim

theorem loose_hashes {D : ShareDef n} (linked : False) : HashesAgree D := linked.elim

theorem loose_equivalent {D : ShareDef n} (distinct : False) : KeysEquivalent D := distinct.elim

/-- Nothing is asked about chains and keys. -/
def looseSetting (D : ShareDef n) (gran : Gran) : Setting n where
  D := D
  gran := gran
  linked := False
  distinct := False
  whole := loose_whole
  hashes := loose_hashes
  distinct_linked := id
  equivalent := loose_equivalent

/-- Ghost values that explain a configuration and allow the next step of every thread. -/
structure Explains (S : Setting n) {T : ThreadSystem (coreMachine n)} (c : T.Config)
    (g : Nat → Ghost n) : Prop where
  inv : CoreInv S c.st g
  permits : ∀ {u : Nat} {call : T.Call} {ρ : Type} {action : Act n ρ}
    {next : ρ → Prog (Act n) (T.Res × T.Loc)},
    c.thread u = .busy call (.act action next) → Permits S (g u) action

structure Quietly (S : Setting n) {T : ThreadSystem (coreMachine n)} (c : T.Config)
    (g : Nat → Ghost n) : Prop extends Explains S c g where
  untruncated : ∀ u, ¬ (g u).Truncates

def unclearedPromise (S : Setting n) : (coreProtocol S).Promise :=
  fun _ _ _ ghosts => ∀ u, ¬ (ghosts u).2.Truncates

def Ended (S : Setting n) (slots : Nat → Bool) (seen : Nat) (ghost : Ghost n) : Prop :=
  ∃ role, ghost = (Ghost.rest slots seen).become role ∧
    (role = .idle ∨ ∃ idx, role.settled S.D S.linked idx)

theorem Ended.rest {S : Setting n} {slots : Nat → Bool} {seen : Nat} :
    Ended S slots seen (Ghost.rest slots seen) :=
  ⟨.idle, rfl, Or.inl rfl⟩

/-- The calls of a system keep to the protocol. `Keeps kept slots seen` says which slot locks a
thread holds between two calls and what it knows about the slots. -/
structure Obedient (S : Setting n) (T : ThreadSystem (coreMachine n))
    (Keeps : T.Loc → (Nat → Bool) → Nat → Prop) : Prop where
  later : ∀ {kept slots seen seen'}, Keeps kept slots seen → seen ≤ seen' →
    Keeps kept slots seen'
  code : ∀ {t call kept slots} {s : Core n}, T.allowed t call kept s = true →
    (∀ idx, s.owner (.wlock idx) = some t → slots idx = true) → Keeps kept slots s.slotCount →
    CoreTriple S t false (unclearedPromise S) (Ghost.rest slots s.slotCount) (T.code t call kept)
      fun outcome ghost => ∃ slots' seen', Ended S slots' seen' ghost ∧
        Keeps outcome.2 slots' seen'

section Runs

variable {S : Setting n} {T : ThreadSystem (coreMachine n)}
  {Keeps : T.Loc → (Nat → Bool) → Nat → Prop}

def quietFit (S : Setting n) (T : ThreadSystem (coreMachine n))
    (Keeps : T.Loc → (Nat → Bool) → Nat → Prop) : Protocol.Fit T (coreProtocol S) where
  condition _ _ _ := True
  idleKind := false
  kind _ := false
  promise _ _ := unclearedPromise S
  Idle _ kept ghost := ∃ slots seen, ghost = Ghost.rest slots seen ∧ Keeps kept slots seen
  Done _ _ _ kept ghost := ∃ slots seen, Ended S slots seen ghost ∧ Keeps kept slots seen

theorem uncleared_of_kinds {F : Protocol.Fit T (coreProtocol S)} (idleKind : F.idleKind = false)
    (kind : ∀ call, F.kind call = false) {c : T.Config}
    {ghosts : Nat → (coreProtocol S).Kind × (coreProtocol S).Ghost}
    (inv : (coreProtocol S).Inv c.st ghosts)
    (kinds : ∀ u, (ghosts u).1 = F.kindOf (c.thread u)) (u : Nat) : ¬ (ghosts u).2.Truncates := by
  intro truncates
  have isTrue := inv.2 u truncates
  rw [kinds u] at isTrue
  cases thread : c.thread u with
  | idle kept =>
      rw [thread] at isTrue
      cases idleKind.symm.trans isTrue
  | busy call program =>
      rw [thread] at isTrue
      cases (kind call).symm.trans isTrue

theorem quietFit_uncleared {c : T.Config}
    {ghosts : Nat → (coreProtocol S).Kind × (coreProtocol S).Ghost}
    (inv : (coreProtocol S).Inv c.st ghosts)
    (kinds : ∀ u, (ghosts u).1 = (quietFit S T Keeps).kindOf (c.thread u)) (u : Nat) :
    ¬ (ghosts u).2.Truncates :=
  uncleared_of_kinds rfl (fun _ => rfl) inv kinds u

theorem rest_not_truncates {slots : Nat → Bool} {seen : Nat} :
    ¬ (Ghost.rest slots seen : Ghost n).Truncates := by
  rintro ⟨cleared, emptied, clash⟩
  cases clash

theorem resting_starts {s : Core n} {ghosts : Nat → (coreProtocol S).Kind × (coreProtocol S).Ghost}
    {t : Nat} {slots : Nat → Bool} {seen : Nat} (inv : (coreProtocol S).Inv s ghosts)
    (mine : (ghosts t).2 = Ghost.rest slots seen) :
    (coreProtocol S).Inv s (Function.update ghosts t (false, Ghost.rest slots s.slotCount)) ∧
      seen ≤ s.slotCount ∧ ∀ idx, s.owner (.wlock idx) = some t → slots idx = true := by
  refine ⟨coreProtocol_update inv.2 (inv.1.reseen mine)
    fun truncates => absurd truncates rest_not_truncates, ?_, ?_⟩
  · have known := inv.1.locks.seen t
    rw [mine] at known
    exact known
  · intro idx owner
    have held := (inv.1.locks.tie (.wlock idx) t).mp owner
    rw [mine] at held
    exact held

theorem ended_rests {s : Core n} {ghosts : Nat → (coreProtocol S).Kind × (coreProtocol S).Ghost}
    {t : Nat} {slots : Nat → Bool} {seen : Nat} (inv : (coreProtocol S).Inv s ghosts)
    (ended : Ended S slots seen (ghosts t).2) :
    (coreProtocol S).Inv s (Function.update ghosts t (false, Ghost.rest slots seen)) := by
  obtain ⟨role, mine, settled⟩ := ended
  exact coreProtocol_update inv.2 (inv.1.settleRest mine settled)
    fun truncates => absurd truncates rest_not_truncates

theorem quietFit_laws (obedient : Obedient S T Keeps) : (quietFit S T Keeps).Laws where
  promised inv kinds _ _ _ := quietFit_uncleared inv kinds
  start := by
    intro c ghosts t call kept inv _ _ idle allowed _
    obtain ⟨slots, seen, mine, keeps⟩ := idle
    obtain ⟨learned, below, holding⟩ := resting_starts inv mine
    exact ⟨Ghost.rest slots c.st.slotCount, learned,
      obedient.code allowed holding (obedient.later keeps below)⟩
  finish := by
    intro s ghosts t call result kept ghost inv mine done
    obtain ⟨slots, seen, ended, keeps⟩ := done
    refine ⟨Ghost.rest slots seen, ended_rests inv ?_, slots, seen, rfl, keeps⟩
    rw [mine]
    exact ended

/-- Ghost values for the runs of a system all of whose threads rest on a fresh share. -/
theorem restingRun_covered {F : Protocol.Fit T (coreProtocol S)} (laws : F.Laws) {R : T.Run}
    (meets : R.Meets F.condition) {garbage : Nat → Rec n} {heap : Heap} {kept : T.Loc}
    (starts : R.StartsIn (Core.fresh garbage heap) kept) (idleKind : F.idleKind = false)
    (rests : ∀ u, F.Idle u kept (Ghost.rest (fun _ => false) 0)) :
    ∀ i, i ≤ R.len → ∀ m, ∃ ghosts, F.Covers m (R.cfg i) ghosts := by
  refine Protocol.Fit.covered laws meets fun m => ?_
  refine ⟨fun _ => (false, Ghost.rest (fun _ => false) 0), ⟨?_, ?_⟩, ?_, ?_⟩
  · rw [starts]
    exact CoreInv.fresh S garbage heap
  · exact fun _ truncates => absurd truncates rest_not_truncates
  · intro u
    rw [starts]
    exact idleKind.symm
  · intro u
    rw [starts]
    exact rests u

theorem quietRun_covered (obedient : Obedient S T Keeps) {R : T.Run} {garbage : Nat → Rec n}
    {heap : Heap} {kept : T.Loc} (starts : R.StartsIn (Core.fresh garbage heap) kept)
    (keeps : Keeps kept (fun _ => false) 0) :
    ∀ i, i ≤ R.len → ∀ m, ∃ ghosts, (quietFit S T Keeps).Covers m (R.cfg i) ghosts :=
  restingRun_covered (quietFit_laws obedient) (fun _ _ => trivial) starts rfl
    fun _ => ⟨fun _ => false, 0, rfl, keeps⟩

theorem quietRun_explained (obedient : Obedient S T Keeps) {R : T.Run} {garbage : Nat → Rec n}
    {heap : Heap} {kept : T.Loc} (starts : R.StartsIn (Core.fresh garbage heap) kept)
    (keeps : Keeps kept (fun _ => false) 0) :
    ∀ i, i ≤ R.len → ∃ g, Quietly S (R.cfg i) g := by
  intro i bound
  obtain ⟨ghosts, covers⟩ := quietRun_covered obedient starts keeps i bound 1
  exact ⟨fun u => (ghosts u).2, ⟨covers.inv.1, fun busy => covers.permitted busy⟩,
    fun u => quietFit_uncleared covers.inv covers.kinds u⟩

theorem quietRun_rests (obedient : Obedient S T Keeps) {R : T.Run} {garbage : Nat → Rec n}
    {heap : Heap} {kept : T.Loc} (starts : R.StartsIn (Core.fresh garbage heap) kept)
    (keeps : Keeps kept (fun _ => false) 0) {m : Nat} (bound : m ≤ R.len)
    (resting : ∀ t, ∃ kept, (R.cfg m).thread t = .idle kept) :
    (∀ idx, ((R.st m).slot idx).seq % 2 = 0) ∧
      (R.st m).records = (activeSlots (R.st m)).card := by
  obtain ⟨ghosts, covers⟩ := quietRun_covered obedient starts keeps m bound 1
  have idle : ∀ t, (ghosts t).2.role = .idle := by
    intro t
    obtain ⟨_, rests⟩ := resting t
    obtain ⟨_, _, mine, _⟩ := covers.idle rests
    rw [show (ghosts t).2 = _ from mine]
    rfl
  refine ⟨fun idx => ?_, covers.inv.1.counted idle⟩
  have even : ¬ ((R.st m).slot idx).seq % 2 = 1 := by
    intro odd
    obtain ⟨t, _, _, _, writer⟩ := (covers.inv.1.roles.parity idx).mp odd
    cases (idle t).symm.trans writer
  exact seq_even even

/-! ### The number of slots -/

theorem exists_absent (R : T.Run) : ∃ u, ∀ m, m < R.len → R.tid m ≠ u := by
  obtain ⟨u, absent⟩ := Infinite.exists_notMem_finset ((Finset.range R.len).image R.tid)
  refine ⟨u, fun m inRun same => absent ?_⟩
  exact Finset.mem_image.mpr ⟨m, Finset.mem_range.mpr inRun, same⟩

theorem slotCount_step (obedient : Obedient S T Keeps) {R : T.Run} {garbage : Nat → Rec n}
    {heap : Heap} {kept : T.Loc} (starts : R.StartsIn (Core.fresh garbage heap) kept)
    (keeps : Keeps kept (fun _ => false) 0) {i : Nat} (bound : i < R.len) :
    (R.st i).slotCount ≤ (R.st (i + 1)).slotCount := by
  rcases R.acts bound with ⟨call, ρ, action, next, result, busy, _, ran, _⟩ | ⟨_, same⟩
  · obtain ⟨ghosts, covers⟩ := quietRun_covered obedient starts keeps i (Nat.le_of_lt bound) 1
    obtain ⟨u, absent⟩ := exists_absent R
    have other : R.tid i ≠ u := absent i bound
    have idle : (R.cfg i).thread u = .idle kept := by
      rw [R.untouched absent i (Nat.le_of_lt bound), starts]
    obtain ⟨slots, seen, mine, _⟩ := covers.idle idle
    -- the idle thread learns the number of slots before the step
    have learned : (coreProtocol S).Inv (R.st i)
        (Function.update ghosts u (false, Ghost.rest slots (R.st i).slotCount)) :=
      coreProtocol_update covers.inv.2 (covers.inv.1.reseen mine)
        fun truncates => absurd truncates rest_not_truncates
    have acting : Function.update ghosts u (false, Ghost.rest slots (R.st i).slotCount)
        (R.tid i) = (false, (ghosts (R.tid i)).2) := by
      rw [Function.update_of_ne other]
      have kind := covers.kinds (R.tid i)
      rw [busy] at kind
      exact Prod.ext kind rfl
    have uncleared : unclearedPromise S action (R.st i)
        (Function.update ghosts u (false, Ghost.rest slots (R.st i).slotCount)) := by
      intro v
      by_cases same : v = u
      · subst same
        rw [Function.update_self]
        exact rest_not_truncates
      · rw [Function.update_of_ne same]
        exact quietFit_uncleared covers.inv covers.kinds v
    have follows := covers.follows (R.tid i)
    rw [busy] at follows
    obtain ⟨ghost', after, _⟩ := follows.2 _ _ _ _ learned acting uncleared ran
    have known := after.1.locks.seen u
    rw [Function.update_of_ne other.symm, Function.update_self] at known
    exact known
  · rw [same]

theorem slotCount_mono (obedient : Obedient S T Keeps) {R : T.Run} {garbage : Nat → Rec n}
    {heap : Heap} {kept : T.Loc} (starts : R.StartsIn (Core.fresh garbage heap) kept)
    (keeps : Keeps kept (fun _ => false) 0) {i j : Nat} (order : i ≤ j) (bound : j ≤ R.len) :
    (R.st i).slotCount ≤ (R.st j).slotCount := by
  induction j, order using Nat.le_induction with
  | base => exact Nat.le_refl _
  | succ j order ih =>
      exact (ih (Nat.le_of_succ_le bound)).trans (slotCount_step obedient starts keeps bound)

end Runs

end Fastmem
