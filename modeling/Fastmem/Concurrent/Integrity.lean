/-
What the ownership invariant says about the share, for whole concurrent runs.

A chain whose bucket lock is free is a finite list of slots whose images belong
there; when no call is under way the chains, the freelist and the row counter
describe exactly the ACTIVE slots; and a find does not overlook a row that
stays. The results hold in every run that keeps to the conditions of `Clients`.
-/

import Fastmem.Concurrent.ClientProtocol
import Fastmem.Core.SerialRuns
import Fastmem.RunEvents

set_option autoImplicit false

namespace Fastmem

open ThreadSystem

variable {n : Nat}

/-- The chain of a bucket is finite, without repeats, and its members belong there. -/
def ChainWhole (D : ShareDef n) (s : Core n) (k b : Nat) : Prop :=
  ∃ items, Threaded s.cell (Cell.next k) (.head k b) items ∧ items.Nodup ∧
    ∀ i ∈ items, fmCoreKeyBucket (D.keydef k) (s.slot i).data = b

def OneChain (s : Core n) : Prop :=
  ∀ k b b' items items', Threaded s.cell (Cell.next k) (.head k b) items →
    Threaded s.cell (Cell.next k) (.head k b') items' → ∀ i, i ∈ items → i ∈ items' → b = b'

/-- The chains hold exactly the ACTIVE slots, each in its own bucket and once; the freelist has
no repeats and no ACTIVE slot; the counter counts the ACTIVE slots. -/
structure Consistent (D : ShareDef n) (s : Core n) : Prop where
  chained : ∃ chain : ChainLists,
    (∀ k b, Threaded s.cell (Cell.next k) (.head k b) (chain k b)) ∧
    (∀ k, k < D.keys → ∀ i, (s.slot i).state = .active → ∀ b, (chain k b).count i =
      if b = fmCoreKeyBucket (D.keydef k) (s.slot i).data then 1 else 0) ∧
    ∀ k b i, (s.slot i).state ≠ .active → i ∉ chain k b
  freed : ∃ free, FreeList s.cell free ∧ free.Nodup ∧ ∀ i ∈ free, (s.slot i).state ≠ .active
  allocated : ∀ i, (s.slot i).state = .active → i < s.slotCount
  counted : s.records = (activeSlots s).card

section Readings

variable {S : Setting n} {s : Core n} {g : Nat → Ghost n} {k b : Nat}

theorem homeOf_some {D : ShareDef n} {rec : Rec n} (home : homeOf D rec k = some b) :
    k < D.keys ∧ b = fmCoreKeyBucket (D.keydef k) rec := by
  unfold homeOf at home
  split at home
  · rename_i valid
    cases home
    exact ⟨valid, rfl⟩
  · cases home

theorem CoreInv.memberBucket (inv : CoreInv S s g) (linked : S.linked)
    (free : s.owner (.bucket k b) = none) {chain : ChainLists} {place : Places}
    (chainInv : ChainInv S.D s.slot s.cell (rolesOf g) chain place) {i : Nat}
    (member : i ∈ chain k b) : fmCoreKeyBucket (S.D.keydef k) (s.slot i).data = b := by
  have placed := ((chainInv.members k b i).mp member).1
  have unlocked : ∀ u, ¬ (g u).holds (.bucket k b) := by
    intro u held
    have owner := (inv.locks.tie _ u).mpr held
    rw [free] at owner
    cases owner
  by_cases owned : ∃ u p, (rolesOf g u).place S.D = some (i, p)
  · obtain ⟨u, p, owned⟩ := owned
    rw [chainInv.owned u i p owned] at placed
    change (g u).role.place S.D = _ at owned
    cases role : (g u).role with
    | idle | live _ | published | clearer _ _ => rw [role] at owned; cases owned
    | fresh j =>
        rw [role] at owned
        cases owned
        cases placed
    | retired j counted =>
        rw [role] at owned
        cases owned
        cases placed
    | chaining j rec q =>
        rw [role] at owned
        cases owned
        obtain ⟨_, _, rest⟩ := (inv.ok u).chaining role
        rw [(rest linked).1, ((rest linked).2 k b placed).2]
    | deleter j img q =>
        rw [role] at owned
        cases owned
        obtain ⟨_, rest⟩ := (inv.ok u).deleter role
        rw [(rest linked).1, ((rest linked).2 k b placed).2]
    | writer j old new odd copied =>
        rw [role] at owned
        cases owned
        obtain ⟨_, _, rest⟩ := (inv.ok u).writer role
        obtain ⟨data, early, locks⟩ := rest linked
        obtain ⟨valid, rfl⟩ := homeOf_some placed
        cases copied with
        | false =>
            rw [if_neg Bool.false_ne_true] at data
            rw [data]
        | true =>
            rw [if_pos rfl] at data
            rw [data]
            by_cases changed : (S.D.keydef k).ops.cmpRecRec old new = 0
            · unfold fmCoreKeyBucket
              rw [S.hashes linked k valid old new changed]
            · have isOdd : odd = true := by
                cases odd with
                | true => rfl
                | false => cases early rfl
              exact absurd (locks isOdd k (mem_changedKeys.mpr ⟨valid, changed⟩)).1 (unlocked u)
    | mover j old new q =>
        rw [role] at owned
        cases owned
        obtain ⟨_, _, rest⟩ := (inv.ok u).mover role
        obtain ⟨data, buckets, locks⟩ := rest linked
        obtain ⟨valid, isNew | isOld⟩ := buckets k b placed
        · rw [data, isNew]
        · rcases locks k valid with there | ⟨heldOld, _⟩
          · rw [placed] at there
            rw [data, Option.some.inj there]
          · rw [← isOld] at heldOld
            exact absurd heldOld (unlocked u)
  · rw [chainInv.others i (fun u p also => owned ⟨u, p, also⟩) k] at placed
    unfold Slot.home at placed
    split at placed
    · exact (homeOf_some placed).2.symm
    · cases placed

theorem CoreInv.chainWhole (inv : CoreInv S s g) (linked : S.linked)
    (free : s.owner (.bucket k b) = none) : ChainWhole S.D s k b := by
  obtain ⟨chain, place, chainInv, _⟩ := inv.chains linked
  exact ⟨chain k b, chainInv.chains.threaded k b, chainInv.chains.nodup k b,
    fun i member => inv.memberBucket linked free chainInv member⟩

theorem CoreInv.oneChain (inv : CoreInv S s g) (linked : S.linked) : OneChain s := by
  obtain ⟨chain, place, chainInv, _⟩ := inv.chains linked
  intro k b b' items items' first second i member member'
  rw [first.unique (chainInv.chains.threaded k b)] at member
  rw [second.unique (chainInv.chains.threaded k b')] at member'
  exact chainInv.chains.disjoint k b b' i member member'

theorem CoreInv.counted (inv : CoreInv S s g) (idle : ∀ t, (g t).role = .idle) :
    s.records = (activeSlots s).card := by
  have count := inv.count fun t c e clash => by cases (idle t).symm.trans clash
  have none : uncounted (rolesOf g) = 0 := by
    unfold uncounted
    refine if_neg ?_
    rintro ⟨t, clash⟩
    cases (idle t).symm.trans clash
  have active : {idx | Counted s.slot (rolesOf g) idx} = ↑(activeSlots s) := by
    ext i
    simp only [Set.mem_ofPred_eq, Finset.mem_coe, activeSlots, Finset.mem_filter, Finset.mem_range]
    constructor
    · rintro (isActive | ⟨t, img, p, clash⟩ | ⟨t, clash⟩)
      · exact ⟨inv.roles.active i isActive, isActive⟩
      · cases (idle t).symm.trans clash
      · cases (idle t).symm.trans clash
    · exact fun both => Or.inl both.2
  rw [none, add_zero, active, Set.ncard_coe_finset] at count
  exact count

theorem CoreInv.consistent (inv : CoreInv S s g) (linked : S.linked)
    (idle : ∀ t, (g t).role = .idle) : Consistent S.D s where
  chained := by
    obtain ⟨chain, place, chainInv, _⟩ := inv.chains linked
    have placed : ∀ k b i, i ∈ chain k b ↔ (s.slot i).home S.D k = some b := by
      intro k b i
      rw [chainInv.members, chainInv.others i fun t p clash => ?_]
      · refine ⟨fun both => both.1, fun home => ⟨home, ?_⟩⟩
        rintro ⟨t, c, e, role, _⟩
        cases (idle t).symm.trans role
      · change (g t).role.place S.D = _ at clash
        rw [idle t] at clash
        cases clash
    refine ⟨chain, chainInv.chains.threaded, ?_, ?_⟩
    · intro k valid i active b
      have home : (s.slot i).home S.D k = some (fmCoreKeyBucket (S.D.keydef k) (s.slot i).data) := by
        unfold Slot.home homeOf
        rw [if_pos active, if_pos valid]
      by_cases here : b = fmCoreKeyBucket (S.D.keydef k) (s.slot i).data
      · rw [if_pos here]
        refine List.count_eq_one_of_mem (chainInv.chains.nodup k b) ((placed k b i).mpr ?_)
        rw [home, here]
      · rw [if_neg here]
        refine List.count_eq_zero.mpr fun member => here ?_
        rw [placed, home] at member
        exact (Option.some.inj member).symm
    · intro k b i inactive member
      rw [placed] at member
      unfold Slot.home at member
      rw [if_neg inactive] at member
      cases member
  freed := by
    obtain ⟨free, freeInv, _⟩ := inv.free
    exact ⟨free, freeInv.freelist, freeInv.freelist.nodup,
      fun i member => (freeInv.unused i member).2.1.not_active⟩
  allocated := inv.roles.active
  counted := inv.counted idle

end Readings

/-! ### Whole runs -/

/-- Chains count, copies are not torn. -/
def wholeSetting (D : ShareDef n) (hashes : HashesAgree D) : Setting n where
  D := D
  gran := .whole
  linked := True
  distinct := False
  whole _ := rfl
  hashes _ := hashes
  distinct_linked := False.elim
  equivalent := False.elim

section Runs

variable {S : Setting n} {quiet : Prop} {row : Nat → CoreCall n → Core n → Prop}

theorem CoreInv.fresh (S : Setting n) (garbage : Nat → Rec n) (heap : Heap) :
    CoreInv S (Core.fresh garbage heap) fun _ => Ghost.rest (fun _ => false) 0 where
  locks := by
    refine ⟨fun l t => ⟨fun clash => (by cases clash), fun held => ?_⟩,
      fun _ _ clash => (by cases clash), fun _ => Nat.zero_le _⟩
    cases l <;> cases held
  roles := by
    refine ⟨fun _ _ _ clash => (by cases clash), fun _ _ clash => (by cases clash),
      fun _ clash => (by cases clash), fun idx => ?_, fun _ clash => (by cases clash),
      fun _ _ => rfl, fun _ _ _ clash => (by cases clash)⟩
    refine ⟨fun odd => absurd odd (show ¬ (0 : UInt32) % 2 = 1 by decide), ?_⟩
    rintro ⟨_, _, _, _, clash⟩
    cases clash
  ok _ := trivial
  free := by
    refine ⟨[], ⟨(rfl : (Core.fresh garbage heap).cell .freeHead = none), fun _ member => absurd member List.not_mem_nil⟩, ?_⟩
    intro _ _ clash
    cases clash
  chains _ := by
    refine ⟨fun _ _ => [], fun _ _ => none, ⟨⟨fun _ _ => rfl, ?_⟩, ?_, ?_, ?_⟩, ?_⟩
    · exact fun _ _ _ _ member => absurd member List.not_mem_nil
    · intro k b idx
      simp
    · exact fun _ _ _ clash => (by cases clash)
    · exact fun _ _ _ => rfl
    · exact fun _ => ⟨fun _ _ _ clash => (by cases clash), fun _ _ clash => (by cases clash)⟩
  count := by
    intro _
    have none : ({idx | Counted (Core.fresh garbage heap).slot
        (rolesOf fun _ => (Ghost.rest (fun _ => false) 0 : Ghost n)) idx} : Set Nat) = ∅ := by
      ext i
      simp [Counted, Core.fresh, rolesOf, Ghost.rest]
    rw [none]
    simp [uncounted, rolesOf, Ghost.rest, Core.fresh]
  unique _ := by
    refine ⟨⟨?_, fun _ _ _ clash => (by cases clash)⟩, fun _ =>
      ⟨fun _ _ _ clash => (by cases clash), fun _ _ _ _ clash => (by cases clash)⟩⟩
    rintro k _ i j a b _ (⟨clash, _⟩ | ⟨_, _, clash, _⟩)
    · cases clash
    · cases clash

/-- Every moment of a well-behaved run is explained by ghost values. -/
theorem coreRun_covered (calm : S.distinct → quiet) {R : (coreClients S.D S.gran).Run}
    {garbage : Nat → Rec n} {heap : Heap} (starts : R.StartsIn (Core.fresh garbage heap) ())
    (behaves : R.Meets (Behaves S quiet row)) :
    ∀ i, i ≤ R.len → ∀ m, ∃ ghosts, (coreFit S quiet row).Covers m (R.cfg i) ghosts := by
  refine Protocol.Fit.covered (coreFit_laws calm) behaves fun m => ?_
  refine ⟨fun _ => (false, Ghost.rest (fun _ => false) 0), ⟨?_, ?_⟩, ?_, ?_⟩
  · rw [starts]
    exact CoreInv.fresh S garbage heap
  · rintro _ ⟨_, _, clash⟩
    cases clash
  · intro u
    rw [starts]
    rfl
  · intro u
    rw [starts]
    exact ⟨fun _ => false, 0, rfl⟩

theorem noClear_run {D : ShareDef n} {gran : Gran} {R : (coreClients D gran).Run} {s : Core n}
    (starts : R.StartsIn s ()) (noClear : R.Meets StartsNoClear) :
    ∀ i, i ≤ R.len → ∀ u program, (R.cfg i).thread u ≠ .busy .clear program := by
  refine @Run.invariant _ _ R (fun c => ∀ u program, c.thread u ≠ .busy .clear program)
    (fun u program clash => ?_) fun i bound before u program clash => ?_
  · rw [starts] at clash
    cases clash
  · have step := R.step i bound
    have starting := noClear i bound
    by_cases own : u = R.tid i
    swap
    · rw [step.others own] at clash
      exact before u program clash
    subst own
    generalize R.ev i = event at step starting
    generalize R.cfg (i + 1) = after at step clash
    cases step with
    | start call idle promised =>
        simp only [Config.set, Function.update_self] at clash
        cases clash
        exact starting
    | act busy ran =>
        simp only [Function.update_self] at clash
        cases clash
        exact before _ _ busy
    | unroll busy =>
        simp only [Config.set, Function.update_self] at clash
        cases clash
        exact before _ _ busy
    | finish busy =>
        simp only [Config.set, Function.update_self] at clash
        cases clash

theorem covers_idle {c : (coreClients S.D S.gran).Config} {m : Nat}
    {ghosts : Nat → (coreProtocol S).Kind × (coreProtocol S).Ghost}
    (covers : (coreFit S quiet row).Covers m c ghosts)
    (resting : ∀ t, ∃ kept, c.thread t = .idle kept) (t : Nat) : (ghosts t).2.role = .idle := by
  obtain ⟨kept, idle⟩ := resting t
  obtain ⟨slots, seen, same⟩ := covers.idle idle
  rw [show (ghosts t).2 = _ from same]
  rfl

/-- A find between times `i` and `j` with the further condition `row` on its own steps. -/
theorem find_staying {R : (coreClients S.D S.gran).Run} {t i j : Nat} {key : Nat}
    {packed : PackedKey} {result : CoreRes n} (calm : S.distinct → quiet)
    (covered : ∀ m, ∃ ghosts, (coreFit S quiet fun _ _ _ => True).Covers m (R.cfg i) ghosts)
    (behaves : R.Meets (Behaves S quiet fun _ _ _ => True))
    (returned : R.Returned t (.find key packed) () i j result ()) (isQuiet : quiet)
    (linked : S.linked) (agrees : PackedAgrees S.D key packed) {r : Nat}
    (stays : ∀ m, i ≤ m → m ≤ j → ((R.st m).slot r).state = .active ∧
      (S.D.keydef key).ops.cmpRecKey ((R.st m).slot r).data packed = 0) :
    result ≠ .found (.error .notFound) := by
  let row : Nat → CoreCall n → Core n → Prop := fun u call s => u = t → call = .find key packed →
    (s.slot r).state = .active ∧ (S.D.keydef key).ops.cmpRecKey (s.slot r).data packed = 0
  have before := returned.before
  have bound := returned.bound
  -- the other threads are held to nothing new
  have others : ∀ u, u ≠ t → ∀ call, row u call = fun _ => True := by
    intro u other call
    funext s
    exact eq_true fun same => absurd same other
  have started : ∀ m, ∃ ghosts, (coreFit S quiet row).Covers m (R.cfg i) ghosts := by
    intro m
    obtain ⟨ghosts, covers⟩ := covered m
    refine ⟨ghosts, covers.inv, covers.kinds, fun u => ?_⟩
    have follows := covers.follows u
    cases thread : (R.cfg i).thread u with
    | idle kept =>
        rw [thread] at follows
        exact follows
    | busy call program =>
        rw [thread] at follows
        have other : u ≠ t := by
          rintro rfl
          rw [returned.started] at thread
          cases thread
        simp only [Protocol.Fit.Follows, coreFit] at follows ⊢
        rw [others u other call]
        exact follows
  have within : i + (j - i) ≤ R.len := by omega
  have laws : (coreFit S quiet row).Laws := coreFit_laws calm
  have windowed := Protocol.Fit.covered laws (R := R.window i (j - i) within) (fun m less => ?_)
    started (j - i) (Nat.le_refl _) 1
  swap
  · have inRun : i + m < R.len := by
      have : m < j - i := less
      omega
    have old := behaves (i + m) inRun
    refine ⟨old.current, old.apart, old.published, old.unclear, fun call program _ _ _ => ?_⟩
    have : m < j - i := less
    exact stays (i + m) (by omega) (by omega)
  obtain ⟨ghosts, covers⟩ := windowed
  have atEnd : (R.window i (j - i) within).cfg (j - i) = R.cfg j := by
    change R.cfg (i + (j - i)) = R.cfg j
    congr 1
    omega
  rw [atEnd] at covers
  have done := covers.done returned.returns
  refine done.2 key packed rfl linked agrees r fun ρ action s kinds g promised => ?_
  obtain ⟨active, equal⟩ := promised.2.1 rfl rfl
  exact ⟨active, equal, fun u truncates => promised.2.2 isQuiet u truncates⟩

end Runs

/-- Chains, freelist and counter under any interleaving of inserts, updates, deletes and
lookups, without truncation. -/
theorem concurrentRun_integrity (D : ShareDef n) (hashes : HashesAgree D)
    (R : (coreClients D .whole).Run) (garbage : Nat → Rec n) (heap : Heap)
    (starts : R.StartsIn (Core.fresh garbage heap) ()) (current : R.Meets PassesCurrent)
    (noClear : R.Meets StartsNoClear) :
    (∀ i, i ≤ R.len →
      (∀ k b, (R.st i).owner (.bucket k b) = none → ChainWhole D (R.st i) k b) ∧
      OneChain (R.st i) ∧
      ((∀ t, ∃ kept, (R.cfg i).thread t = .idle kept) → Consistent D (R.st i))) ∧
    ∀ t key packed i j result, R.Returned t (.find key packed) () i j result () →
      PackedAgrees D key packed →
      (∃ r, ∀ m, i ≤ m → m ≤ j → ((R.st m).slot r).state = .active ∧
        (D.keydef key).ops.cmpRecKey ((R.st m).slot r).data packed = 0) →
      result ≠ .found (.error .notFound) := by
  have unclear := noClear_run starts noClear
  have behaves : R.Meets (Behaves (wholeSetting D hashes) True fun _ _ _ => True) :=
    fun i bound => ⟨fun _ => current i bound, fun no => absurd trivial no, False.elim,
      fun _ => ⟨noClear i bound, unclear i (Nat.le_of_lt bound)⟩, fun _ _ _ => trivial⟩
  have covered := coreRun_covered (S := wholeSetting D hashes) False.elim starts behaves
  refine ⟨fun i bound => ?_, ?_⟩
  · obtain ⟨ghosts, covers⟩ := covered i bound 0
    refine ⟨fun k b free => covers.inv.1.chainWhole trivial free, covers.inv.1.oneChain trivial,
      fun resting => ?_⟩
    exact covers.inv.1.consistent trivial (covers_idle covers resting)
  · rintro t key packed i j result returned agrees ⟨r, stays⟩
    have startBound : i ≤ R.len := by
      have before := returned.before
      have bound := returned.bound
      omega
    exact find_staying (S := wholeSetting D hashes) False.elim (covered i startBound) behaves
      returned trivial trivial agrees stays

/-! ### A concrete run -/

section Tests

variable {D : ShareDef n} {gran : Gran}

instance : DecidableEq (coreClients D gran).Call := inferInstanceAs (DecidableEq (CoreCall n))

instance : DecidableEq (coreClients D gran).Res := inferInstanceAs (DecidableEq (CoreRes n))

instance : DecidableEq (coreClients D gran).Loc := inferInstanceAs (DecidableEq Unit)

/-- Whether an update that looks at the slot `idx` was given its image. -/
def CoreCall.current (call : CoreCall n) (idx : Nat) (slot : Slot n) : Bool :=
  match call.updates with
  | some (idx', _, old, _) => decide (idx' = idx → slot.state = .active → slot.data = old)
  | none => true

def currentStep (c : (coreClients D gran).Config) (t : Nat) (event : (coreClients D gran).Event) :
    Bool :=
  match event with
  | .act (.loadGen idx) _ =>
      (c.thread t).calling.all fun call => call.current idx (c.st.slot idx)
  | _ => true

theorem passesCurrent_of_steps {R : (coreClients D gran).Run}
    (steps : ∀ i, i < R.len → currentStep (R.cfg i) (R.tid i) (R.ev i) = true) :
    R.Meets PassesCurrent := by
  intro i bound
  have passed := steps i bound
  unfold currentStep at passed
  unfold PassesCurrent
  generalize R.ev i = event at passed
  split
  · rename_i idx _
    rintro g old new ⟨call, program, busy, isUpdate⟩ active _
    rw [busy] at passed
    change call.current idx ((R.st i).slot idx) = true at passed
    unfold CoreCall.current at passed
    rw [isUpdate] at passed
    exact of_decide_eq_true passed rfl active
  · trivial

def clearless (_ : (coreClients D gran).Config) (_ : Nat) (event : (coreClients D gran).Event) :
    Bool :=
  decide (event.starting ≠ some .clear)

theorem startsNoClear_of_steps {R : (coreClients D gran).Run}
    (steps : ∀ i, i < R.len → clearless (R.cfg i) (R.tid i) (R.ev i) = true) :
    R.Meets StartsNoClear := by
  intro i bound
  have passed := of_decide_eq_true (steps i bound)
  generalize R.ev i = event at passed
  unfold StartsNoClear
  split
  · exact passed rfl
  · trivial

/-- The updates of the schedule are given current images, and nobody truncates. -/
def carefulTurns (c : (coreClients D gran).Config)
    (schedule : List (Nat × Option (coreClients D gran).Call)) : Bool :=
  replays currentStep c schedule && replays clearless c schedule

theorem meets_of_carefulTurns {c : (coreClients D gran).Config}
    {schedule : List (Nat × Option (coreClients D gran).Call)}
    {played : (play c schedule).isSome = true} (careful : carefulTurns c schedule = true) :
    (Run.ofSchedule c schedule played).Meets PassesCurrent ∧
      (Run.ofSchedule c schedule played).Meets StartsNoClear := by
  obtain ⟨current, clears⟩ := Bool.and_eq_true_iff.mp careful
  exact ⟨passesCurrent_of_steps (Run.ofSchedule_passes currentStep current),
    startsNoClear_of_steps (Run.ofSchedule_passes clearless clears)⟩

end Tests

/-- Three threads: rows 7, 8 and 5, a lookup of 8 while row 7 becomes 10 and row 5 goes. -/
def mixedTurns : List (Nat × Option (CoreCall 1)) :=
  List.flatten [callSteps 0 (.insertRow fun _ => 7) 34, callSteps 0 (.insertRow fun _ => 8) 16,
    callSteps 0 (.insertRow fun _ => 5) 23, callSteps 0 (.lockRow 0) 2, callSteps 1 (.find 0 [8]) 6,
    callSteps 0 (.updateRowLocked 0 0 (fun _ => 7) fun _ => 10) 2, callSteps 2 (.deleteRow 2 0) 6,
    List.replicate 4 (1, none), List.replicate 24 (0, none), List.replicate 15 (2, none),
    List.replicate 2 (0, none), callSteps 0 (.unlockRow 0) 2]

theorem mixedTurns_played : (play (S := coreClients byteTable .whole)
    ⟨byteStart, fun _ => .idle ()⟩ mixedTurns).isSome = true := by
  decide +kernel

def mixedTurnsRun : (coreClients byteTable .whole).Run :=
  Run.ofSchedule ⟨byteStart, fun _ => .idle ()⟩ mixedTurns mixedTurns_played

theorem mixedTurns_passes :
    (carefulTurns (⟨byteStart, fun _ => .idle ()⟩ : (coreClients byteTable .whole).Config)
        mixedTurns = true ∧
      (∀ i, i < mixedTurnsRun.len → mixedTurnsRun.tid i ≤ 2) ∧
      ∀ t, t ≤ 2 → ((mixedTurnsRun.cfg 144).thread t).resting.isSome = true) ∧
    mixedTurnsRun.returns 0 (.updateRowLocked 0 0 (fun _ => 7) fun _ => 10) () 86 140
      (.changed (.ok ())) () = true ∧
    mixedTurnsRun.returns 2 (.deleteRow 2 0) () 89 138 (.changed (.ok ())) () = true ∧
    mixedTurnsRun.returns 1 (.find 0 [8]) () 79 99 (.found (.ok (1, fun _ => 8))) () = true ∧
    (∀ m ≤ 99, 79 ≤ m → ((mixedTurnsRun.st m).slot 1).state = .active ∧
      ((mixedTurnsRun.st m).slot 1).data = fun _ => 8) ∧
    (mixedTurnsRun.st 144).records = 2 := by
  decide +kernel

theorem mixedTurns_rests (t : Nat) : ∃ kept, (mixedTurnsRun.cfg 144).thread t = .idle kept :=
  mixedTurnsRun.all_rest 2 rfl mixedTurns_passes.1.2.1 (Nat.le_refl 144) mixedTurns_passes.1.2.2 t

theorem concurrentRun_integrity_mixedTurns :
    mixedTurnsRun.Returned 0 (.updateRowLocked 0 0 (fun _ => 7) fun _ => 10) () 86 140
      (.changed (.ok ())) () ∧
    mixedTurnsRun.Returned 2 (.deleteRow 2 0) () 89 138 (.changed (.ok ())) () ∧
    (∃ result, mixedTurnsRun.Returned 1 (.find 0 [8]) () 79 99 result () ∧
      result ≠ .found (.error .notFound)) ∧
    (∀ i, i ≤ mixedTurnsRun.len →
      (∀ k b, (mixedTurnsRun.st i).owner (.bucket k b) = none →
        ChainWhole byteTable (mixedTurnsRun.st i) k b) ∧ OneChain (mixedTurnsRun.st i)) ∧
    (activeSlots (mixedTurnsRun.st 144)).card = 2 ∧ Consistent byteTable (mixedTurnsRun.st 144) := by
  obtain ⟨⟨quiet, _⟩, updated, deleted, found, stays, two⟩ := mixedTurns_passes
  obtain ⟨current, noClear⟩ := meets_of_carefulTurns quiet
  obtain ⟨always, finds⟩ := concurrentRun_integrity byteTable byteTable_hashes mixedTurnsRun _ _ rfl
    current noClear
  have consistent := (always 144 (Nat.le_refl 144)).2.2 mixedTurns_rests
  refine ⟨Run.returned_of_returns updated, Run.returned_of_returns deleted,
    ⟨_, Run.returned_of_returns found, ?_⟩, fun i bound => ⟨(always i bound).1, (always i bound).2.1⟩,
    Int.natCast_inj.mp (consistent.counted.symm.trans two), consistent⟩
  refine finds 1 0 [8] 79 99 _ (Run.returned_of_returns found) (byteTable_packed 8)
    ⟨1, fun m lower upper => ?_⟩
  obtain ⟨active, data⟩ := stays m upper lower
  rw [data]
  exact ⟨active, rfl⟩

end Fastmem
