/-
Serial behaviour of the parts of the core that do not publish rows: image
copies, the seqlock read, chain surgery, the duplicate check and the lookups.

Each theorem gives the exact outcome and the exact final state of one function
run by one thread alone. The writers and their invariant are built on these.
-/

import Fastmem.Core.Chains

set_option autoImplicit false

namespace Fastmem

open Prog (perform iterate forEach foldEach)
open Machine

variable {n : Nat} {α β ρ σ : Type}

/-- Thread `t` alone takes the program from `s` to `final` with this result. -/
abbrev Runs (t : Nat) (program : CoreProg n α) (s : Core n) (result : α) (final : Core n) :
    Prop :=
  Exec (coreMachine n) t program s result final

variable {t : Nat} {s : Core n} {gran : Gran} {idx : Nat}

theorem runs_perform_bind {action : Act n ρ} {f : ρ → CoreProg n α} {mid final : Core n}
    {result : ρ} {value : α} (ran : Act.exec t action s = some (result, mid))
    (rest : Runs t (f result) mid value final) :
    Runs t (perform action >>= f) s value final :=
  Exec.bind (Exec.perform ran) rest

theorem runs_bind {program : CoreProg n β} {f : β → CoreProg n α} {mid final : Core n}
    {result : β} {value : α} (first : Runs t program s result mid)
    (rest : Runs t (f result) mid value final) :
    Runs t (program >>= f) s value final :=
  Exec.bind first rest

theorem runs_pure (value : α) (s : Core n) :
    Runs t (pure value : CoreProg n α) s value s :=
  Exec.ret (M := coreMachine n) value s

/-! ### Locks -/

theorem exec_lock {l : Lock} (free : s.owner l = none) :
    Act.exec t (.lock l) s = some ((), s.setOwner l (some t)) := by
  simp only [Act.exec, free]

theorem owner_setOwner_of_ne {l l' : Lock} {owner : Option Nat} (different : l' ≠ l) :
    (s.setOwner l owner).owner l' = s.owner l' :=
  Function.update_of_ne different ..

theorem setOwner_release {l : Lock} {owner : Option Nat} (free : s.owner l = none) :
    (s.setOwner l owner).setOwner l none = s := by
  unfold Core.setOwner
  simp only [Function.update_idem]
  rw [← free, Function.update_eq_self]

/-! ### Image copies -/

private theorem readBytes (t : Nat) (s : Core n) (idx : Nat) (buf : Rec n) (items : List (Fin n)) :
    ∃ out : Rec n, (∀ j, out j = if j ∈ items then (s.slot idx).data j else buf j) ∧
      Runs t (foldEach (fun buf at_ => do
        let byte ← perform (.loadByte idx at_)
        return Function.update buf at_ byte) buf items) s out s := by
  induction items generalizing buf with
  | nil => exact ⟨buf, fun j => by simp, runs_pure buf s⟩
  | cons item rest ih =>
      obtain ⟨out, copied, ran⟩ := ih (Function.update buf item ((s.slot idx).data item))
      refine ⟨out, fun j => ?_, Exec.bind (runs_perform_bind rfl (runs_pure _ s)) ran⟩
      rw [copied j]
      by_cases inRest : j ∈ rest
      · simp [inRest]
      · by_cases same : j = item
        · subst same
          simp [inRest]
        · simp [inRest, same]

theorem memcpyOut_runs : Runs t (memcpyOut gran idx) s (s.slot idx).data s := by
  cases gran with
  | whole => exact Exec.perform rfl
  | bytewise =>
      obtain ⟨out, copied, ran⟩ :=
        readBytes t s idx (fun _ => 0) (List.finRange n)
      have whole : out = (s.slot idx).data := by
        funext j
        simp [copied j]
      rw [← whole]
      exact ran

def Slot.withData (slot : Slot n) (rec : Rec n) : Slot n := { slot with data := rec }

private theorem writeBytes (t : Nat) (s : Core n) (idx : Nat) (rec : Rec n) (items : List (Fin n)) :
    ∃ out : Rec n, (∀ j, out j = if j ∈ items then rec j else (s.slot idx).data j) ∧
      Runs t (forEach items fun at_ => perform (.storeByte idx at_ (rec at_))) s ()
        (s.setSlot idx ((s.slot idx).withData out)) := by
  induction items generalizing s with
  | nil =>
      refine ⟨(s.slot idx).data, fun j => by simp, ?_⟩
      have same : s.setSlot idx ((s.slot idx).withData (s.slot idx).data) = s := by
        simp only [Core.setSlot, Slot.withData, Function.update_eq_self]
      rw [same]
      exact runs_pure () s
  | cons item rest ih =>
      obtain ⟨out, copied, ran⟩ := ih (s.setSlot idx
        ((s.slot idx).withData (Function.update (s.slot idx).data item (rec item))))
      refine ⟨out, fun j => ?_, ?_⟩
      · rw [copied j]
        by_cases inRest : j ∈ rest
        · simp [inRest]
        · by_cases same : j = item
          · subst same
            simp [inRest, Core.setSlot, Slot.withData]
          · simp [inRest, same, Core.setSlot, Slot.withData]
      · refine Exec.bind (Exec.perform rfl) ?_
        simpa only [Core.setSlot, Slot.withData, Function.update_self,
          Function.update_idem] using ran

theorem memcpyIn_runs (rec : Rec n) :
    Runs t (memcpyIn gran idx rec) s () (s.setSlot idx ((s.slot idx).withData rec)) := by
  cases gran with
  | whole => exact Exec.perform rfl
  | bytewise =>
      obtain ⟨out, copied, ran⟩ :=
        writeBytes t s idx rec (List.finRange n)
      have whole : out = rec := by
        funext j
        simp [copied j]
      rw [whole] at ran
      exact ran

/-! ### The seqlock read -/

/-- What a read of a slot returns: the image of an ACTIVE slot, of the expected generation
if one is expected. -/
def readOutcome (s : Core n) (idx : Nat) (checkGen : Bool) (expectGen : UInt32) :
    Except Err (Rec n) :=
  if (s.slot idx).state = .active ∧ (checkGen = true → (s.slot idx).gen = expectGen) then
    .ok (s.slot idx).data
  else .error .deleted

theorem slotStale_runs (s : Core n) (idx : Nat) (expectGen : UInt32) :
    Runs t (slotStale idx expectGen) s
      (!decide ((s.slot idx).state = .active ∧ (s.slot idx).gen = expectGen)) s := by
  refine runs_perform_bind rfl ?_
  by_cases active : (s.slot idx).state = .active
  · rw [if_neg (not_not_intro active)]
    refine runs_perform_bind rfl ?_
    by_cases same : (s.slot idx).gen = expectGen
    · simpa [active, same] using runs_pure false s
    · have stale : ((s.slot idx).gen != expectGen) = true := by simpa using same
      rw [stale]
      simpa [active, same] using runs_pure true s
  · rw [if_pos active]
    simpa [active] using runs_pure true s

theorem genMismatch_runs (checkGen : Bool) (expectGen : UInt32) :
    Runs t (genMismatch idx checkGen expectGen) s
      (checkGen && ((s.slot idx).gen != expectGen)) s := by
  cases checkGen with
  | false => exact runs_pure false s
  | true => exact runs_perform_bind rfl (runs_pure _ s)

theorem seqlockCopy_runs (even : (s.slot idx).seq % 2 = 0) :
    Runs t (seqlockCopy gran idx) s (some (s.slot idx).data) s := by
  have notOdd : ¬ (s.slot idx).seq % 2 = 1 := by rw [even]; decide
  refine runs_perform_bind rfl ?_
  rw [if_neg notOdd]
  refine runs_bind memcpyOut_runs (runs_perform_bind rfl ?_)
  rw [if_neg (not_not_intro rfl)]
  exact runs_pure _ s

theorem readRow_runs (even : (s.slot idx).seq % 2 = 0) (checkGen : Bool)
    (expectGen : UInt32) :
    Runs t (fmCoreReadRow gran idx checkGen expectGen) s
      (readOutcome s idx checkGen expectGen) s := by
  apply Exec.iterate_leave
  refine runs_perform_bind rfl ?_
  by_cases active : (s.slot idx).state = .active
  · rw [if_neg (not_not_intro active)]
    refine runs_bind (genMismatch_runs checkGen expectGen) ?_
    by_cases mismatch : (checkGen && ((s.slot idx).gen != expectGen)) = true
    · rw [if_pos mismatch]
      have refused : ¬ (checkGen = true → (s.slot idx).gen = expectGen) := by
        simpa using mismatch
      simpa [readOutcome, refused] using runs_pure _ s
    · rw [if_neg mismatch]
      have expected : checkGen = true → (s.slot idx).gen = expectGen := by
        simpa using mismatch
      refine runs_bind (seqlockCopy_runs even) ?_
      have outcome : readOutcome s idx checkGen expectGen = .ok (s.slot idx).data :=
        if_pos ⟨active, expected⟩
      rw [outcome]
      exact runs_pure _ s
  · rw [if_pos active]
    have outcome : readOutcome s idx checkGen expectGen = .error .deleted :=
      if_neg fun both => active both.1
    rw [outcome]
    exact runs_pure _ s

/-! ### Chain surgery -/

theorem unlinkWalk_finds {k i : Nat} {before after : List Nat} {link : Cell}
    (threaded : Threaded s.cell (Cell.next k) link (before ++ i :: after))
    (notBefore : i ∉ before) :
    Runs t (iterate link (unlinkRound k i)) s (.ok ())
      (s.setCell (cellAfter (Cell.next k) link before) (s.cell (.next k i))) := by
  induction before generalizing link with
  | nil =>
      apply Exec.iterate_leave
      refine runs_perform_bind rfl ?_
      rw [threaded.1]
      simp only [if_true]
      exact runs_perform_bind rfl (runs_perform_bind rfl (runs_pure _ _))
  | cons first rest ih =>
      have different : first ≠ i := fun same => notBefore (same ▸ List.mem_cons_self ..)
      refine Exec.iterate_again ?_
        (ih threaded.2 fun inRest => notBefore (List.mem_cons_of_mem first inRest))
      refine runs_perform_bind rfl ?_
      rw [threaded.1]
      simp only [if_neg different]
      exact runs_pure _ s

theorem chainUnlink_runs {chain : ChainLists} {k b i : Nat} {before after : List Nat}
    (chains : Chains s.cell chain) (split : chain k b = before ++ i :: after) :
    Runs t (fmCoreChainUnlink k b i) s (.ok ())
      (s.setCell (cellAfter (Cell.next k) (.head k b) before) (s.cell (.next k i))) := by
  have threaded := chains.threaded k b
  have distinct := chains.nodup k b
  rw [split] at distinct
  have notBefore : i ∉ before := fun inBefore =>
    (List.nodup_append.mp distinct).2.2 i inBefore i (List.mem_cons_self ..) rfl
  rw [split] at threaded
  exact unlinkWalk_finds threaded notBefore

theorem chainLink_runs {k b i : Nat} :
    Runs t (fmCoreChainLink k b i) s ()
      ((s.setCell (.next k i) (s.cell (.head k b))).setCell (.head k b) (some i)) :=
  runs_perform_bind rfl (runs_perform_bind rfl (Exec.perform rfl))

theorem freeSlot_runs {i : Nat} :
    Runs t (fmCoreFreeSlot i) s ()
      ((s.setCell (.freeNext i) (s.cell .freeHead)).setCell .freeHead (some i)) :=
  runs_perform_bind rfl (runs_perform_bind rfl (Exec.perform rfl))

/-! ### Chain walks -/

def PackedAgrees (D : ShareDef n) (k : Nat) (packed : PackedKey) : Prop :=
  k < D.keys ∧ ∀ rec, (D.keydef k).ops.cmpRecKey rec packed = 0 →
    (D.keydef k).ops.hashRec rec = (D.keydef k).ops.hashKey packed

def passes (s : Core n) (test : Rec n → Bool) (i : Nat) : Bool :=
  (s.slot i).state = .active && test (s.slot i).data

theorem readPassing_runs (even : (s.slot idx).seq % 2 = 0) (test : Rec n → Bool) :
    Runs t (readPassing gran idx test) s
      (if passes s test idx then some (s.slot idx).data else none) s := by
  refine runs_bind (readRow_runs even false 0) ?_
  by_cases active : (s.slot idx).state = .active
  · have outcome : readOutcome s idx false 0 = .ok (s.slot idx).data :=
      if_pos ⟨active, fun impossible => by cases impossible⟩
    rw [outcome]
    simpa [passes, active] using runs_pure _ s
  · have outcome : readOutcome s idx false 0 = .error .deleted :=
      if_neg fun both => active both.1
    rw [outcome]
    simpa [passes, active] using runs_pure none s

private theorem findWalk_runs {key : Nat} {items : List Nat} {link : Cell}
    (settled : ∀ i ∈ items, (s.slot i).seq % 2 = 0) (test : Rec n → Bool)
    (threaded : Threaded s.cell (Cell.next key) link items) :
    Runs t (iterate (s.cell link) (findRound gran key test)) s
      (match items.find? (passes s test) with
        | some i => .ok (i, (s.slot i).data)
        | none => .error .notFound) s := by
  induction items generalizing link with
  | nil =>
      apply Exec.iterate_leave
      rw [show s.cell link = none from threaded]
      exact runs_pure _ s
  | cons first rest ih =>
      have even := settled first (List.mem_cons_self ..)
      rw [threaded.1]
      by_cases passed : passes s test first = true
      · apply Exec.iterate_leave
        refine runs_bind (readPassing_runs even test) ?_
        simpa [passed] using runs_pure _ s
      · rw [List.find?_cons_of_neg passed]
        refine Exec.iterate_again ?_
          (ih (fun i member => settled i (List.mem_cons_of_mem first member)) threaded.2)
        refine runs_bind (readPassing_runs even test) ?_
        rw [if_neg passed]
        exact runs_perform_bind rfl (runs_pure _ s)

def findOutcome (s : Core n) (test : Rec n → Bool) (items : List Nat) :
    Except Err (Nat × Rec n) :=
  match items.find? (passes s test) with
  | some i => .ok (i, (s.slot i).data)
  | none => .error .notFound

theorem findOutcome_none {test : Rec n → Bool} {items : List Nat}
    (missing : items.find? (passes s test) = none) :
    findOutcome s test items = .error .notFound := by
  unfold findOutcome
  rw [missing]

theorem findOutcome_some {test : Rec n → Bool} {items : List Nat} {i : Nat}
    (found : items.find? (passes s test) = some i) :
    findOutcome s test items = .ok (i, (s.slot i).data) := by
  unfold findOutcome
  rw [found]

theorem find_runs {D : ShareDef n} {key : Nat} {packed : PackedKey} {items : List Nat}
    (threaded : Threaded s.cell (Cell.next key)
      (.head key (fmBucket (D.keydef key) ((D.keydef key).ops.hashKey packed))) items)
    (settled : ∀ i ∈ items, (s.slot i).seq % 2 = 0)
    (unlocked : s.owner (.bucket key (fmBucket (D.keydef key)
      ((D.keydef key).ops.hashKey packed))) = none) :
    Runs t (fmCoreFind D gran key packed) s
      (findOutcome s (fun buf => (D.keydef key).ops.cmpRecKey buf packed = 0) items) s := by
  let b := fmBucket (D.keydef key) ((D.keydef key).ops.hashKey packed)
  refine runs_perform_bind (exec_lock unlocked) (runs_perform_bind rfl ?_)
  refine runs_bind (findWalk_runs (s := s.setOwner (.bucket key b) (some t)) settled _
    threaded) (runs_perform_bind rfl ?_)
  rw [setOwner_release unlocked]
  exact runs_pure _ s

/-- The part of a chain behind the cursor; nothing if the cursor is not in the chain. -/
def pastCursor (cur : Option Nat) : List Nat → List Nat
  | [] => []
  | first :: rest => if some first = cur then rest else pastCursor cur rest

theorem pastCursor_none (items : List Nat) : pastCursor none items = [] := by
  induction items with
  | nil => rfl
  | cons first rest ih =>
      unfold pastCursor
      rw [if_neg (by simp)]
      exact ih

theorem mem_pastCursor {cur : Option Nat} {items : List Nat} {i : Nat} :
    i ∈ pastCursor cur items →
      ∃ idx before after, cur = some idx ∧ items = before ++ idx :: after ∧ i ∈ after := by
  induction items with
  | nil =>
      intro member
      cases member
  | cons first rest ih =>
      unfold pastCursor
      by_cases here : some first = cur
      · rw [if_pos here]
        intro member
        exact ⟨first, [], rest, here.symm, rfl, member⟩
      · rw [if_neg here]
        intro member
        obtain ⟨idx, before, after, same, split, behind⟩ := ih member
        exact ⟨idx, first :: before, after, same, by rw [split]; rfl, behind⟩

theorem pastCursor_append {idx : Nat} {before after : List Nat} (notBefore : idx ∉ before) :
    pastCursor (some idx) (before ++ idx :: after) = after := by
  induction before with
  | nil => exact if_pos rfl
  | cons first rest ih =>
      have different : ¬ some first = some idx := fun same =>
        notBefore (Option.some.inj same ▸ List.mem_cons_self ..)
      refine (if_neg different).trans (ih fun inRest => ?_)
      exact notBefore (List.mem_cons_of_mem first inRest)

private theorem findAfterWalk_runs {key : Nat} {cur : Option Nat} {items : List Nat} {link : Cell}
    (settled : ∀ i, (s.slot i).seq % 2 = 0) (test : Rec n → Bool)
    (notAgain : ∀ i ∈ items, some i ≠ cur)
    (threaded : Threaded s.cell (Cell.next key) link items) :
    Runs t (iterate (s.cell link, true) (findNextRound gran key test cur)) s
      (findOutcome s test items) s := by
  induction items generalizing link with
  | nil =>
      apply Exec.iterate_leave
      rw [show s.cell link = none from threaded]
      exact runs_pure _ s
  | cons first rest ih =>
      have different : ¬ some first = cur := notAgain first (List.mem_cons_self ..)
      rw [threaded.1]
      by_cases passed : passes s test first = true
      · apply Exec.iterate_leave
        simp only [findNextRound, if_neg different, if_true]
        refine runs_bind (readPassing_runs (settled first) test) ?_
        simpa [findOutcome, passed] using runs_pure _ s
      · have later := ih (fun i member => notAgain i (List.mem_cons_of_mem first member)) threaded.2
        unfold findOutcome at later ⊢
        rw [List.find?_cons_of_neg passed]
        refine Exec.iterate_again ?_ later
        simp only [findNextRound, if_neg different, if_true]
        refine runs_bind (readPassing_runs (settled first) test) ?_
        rw [if_neg passed]
        exact runs_perform_bind rfl (runs_pure _ s)

private theorem findNextWalk_runs {key : Nat} {cur : Option Nat} {items : List Nat} {link : Cell}
    (settled : ∀ i, (s.slot i).seq % 2 = 0) (test : Rec n → Bool)
    (threaded : Threaded s.cell (Cell.next key) link items) :
    Runs t (iterate (s.cell link, false) (findNextRound gran key test cur)) s
      (findOutcome s test (pastCursor cur items)) s := by
  induction items generalizing link with
  | nil =>
      apply Exec.iterate_leave
      rw [show s.cell link = none from threaded]
      exact runs_pure _ s
  | cons first rest ih =>
      have distinct : (first :: rest).Nodup := threaded.nodup
      unfold pastCursor
      rw [threaded.1]
      by_cases here : some first = cur
      · rw [if_pos here]
        have notAgain : ∀ i ∈ rest, some i ≠ cur := by
          intro i member same
          obtain rfl : first = i := Option.some.inj (here.trans same.symm)
          exact (List.nodup_cons.mp distinct).1 member
        refine Exec.iterate_again ?_ (findAfterWalk_runs settled test notAgain threaded.2)
        simp only [findNextRound, if_pos here]
        exact runs_perform_bind rfl (runs_pure _ s)
      · rw [if_neg here]
        refine Exec.iterate_again ?_ (ih threaded.2)
        simp only [findNextRound, if_neg here, Bool.false_eq_true, if_false]
        exact runs_bind (runs_pure none s) (runs_perform_bind rfl (runs_pure _ s))

/-- A continued lookup tests the chain behind the cursor only: with a cursor that has left
the chain it finds nothing. -/
theorem findNext_runs {D : ShareDef n} {key : Nat} {packed : PackedKey} {items : List Nat}
    (cur : Option Nat) (threaded : Threaded s.cell (Cell.next key)
      (.head key (fmBucket (D.keydef key) ((D.keydef key).ops.hashKey packed))) items)
    (settled : ∀ i, (s.slot i).seq % 2 = 0) (unlocked : ∀ b, s.owner (.bucket key b) = none) :
    Runs t (fmCoreFindNext D gran key packed cur) s
      (findOutcome s (fun buf => (D.keydef key).ops.cmpRecKey buf packed = 0)
        (pastCursor cur items)) s := by
  let b := fmBucket (D.keydef key) ((D.keydef key).ops.hashKey packed)
  refine runs_perform_bind (exec_lock (unlocked b)) (runs_perform_bind rfl ?_)
  refine runs_bind (findNextWalk_runs (s := s.setOwner (.bucket key b) (some t)) settled _
    threaded) (runs_perform_bind rfl ?_)
  rw [setOwner_release (unlocked b)]
  exact runs_pure _ s

private theorem dupWalk_runs {k : Nat} {items : List Nat} {link : Cell}
    (settled : ∀ i, (s.slot i).seq % 2 = 0) (test : Rec n → Bool)
    (threaded : Threaded s.cell (Cell.next k) link items) :
    Runs t (iterate (s.cell link) (dupRound gran k test)) s (items.any (passes s test)) s := by
  induction items generalizing link with
  | nil =>
      apply Exec.iterate_leave
      rw [show s.cell link = none from threaded]
      exact runs_pure _ s
  | cons first rest ih =>
      rw [threaded.1]
      by_cases passed : passes s test first = true
      · apply Exec.iterate_leave
        refine runs_bind (readPassing_runs (settled first) test) ?_
        simpa [passed] using runs_pure _ s
      · rw [List.any_cons, Bool.eq_false_of_not_eq_true passed, Bool.false_or]
        refine Exec.iterate_again ?_ (ih threaded.2)
        refine runs_bind (readPassing_runs (settled first) test) ?_
        rw [if_neg passed]
        exact runs_perform_bind rfl (runs_pure _ s)

/-- The duplicate check finds an ACTIVE chain member that compares equal, if the check
applies to the record at all. -/
theorem dupCheck_runs {D : ShareDef n} {chain : ChainLists} {k b : Nat} {rec : Rec n}
    (chains : Chains s.cell chain) (settled : ∀ i, (s.slot i).seq % 2 = 0) :
    Runs t (fmCoreDupCheck D gran k b rec) s
      (dupChecked (D.keydef k) rec && (chain k b).any
        (passes s fun scratch => (D.keydef k).ops.cmpRecRec scratch rec = 0)) s := by
  unfold fmCoreDupCheck
  by_cases checked : dupChecked (D.keydef k) rec = true
  · rw [if_pos checked, checked, Bool.true_and]
    exact runs_perform_bind rfl (dupWalk_runs settled _ (chains.threaded k b))
  · rw [if_neg checked, Bool.eq_false_of_not_eq_true checked, Bool.false_and]
    exact runs_pure _ s

end Fastmem
