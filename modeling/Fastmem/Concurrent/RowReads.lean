/-
Row reads in a run, step by step.

A read that returned a row has a last round: it found the slot ACTIVE, loaded
the sequence counter, copied the image and loaded the same counter again. The
other threads may have stepped anywhere in between, so all that is known of the
copy is that each byte was in the slot at some moment of the round.
-/

import Fastmem.Core.Operations
import Fastmem.RunEvents

set_option autoImplicit false

namespace Fastmem

open Prog (perform iterate foldEach Performs)
open ThreadSystem

variable {n : Nat} {α β : Type}

/-! ### Marks -/

/-- The steps that readers and those who disturb them are told by. -/
inductive Mark
  | state (idx : Nat)
  | gen (idx : Nat)
  | seq (idx : Nat)
  | bumpGen (idx : Nat)
  | bumpSeq (idx : Nat)
  | other
  deriving DecidableEq

def Act.mark {ρ : Type} : Act n ρ → ρ → Mark
  | .loadState idx, _ => .state idx
  | .loadGen idx, _ => .gen idx
  | .loadSeq idx, _ => .seq idx
  | .bumpGen idx, _ => .bumpGen idx
  | .bumpSeq idx, _ => .bumpSeq idx
  | _, _ => .other

section

variable {T : ThreadSystem (coreMachine n)}

/-- The step at time `m` has this mark. -/
def Marked (R : T.Run) (m : Nat) (mark : Mark) : Prop :=
  (R.ev m).labelled Act.mark = some mark

theorem Marked.action {R : T.Run} {m : Nat} {mark : Mark} (marked : Marked R m mark)
    (bound : m < R.len) :
    ∃ call ρ, ∃ (action : Act n ρ) (next : ρ → CoreProg n (T.Res × T.Loc)) (result : ρ),
      (R.cfg m).thread (R.tid m) = .busy call (.act action next) ∧
      R.ev m = .act (M := coreMachine n) action result ∧
      Act.exec (R.tid m) action (R.st m) = some (result, R.st (m + 1)) ∧
      action.mark result = mark := by
  unfold Marked at marked
  rcases R.acts bound with ⟨call, ρ, action, next, result, busy, event, ran, _⟩ | ⟨none, _⟩
  · rw [event] at marked
    exact ⟨call, ρ, action, next, result, busy, event, ran, Option.some.inj marked⟩
  · cases event : R.ev m with
    | act action result => exact absurd event (none _ action result)
    | start call =>
        rw [event] at marked
        cases marked
    | unroll =>
        rw [event] at marked
        cases marked
    | finish call result =>
        rw [event] at marked
        cases marked

/-- Thread `t` does the program between two times of the run, and its steps have the marks of
the program's actions. -/
abbrev Performed (R : T.Run) (t i : Nat) (program : CoreProg n α) (j : Nat) (value : α) : Prop :=
  Does (M := (coreMachine n).recorded Act.mark) (fun m => (R.st m, R.history Act.mark m)) R.tid t
    i program j value

variable {R : T.Run} {t i j idx : Nat} {gran : Gran}

namespace Performed

theorem ofReturned {call : T.Call} {kept kept' : T.Loc} {result : T.Res}
    (returned : R.Returned t call kept i j result kept') :
    Performed R t (i + 1) (T.code t call kept) j (result, kept') :=
  returned.records Act.mark

theorem perform_inv {ρ : Type} {action : Act n ρ} {value : ρ}
    (performed : Performed R t i (perform action) j value) :
    ∃ m, i ≤ m ∧ m < j ∧ R.tid m = t ∧ Act.exec t action (R.st m) = some (value, R.st (m + 1)) ∧
      Marked R m (action.mark value) ∧ ∀ k, i ≤ k → k < j → k ≠ m → R.tid k ≠ t := by
  obtain ⟨m, lower, upper, own, once, ran⟩ := Does.perform_inv performed
  obtain ⟨plain, marked⟩ := Run.recorded_action ran
  exact ⟨m, lower, upper, own, plain, marked, once⟩

theorem pure_inv {value answer : α}
    (performed : Performed R t i (pure value : CoreProg n α) j answer) : answer = value :=
  (Does.ret_inv performed).1

theorem marks {program : CoreProg n α} {value : α} {condition : Mark → Prop}
    (performed : Performed R t i program j value)
    (performs : program.Performs fun _ action => ∀ result, condition (action.mark result)) :
    ∀ m, i ≤ m → m < j → R.tid m = t → ∀ mark, Marked R m mark → condition mark :=
  Run.recorded_labels performed performs

theorem bind_inv {program : CoreProg n α} {f : α → CoreProg n β} {value : β}
    (performed : Performed R t i (program >>= f) j value) :
    ∃ m mid, Performed R t i program m mid ∧ Performed R t m (f mid) j value :=
  Does.bind_inv (M := (coreMachine n).recorded Act.mark) performed

theorem le {program : CoreProg n α} {value : α} (performed : Performed R t i program j value) :
    i ≤ j :=
  Does.le performed

end Performed

def Unchecked (R : T.Run) (t i j : Nat) : Prop :=
  ∀ m, i ≤ m → m < j → R.tid m = t → ∀ idx, ¬ Marked R m (.state idx)

theorem Unchecked.trans {k : Nat} (first : Unchecked R t i j) (second : Unchecked R t j k) :
    Unchecked R t i k := by
  intro m lower upper
  rcases Nat.lt_or_ge m j with earlier | later
  · exact first m lower earlier
  · exact second m later upper

theorem Performed.unchecked {program : CoreProg n α} {value : α}
    (performed : Performed R t i program j value)
    (performs : program.Performs fun _ action => ∀ result idx, action.mark result ≠ .state idx) :
    Unchecked R t i j := by
  intro m lower upper own idx marked
  have unmarked : ∀ mark, Marked R m mark → ∀ idx, mark ≠ .state idx :=
    performed.marks performs m lower upper own
  exact unmarked _ marked idx rfl

/-! ### The copy -/

theorem memcpyOut_unmarked (gran : Gran) (idx : Nat) : (memcpyOut (n := n) gran idx).Performs
    fun _ action => ∀ result other, action.mark result ≠ .state other := by
  cases gran with
  | whole => exact Performs.perform fun _ _ clash => by cases clash
  | bytewise =>
      refine Performs.foldEach (fun buf at_ _ => ?_) _
      exact Performs.step (fun _ _ clash => by cases clash) fun _ => Performs.ret _

theorem memcpyOut_whole {buf : Rec n} (performed : Performed R t i (memcpyOut .whole idx) j buf) :
    ∃ m, i ≤ m ∧ m < j ∧ buf = ((R.st m).slot idx).data := by
  obtain ⟨m, lower, upper, _, ran, _⟩ := performed.perform_inv
  exact ⟨m, lower, upper, (congrArg Prod.fst (Option.some.inj ran)).symm⟩

/-- Each copied byte was in the slot at some moment of the copy. -/
theorem memcpyOut_bytes {buf : Rec n} (performed : Performed R t i (memcpyOut gran idx) j buf) :
    ∀ x, ∃ m, i ≤ m ∧ m < j ∧ buf x = ((R.st m).slot idx).data x := by
  cases gran with
  | whole =>
      obtain ⟨m, lower, upper, loaded⟩ := memcpyOut_whole performed
      exact fun x => ⟨m, lower, upper, by rw [loaded]⟩
  | bytewise =>
      have copied : ∀ (items : List (Fin n)) (buf buf' : Rec n) (i : Nat),
          Performed R t i (foldEach (fun buf at_ => do
            let byte ← perform (.loadByte idx at_)
            return Function.update buf at_ byte) buf items) j buf' →
          ∀ x, (∃ m, i ≤ m ∧ m < j ∧ buf' x = ((R.st m).slot idx).data x) ∨
            (x ∉ items ∧ buf' x = buf x) := by
        intro items
        induction items with
        | nil =>
            intro buf buf' i performed x
            exact Or.inr ⟨List.not_mem_nil, by rw [performed.pure_inv]⟩
        | cons item rest ih =>
            intro buf buf' i performed x
            obtain ⟨m, mid, first, second⟩ := performed.bind_inv
            obtain ⟨k, byte, loaded, last⟩ := first.bind_inv
            obtain ⟨at_, lower, upper, _, ran, _, _⟩ := loaded.perform_inv
            have isMid := last.pure_inv
            subst isMid
            have isByte : ((R.st at_).slot idx).data item = byte :=
              congrArg Prod.fst (Option.some.inj ran)
            have kLe := last.le
            have mLe := second.le
            rcases ih _ _ _ second x with ⟨m', lower', upper', same⟩ | ⟨outside, same⟩
            · exact Or.inl ⟨m', by omega, upper', same⟩
            · by_cases here : x = item
              · subst here
                rw [Function.update_self, ← isByte] at same
                exact Or.inl ⟨at_, lower, by omega, same⟩
              · rw [Function.update_of_ne here] at same
                exact Or.inr ⟨List.not_mem_cons_of_ne_of_not_mem here outside, same⟩
      intro x
      rcases copied _ _ _ _ performed x with found | ⟨outside, _⟩
      · exact found
      · exact absurd (List.mem_finRange x) outside

/-! ### The last round -/

/-- The times of a round that returned a row: `a` the check of the state, `c` and `e` the two
loads of the sequence counter. -/
structure LastRound (gran : Gran) (R : T.Run) (t idx : Nat) (buf : Rec n) (a c e : Nat) : Prop
    where
  order : a < c ∧ c < e
  own : R.tid a = t ∧ R.tid c = t ∧ R.tid e = t
  checked : Marked R a (.state idx)
  active : ((R.st a).slot idx).state = .active
  first : Marked R c (.seq idx)
  even : ¬ ((R.st c).slot idx).seq % 2 = 1
  second : Marked R e (.seq idx)
  same : ((R.st e).slot idx).seq = ((R.st c).slot idx).seq
  bytes : ∀ x, ∃ m, c < m ∧ m < e ∧ buf x = ((R.st m).slot idx).data x
  whole : gran = .whole → ∃ m, c < m ∧ m < e ∧ buf = ((R.st m).slot idx).data

theorem genMismatch_false {checkGen : Bool} {g : UInt32}
    (performed : Performed R t i (genMismatch idx checkGen g) j false) :
    checkGen = true → ∃ b, i ≤ b ∧ b < j ∧ R.tid b = t ∧ Marked R b (.gen idx) ∧
      ((R.st b).slot idx).gen = g := by
  rintro rfl
  obtain ⟨m, gen, loaded, last⟩ := performed.bind_inv
  obtain ⟨b, lower, upper, own, ran, marked, _⟩ := loaded.perform_inv
  have isGen : ((R.st b).slot idx).gen = gen := congrArg Prod.fst (Option.some.inj ran)
  have same : gen = g := by simpa using last.pure_inv.symm
  exact ⟨b, lower, Nat.lt_of_lt_of_le upper last.le, own, marked, isGen.trans same⟩

theorem seqlockCopy_some {buf : Rec n}
    (performed : Performed R t i (seqlockCopy gran idx) j (some buf)) :
    ∃ c e, i ≤ c ∧ c < e ∧ e < j ∧ R.tid c = t ∧ R.tid e = t ∧ Marked R c (.seq idx) ∧
      Marked R e (.seq idx) ∧ ¬ ((R.st c).slot idx).seq % 2 = 1 ∧
      ((R.st e).slot idx).seq = ((R.st c).slot idx).seq ∧
      (∀ x, ∃ m, c < m ∧ m < e ∧ buf x = ((R.st m).slot idx).data x) ∧
      (gran = .whole → ∃ m, c < m ∧ m < e ∧ buf = ((R.st m).slot idx).data) := by
  obtain ⟨m, s1, loaded, rest⟩ := performed.bind_inv
  obtain ⟨c, lowerC, upperC, ownC, ranC, markedC, _⟩ := loaded.perform_inv
  have isS1 : ((R.st c).slot idx).seq = s1 := congrArg Prod.fst (Option.some.inj ranC)
  split at rest
  · cases rest.pure_inv
  · rename_i even
    obtain ⟨m', buf', copied, rest⟩ := rest.bind_inv
    obtain ⟨m'', s2, again, last⟩ := rest.bind_inv
    obtain ⟨e, lowerE, upperE, ownE, ranE, markedE, _⟩ := again.perform_inv
    have isS2 : ((R.st e).slot idx).seq = s2 := congrArg Prod.fst (Option.some.inj ranE)
    have copyLe := copied.le
    have lastLe := last.le
    split at last
    · cases last.pure_inv
    · rename_i same
      cases last.pure_inv
      refine ⟨c, e, lowerC, by omega, by omega, ownC, ownE, markedC, markedE, isS1 ▸ even, ?_, ?_,
        ?_⟩
      · rw [isS2, isS1]
        exact not_not.mp same
      · intro x
        obtain ⟨at_, lower, upper, byte⟩ := memcpyOut_bytes copied x
        exact ⟨at_, by omega, by omega, byte⟩
      · rintro rfl
        obtain ⟨at_, lower, upper, image⟩ := memcpyOut_whole copied
        exact ⟨at_, by omega, by omega, image⟩

theorem seqlockCopy_unchecked (gran : Gran) (idx : Nat) : (seqlockCopy (n := n) gran idx).Performs
    fun _ action => ∀ result other, action.mark result ≠ .state other := by
  refine Performs.step (fun _ _ clash => by cases clash) fun s1 => ?_
  split
  · exact Performs.ret _
  · refine (memcpyOut_unmarked gran idx).bind fun buf => ?_
    refine Performs.step (fun _ _ clash => by cases clash) fun s2 => ?_
    split <;> exact Performs.ret _

theorem genMismatch_unchecked (idx : Nat) (checkGen : Bool) (g : UInt32) :
    (genMismatch (n := n) idx checkGen g).Performs
      fun _ action => ∀ result other, action.mark result ≠ .state other := by
  unfold genMismatch
  split
  · exact Performs.step (fun _ _ clash => by cases clash) fun _ => Performs.ret _
  · exact Performs.ret _

/-- A read that returned a row has a last round, and checks no state after it. -/
theorem readRow_last {checkGen : Bool} {g : UInt32} {buf : Rec n}
    (performed : Performed R t i (fmCoreReadRow gran idx checkGen g) j (.ok buf)) :
    ∃ a c e, i ≤ a ∧ e < j ∧ LastRound gran R t idx buf a c e ∧ Unchecked R t (a + 1) j ∧
      (checkGen = true → ∃ b, a < b ∧ b < c ∧ R.tid b = t ∧ Marked R b (.gen idx) ∧
        ((R.st b).slot idx).gen = g) := by
  obtain ⟨from_, until_, _, lower, upper, _, round, resting⟩ := Does.iterate_inv
    (M := (coreMachine n).recorded Act.mark) (fun _ _ => True) (fun _ _ _ _ _ => trivial)
    (fun _ _ _ _ _ _ _ _ => trivial) trivial performed
  obtain ⟨m, state, loaded, rest⟩ := Performed.bind_inv round
  obtain ⟨a, lowerA, upperA, ownA, ranA, markedA, onceA⟩ := loaded.perform_inv
  have isState : ((R.st a).slot idx).state = state := congrArg Prod.fst (Option.some.inj ranA)
  have afterA : Unchecked R t (a + 1) m := fun k lowerK upperK own =>
    absurd own (onceA k (by omega) upperK (by omega))
  split at rest
  · cases rest.pure_inv
  · rename_i active
    obtain ⟨m', mismatch, tested, rest⟩ := rest.bind_inv
    have testedUnchecked := tested.unchecked (genMismatch_unchecked idx checkGen g)
    cases mismatch with
    | true => cases rest.pure_inv
    | false =>
        obtain ⟨m'', copy, copied, last⟩ := rest.bind_inv
        cases copy with
        | none => cases last.pure_inv
        | some buf' =>
            cases last.pure_inv
            obtain ⟨c, e, lowerC, order, upperE, ownC, ownE, first, second, even, same, bytes,
              whole⟩ := seqlockCopy_some copied
            have copiedUnchecked := copied.unchecked (seqlockCopy_unchecked gran idx)
            have lastUnchecked : Unchecked R t m'' j := by
              intro k lowerK upperK own
              rcases Nat.lt_or_ge k until_ with earlier | later
              · exact absurd own ((Does.ret_inv last).2 k lowerK earlier)
              · exact absurd own (resting k later upperK)
            have testedLe := tested.le
            have copiedLe := copied.le
            have lastLe := last.le
            have unchecked : Unchecked R t (a + 1) j :=
              (afterA.trans testedUnchecked).trans (copiedUnchecked.trans lastUnchecked)
            refine ⟨a, c, e, by omega, by omega, ?_, unchecked, fun asked => ?_⟩
            · exact ⟨⟨by omega, order⟩, ⟨ownA, ownC, ownE⟩, markedA,
                isState.trans (not_not.mp active), first, even, second, same, bytes, whole⟩
            · obtain ⟨b, lowerB, upperB, facts⟩ := genMismatch_false tested asked
              exact ⟨b, by omega, by omega, facts⟩

def StaysActive (R : T.Run) (idx i j : Nat) : Prop :=
  ∀ m, i ≤ m → m < j → ((R.st m).slot idx).state = .active

theorem readRow_active {g : UInt32} {result : Except Err (Rec n)}
    (performed : Performed R t i (fmCoreReadRow gran idx false g) j result)
    (stays : StaysActive R idx i j) : ∃ buf, result = .ok buf := by
  obtain ⟨from_, until_, _, lower, upper, _, round, _⟩ := Does.iterate_inv
    (M := (coreMachine n).recorded Act.mark) (fun _ _ => True) (fun _ _ _ _ _ => trivial)
    (fun _ _ _ _ _ _ _ _ => trivial) trivial performed
  obtain ⟨m, state, loaded, rest⟩ := Performed.bind_inv round
  obtain ⟨a, lowerA, upperA, _, ranA, _, _⟩ := loaded.perform_inv
  have isState : ((R.st a).slot idx).state = state := congrArg Prod.fst (Option.some.inj ranA)
  have restLe := rest.le
  rw [stays a (by omega) (by omega)] at isState
  subst isState
  rw [if_neg (fun different => different rfl)] at rest
  obtain ⟨m', mismatch, tested, rest⟩ := rest.bind_inv
  cases tested.pure_inv
  obtain ⟨m'', copy, _, last⟩ := rest.bind_inv
  cases copy with
  | none => cases last.pure_inv
  | some buf => exact ⟨buf, Sum.inr.inj last.pure_inv⟩

/-! ### One call of a scan -/

/-- The last round of a scan call; the rounds before it passed no row that stayed. -/
theorem scanNext_last {pos : Nat} {outcome : Nat × Except Err (Rec n)}
    (performed : Performed R t i (fmCoreScanNext gran pos) j outcome) :
    ∃ k idx a b, i ≤ k ∧ k < j ∧ pos ≤ idx ∧
      (∀ r, pos ≤ r → r < idx → ¬ StaysActive R r i j) ∧ i ≤ a ∧ b ≤ j ∧
      Performed R t a (scanRound gran (R.st k).slotCount idx) b (.inr outcome) ∧
      ∀ m, b ≤ m → m < j → R.tid m ≠ t := by
  obtain ⟨m, cnt, loaded, rest⟩ := performed.bind_inv
  obtain ⟨k, lowerK, upperK, _, ranK, _, _⟩ := loaded.perform_inv
  have isCnt : (R.st k).chunkCnt = cnt := congrArg Prod.fst (Option.some.inj ranK)
  subst isCnt
  have restLe := rest.le
  have rounds : ∀ a b idx again, m ≤ a → b ≤ j →
      (pos ≤ idx ∧ ∀ r, pos ≤ r → r < idx → ¬ StaysActive R r i j) →
      Performed R t a (scanRound gran (R.st k).slotCount idx) b (.inl again) →
      pos ≤ again ∧ ∀ r, pos ≤ r → r < again → ¬ StaysActive R r i j := by
    intro a b idx again lower upper holds round
    unfold scanRound at round
    split at round
    · obtain ⟨b', row, read, last⟩ := round.bind_inv
      cases row with
      | ok buf => cases last.pure_inv
      | error e =>
          cases last.pure_inv
          refine ⟨by omega, fun r above below stays => ?_⟩
          rcases Nat.lt_or_ge r idx with earlier | notEarlier
          · exact holds.2 r above earlier stays
          · obtain rfl : r = idx := by omega
            have readLe := last.le
            obtain ⟨buf, clash⟩ := readRow_active read fun m' lowerM upperM =>
              stays m' (by omega) (by omega)
            cases clash
    · cases round.pure_inv
  obtain ⟨a, b, idx, lower, upper, ⟨from_, passed⟩, round, resting⟩ := Does.iterate_inv
    (M := (coreMachine n).recorded Act.mark)
    (fun _ idx => pos ≤ idx ∧ ∀ r, pos ≤ r → r < idx → ¬ StaysActive R r i j)
    (fun _ _ _ _ holds => holds) rounds
    ⟨Nat.le_refl _, fun r above below => absurd above (Nat.not_le.mpr below)⟩ rest
  exact ⟨k, idx, a, b, lowerK, by omega, from_, passed, by omega, upper, round, resting⟩

/-- A scan call that returned a row passed no row that stayed, and read the slot before its new
position. -/
theorem scanNext_row {pos pos' : Nat} {buf : Rec n}
    (performed : Performed R t i (fmCoreScanNext gran pos) j (pos', .ok buf)) :
    ∃ k idx a b, i ≤ k ∧ k < j ∧ pos' = idx + 1 ∧ pos ≤ idx ∧ idx < (R.st k).slotCount ∧
      (∀ r, pos ≤ r → r < idx → ¬ StaysActive R r i j) ∧
      i ≤ a ∧ b ≤ j ∧ Performed R t a (fmCoreReadRow gran idx false 0) b (.ok buf) ∧
      ∀ m, b ≤ m → m < j → R.tid m ≠ t := by
  obtain ⟨k, idx, a, b, lowerK, upperK, from_, passed, lower, upper, round, resting⟩ :=
    scanNext_last performed
  unfold scanRound at round
  split at round
  · rename_i below
    obtain ⟨b', row, read, last⟩ := round.bind_inv
    cases row with
    | error e => cases last.pure_inv
    | ok buf' =>
        cases last.pure_inv
        have lastLe := last.le
        refine ⟨k, idx, a, b', lowerK, upperK, rfl, from_, below, passed, lower, by omega, read, ?_⟩
        intro m lowerM upperM
        rcases Nat.lt_or_ge m b with earlier | later
        · exact (Does.ret_inv last).2 m lowerM earlier
        · exact resting m later upperM
  · cases round.pure_inv

theorem scanNext_eof {pos pos' : Nat} {e : Err}
    (performed : Performed R t i (fmCoreScanNext gran pos) j (pos', .error e)) :
    e = .eof ∧ ∃ k, i ≤ k ∧ k < j ∧ ∀ r, pos ≤ r → r < (R.st k).slotCount →
      ¬ StaysActive R r i j := by
  obtain ⟨k, idx, a, b, lowerK, upperK, from_, passed, _, _, round, _⟩ := scanNext_last performed
  unfold scanRound at round
  split at round
  · obtain ⟨b', row, read, last⟩ := round.bind_inv
    cases row with
    | ok buf => cases last.pure_inv
    | error e' => cases last.pure_inv
  · rename_i beyond
    cases round.pure_inv
    exact ⟨rfl, k, lowerK, upperK, fun r above below => passed r above (by omega)⟩

/-! ### One lookup -/

def ReadLast (gran : Gran) (R : T.Run) (t idx : Nat) (buf : Rec n) (i j : Nat) : Prop :=
  ∃ a b, i ≤ a ∧ b ≤ j ∧ Performed R t a (fmCoreReadRow gran idx false 0) b (.ok buf) ∧
    Unchecked R t b j

theorem Unchecked.of_rest (rests : ∀ m, i ≤ m → m < j → R.tid m ≠ t) : Unchecked R t i j :=
  fun m lower upper own => absurd own (rests m lower upper)

theorem ReadLast.extend {buf : Rec n} {i' j' : Nat} (read : ReadLast gran R t idx buf i j)
    (earlier : i' ≤ i) (later : j ≤ j') (unchecked : Unchecked R t j j') :
    ReadLast gran R t idx buf i' j' := by
  obtain ⟨a, b, lower, upper, performed, after⟩ := read
  exact ⟨a, b, by omega, by omega, performed, after.trans unchecked⟩

theorem scanNext_read {pos pos' : Nat} {buf : Rec n}
    (performed : Performed R t i (fmCoreScanNext gran pos) j (pos', .ok buf)) :
    ∃ k idx, k < j ∧ pos' = idx + 1 ∧ idx < (R.st k).slotCount ∧
      ReadLast gran R t idx buf i j := by
  obtain ⟨k, idx, a, b, _, upperK, isPos, _, below, _, lower, upper, read, rests⟩ :=
    scanNext_row performed
  exact ⟨k, idx, upperK, isPos, below, a, b, lower, upper, read, .of_rest rests⟩

theorem readPassing_row {test : Rec n → Bool} {buf : Rec n}
    (performed : Performed R t i (readPassing gran idx test) j (some buf)) :
    ReadLast gran R t idx buf i j := by
  obtain ⟨m, row, read, last⟩ := performed.bind_inv
  have lastLe := last.le
  cases row with
  | error e => cases last.pure_inv
  | ok record =>
      have isBuf := last.pure_inv
      split at isBuf
      · cases isBuf
        exact ⟨i, m, Nat.le_refl i, lastLe, read, .of_rest (Does.ret_inv last).2⟩
      · cases isBuf

theorem iterate_read {σ : Type} {body : σ → CoreProg n (σ ⊕ Except Err (Nat × Rec n))} {start : σ}
    {buf : Rec n}
    (round : ∀ a b at_, Performed R t a (body at_) b (.inr (.ok (idx, buf))) →
      ReadLast gran R t idx buf a b)
    (performed : Performed R t i (iterate start body) j (.ok (idx, buf))) :
    ReadLast gran R t idx buf i j := by
  obtain ⟨from_, until_, at_, lower, upper, _, last, rests⟩ := Does.iterate_inv
    (M := (coreMachine n).recorded Act.mark) (fun _ _ => True) (fun _ _ _ _ _ => trivial)
    (fun _ _ _ _ _ _ _ _ => trivial) trivial performed
  exact (round from_ until_ at_ last).extend lower upper (.of_rest rests)

theorem findRound_row {key : Nat} {test : Rec n → Bool} {head : Option Nat} {buf : Rec n}
    (performed : Performed R t i (findRound gran key test head) j (.inr (.ok (idx, buf)))) :
    ReadLast gran R t idx buf i j := by
  unfold findRound at performed
  split at performed
  · cases performed.pure_inv
  · obtain ⟨m, row, read, rest⟩ := performed.bind_inv
    cases row with
    | some buf' =>
        cases rest.pure_inv
        exact (readPassing_row read).extend (Nat.le_refl i) rest.le
          (.of_rest (Does.ret_inv rest).2)
    | none =>
        obtain ⟨_, next, _, last⟩ := rest.bind_inv
        cases last.pure_inv

theorem findNextRound_row {key : Nat} {test : Rec n → Bool} {cur : Option Nat}
    {state : Option Nat × Bool} {buf : Rec n}
    (performed : Performed R t i (findNextRound gran key test cur state) j
      (.inr (.ok (idx, buf)))) : ReadLast gran R t idx buf i j := by
  unfold findNextRound at performed
  split at performed
  · cases performed.pure_inv
  · split at performed
    · obtain ⟨_, next, _, last⟩ := performed.bind_inv
      cases last.pure_inv
    · obtain ⟨m, row, read, rest⟩ := performed.bind_inv
      cases row with
      | some buf' =>
          cases rest.pure_inv
          split at read
          · exact (readPassing_row read).extend (Nat.le_refl i) rest.le
              (.of_rest (Does.ret_inv rest).2)
          · cases read.pure_inv
      | none =>
          obtain ⟨_, next, _, last⟩ := rest.bind_inv
          cases last.pure_inv

theorem locked_read {σ : Type} {body : σ → CoreProg n (σ ⊕ Except Err (Nat × Rec n))} {b key : Nat}
    (start : Option Nat → σ) {buf : Rec n}
    (round : ∀ a b at_, Performed R t a (body at_) b (.inr (.ok (idx, buf))) →
      ReadLast gran R t idx buf a b)
    (performed : Performed R t i (do
      perform (.lock (.bucket key b))
      let head ← perform (.loadCell (.head key b))
      let found ← iterate (start head) body
      perform (.unlock (.bucket key b))
      return found) j (.ok (idx, buf))) : ReadLast gran R t idx buf i j := by
  obtain ⟨m1, _, locked, rest⟩ := performed.bind_inv
  obtain ⟨m2, head, loaded, rest⟩ := rest.bind_inv
  obtain ⟨m3, found, walked, rest⟩ := rest.bind_inv
  obtain ⟨m4, _, unlocked, last⟩ := rest.bind_inv
  cases last.pure_inv
  have lockedLe := locked.le
  have loadedLe := loaded.le
  have unlockedLe := unlocked.le
  have lastLe := last.le
  have released : Unchecked R t m3 m4 :=
    unlocked.unchecked (Performs.perform fun _ _ clash => by cases clash)
  exact (iterate_read round walked).extend (by omega) (by omega)
    (released.trans (.of_rest (Does.ret_inv last).2))

theorem find_read {D : ShareDef n} {key : Nat} {packed : PackedKey} {buf : Rec n}
    (performed : Performed R t i (fmCoreFind D gran key packed) j (.ok (idx, buf))) :
    ReadLast gran R t idx buf i j :=
  locked_read (fun head => head) (fun _ _ _ => findRound_row) performed

theorem findNext_read {D : ShareDef n} {key : Nat} {packed : PackedKey} {cur : Option Nat}
    {buf : Rec n}
    (performed : Performed R t i (fmCoreFindNext D gran key packed cur) j (.ok (idx, buf))) :
    ReadLast gran R t idx buf i j :=
  locked_read (fun head => (head, false)) (fun _ _ _ => findNextRound_row) performed

end

end Fastmem
