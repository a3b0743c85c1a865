/-
What each thread of a run adds to a quantity of the shared state.

A quantity is a function of the shared state into a commutative group. A program
adds an amount if, whoever steps in between, its own steps change the quantity by
that amount. If each call adds what its result says, then a run that leaves no
call unfinished has added up the amounts of the calls that returned.
-/

import Fastmem.RunEvents
import Mathlib.Algebra.BigOperators.Intervals

set_option autoImplicit false

namespace ThreadSystem

variable {M : Machine} {S : ThreadSystem M} {A : Type} [AddCommGroup A] {quantity : M.St → A}
  {st : Nat → M.St} {tid : Nat → Nat} {t i j k : Nat} {α β ρ : Type}

def added (quantity : M.St → A) (st : Nat → M.St) (tid : Nat → Nat) (t i j : Nat) : A :=
  ∑ m ∈ Finset.Ico i j, if tid m = t then quantity (st (m + 1)) - quantity (st m) else 0

theorem added_trans (first : i ≤ j) (second : j ≤ k) :
    added quantity st tid t i j + added quantity st tid t j k = added quantity st tid t i k :=
  Finset.sum_Ico_consecutive _ first second

theorem added_same (same : ∀ m, i ≤ m → m < j → tid m = t →
    quantity (st (m + 1)) = quantity (st m)) : added quantity st tid t i j = 0 := by
  refine Finset.sum_eq_zero fun m member => ?_
  obtain ⟨lower, upper⟩ := Finset.mem_Ico.mp member
  by_cases own : tid m = t
  · rw [if_pos own, same m lower upper own, sub_self]
  · exact if_neg own

theorem added_rest (rests : ∀ m, i ≤ m → m < j → tid m ≠ t) : added quantity st tid t i j = 0 :=
  added_same fun m lower upper own => absurd own (rests m lower upper)

theorem added_once {m : Nat} (lower : i ≤ m) (upper : m < j) (own : tid m = t)
    (once : ∀ k, i ≤ k → k < j → k ≠ m → tid k ≠ t) :
    added quantity st tid t i j = quantity (st (m + 1)) - quantity (st m) := by
  have single := Finset.sum_eq_single_of_mem m (Finset.mem_Ico.mpr ⟨lower, upper⟩)
    (f := fun m => if tid m = t then quantity (st (m + 1)) - quantity (st m) else 0)
    fun k member other => if_neg (once k (Finset.mem_Ico.mp member).1 (Finset.mem_Ico.mp member).2
      other)
  exact single.trans (if_pos own)

/-! ### Programs -/

structure Adds (quantity : M.St → A) (t : Nat) (program : Prog M.Act α) (amount : α → A) : Prop
    where
  adds : ∀ {st : Nat → M.St} {tid : Nat → Nat} {i j : Nat} {value : α},
    Does st tid t i program j value → added quantity st tid t i j = amount value

namespace Adds

theorem ret {value : α} {amount : α → A} (none : amount value = 0) :
    Adds (M := M) quantity t (.ret value) amount := by
  constructor
  intro st tid i j answer does
  obtain ⟨rfl, rests⟩ := Does.ret_inv does
  rw [added_rest rests, none]

theorem bind {program : Prog M.Act α} {f : α → Prog M.Act β} {amount : α → A} {total : β → A}
    (first : Adds quantity t program amount)
    (second : ∀ mid, Adds quantity t (f mid) fun value => total value - amount mid) :
    Adds quantity t (program.bind f) total := by
  constructor
  intro st tid i j value does
  obtain ⟨m, mid, before, after⟩ := Does.bind_inv does
  rw [← added_trans before.le after.le, first.adds before, (second mid).adds after, add_sub_cancel]

theorem perform {action : M.Act ρ} {amount : ρ → A}
    (acts : ∀ {s s' : M.St} {result : ρ}, M.exec t action s = some (result, s') →
      quantity s' = quantity s + amount result) :
    Adds quantity t (Prog.perform action) amount := by
  constructor
  intro st tid i j value does
  obtain ⟨m, lower, upper, own, once, ran⟩ := Does.perform_inv does
  rw [added_once lower upper own once, acts ran, add_sub_cancel_left]

theorem keeps {condition : (ρ : Type) → M.Act ρ → Prop}
    (acts : ∀ {ρ : Type} {action : M.Act ρ} {s s' : M.St} {result : ρ}, condition ρ action →
      M.exec t action s = some (result, s') → quantity s' = quantity s)
    {program : Prog M.Act α} (work : program.Performs condition) :
    Adds quantity t program fun _ => 0 := by
  constructor
  intro st tid i j value does
  exact added_same (Does.keeps (fun s s' => quantity s' = quantity s) (fun _ => rfl)
    (fun kind ran => acts kind ran) does work)

theorem after {program : Prog M.Act α} {f : α → Prog M.Act β} {total : β → A}
    (first : Adds quantity t program fun _ => 0) (second : ∀ mid, Adds quantity t (f mid) total) :
    Adds quantity t (program.bind f) total := by
  refine bind first fun mid => ?_
  constructor
  intro st tid i j value does
  rw [sub_zero]
  exact (second mid).adds does

end Adds

/-! ### Runs -/

namespace Run

def returned (R : S.Run) (effect : S.Call → S.Res → A) (j : Nat) : A :=
  match (R.cfg j).thread (R.tid j) with
  | .busy call (.ret outcome) => effect call outcome.1
  | _ => 0

variable {R : S.Run} {effect : S.Call → S.Res → A} {s : M.St} {kept : S.Loc}

theorem returned_running (bound : j < R.len) {call : S.Call}
    (next : ∃ program, (R.cfg (j + 1)).thread (R.tid j) = .busy call program) :
    R.returned effect j = 0 := by
  obtain ⟨program, busy⟩ := next
  unfold returned
  split
  · rename_i call' outcome now
    have step := R.step j bound
    generalize R.ev j = event at step
    generalize R.cfg (j + 1) = after at step busy
    cases step with
    | start other idle promised =>
        rw [now] at idle
        cases idle
    | act busy' ran =>
        rw [now] at busy'
        cases busy'
    | unroll busy' =>
        rw [now] at busy'
        cases busy'
    | finish busy' =>
        simp only [Config.set, Function.update_self] at busy
        cases busy
  · rfl

theorem call_ended (starts : R.StartsIn s kept) {m : Nat} (bound : m < R.len) (own : R.tid m = t)
    {after : S.Loc} (idle : (R.cfg (m + 1)).thread t = .idle after) :
    ∃ call before i result kept', R.Returned t call before i m result kept' := by
  have step := R.step m bound
  rw [own] at step
  obtain ⟨call, result, kept', busy⟩ : ∃ call result kept',
      (R.cfg m).thread t = .busy call (.ret (result, kept')) := by
    generalize R.ev m = event at step
    generalize R.cfg (m + 1) = later at step idle
    cases step with
    | start call idle' promised =>
        simp only [Config.set, Function.update_self] at idle
        cases idle
    | act busy ran =>
        simp only [Function.update_self] at idle
        cases idle
    | unroll busy =>
        simp only [Config.set, Function.update_self] at idle
        cases idle
    | finish busy => exact ⟨_, _, _, busy⟩
  obtain ⟨i, before, lower, idleI, running, inside⟩ :=
    R.call_started starts m (Nat.le_of_lt bound) _ busy
  exact ⟨call, before, i, result, kept', idleI, running, inside, lower, bound, busy, own⟩

variable {call : S.Call} {before after : S.Loc} {result : S.Res}

theorem Returned.added (returned : R.Returned t call before i j result after)
    (code : Adds quantity t (S.code t call before) fun outcome => effect call outcome.1) :
    added quantity R.st R.tid t i (j + 1) = effect call result := by
  have bound := returned.bound
  have order := returned.before
  have starting : ThreadSystem.added quantity R.st R.tid t i (i + 1) = 0 := by
    refine added_same fun k lower upper own => ?_
    obtain rfl : k = i := by omega
    rw [R.rest_same (by omega) fun call ρ action next acting => ?_]
    rw [own, returned.started] at acting
    cases acting
  have finishing : ThreadSystem.added quantity R.st R.tid t j (j + 1) = 0 := by
    refine added_same fun k lower upper own => ?_
    obtain rfl : k = j := by omega
    rw [R.rest_same bound fun call ρ action next acting => ?_]
    rw [own, returned.returns] at acting
    cases acting
  rw [← added_trans (by omega : i ≤ i + 1) (by omega : i + 1 ≤ j + 1),
    ← added_trans (by omega : i + 1 ≤ j) (Nat.le_succ j), starting, finishing,
    code.adds returned.does, zero_add, add_zero]

theorem Returned.returned_once (returned : R.Returned t call before i j result after) :
    (∑ k ∈ Finset.Ico i (j + 1), if R.tid k = t then R.returned effect k else 0) =
      effect call result := by
  have bound := returned.bound
  have silent : (∑ k ∈ Finset.Ico i j, if R.tid k = t then R.returned effect k else 0) = 0 := by
    refine Finset.sum_eq_zero fun k member => ?_
    obtain ⟨lower, upper⟩ := Finset.mem_Ico.mp member
    by_cases own : R.tid k = t
    · obtain ⟨program, next⟩ := returned.inside (k + 1) (by omega) (by omega)
      rw [if_pos own]
      exact returned_running (by omega) ⟨program, by rw [own]; exact next⟩
    · exact if_neg own
  rw [Finset.sum_Ico_succ_top (Nat.le_of_lt returned.before), silent, if_pos returned.finished,
    zero_add]
  unfold Run.returned
  rw [returned.finished, returned.returns]

theorem added_calls (starts : R.StartsIn s kept)
    (codes : ∀ t call kept,
      Adds quantity t (S.code t call kept) fun outcome => effect call outcome.1) (t : Nat) :
    ∀ m, m ≤ R.len → ∀ before, (R.cfg m).thread t = .idle before →
      added quantity R.st R.tid t 0 m =
        ∑ j ∈ Finset.Ico 0 m, if R.tid j = t then R.returned effect j else 0 := by
  intro m
  induction m using Nat.strongRecOn with
  | ind m ih =>
    cases m with
    | zero => exact fun _ _ _ => rfl
    | succ m =>
        intro bound before idle
        by_cases own : R.tid m = t
        · obtain ⟨call, begun, i, result, kept', returned⟩ := call_ended starts bound own idle
          have order := returned.before
          rw [← added_trans (Nat.zero_le i) (by omega : i ≤ m + 1), returned.added (codes t call begun),
            ih i (by omega) (by omega) begun returned.started,
            ← Finset.sum_Ico_consecutive _ (Nat.zero_le i) (by omega : i ≤ m + 1),
            returned.returned_once]
        · have same : (R.cfg m).thread t = .idle before :=
            ((R.step m bound).others (Ne.symm own)).symm.trans idle
          have rest : added quantity R.st R.tid t m (m + 1) = 0 := by
            refine added_rest fun k lower upper => ?_
            obtain rfl : k = m := by omega
            exact own
          rw [← added_trans (Nat.zero_le m) (Nat.le_succ m), rest,
            ih m (Nat.lt_succ_self m) (Nat.le_of_lt bound) before same,
            Finset.sum_Ico_succ_top (Nat.zero_le m), if_neg own]

/-- When no call is under way the quantity has changed by what the calls have returned. -/
theorem total (starts : R.StartsIn s kept)
    (codes : ∀ t call kept,
      Adds quantity t (S.code t call kept) fun outcome => effect call outcome.1)
    {m : Nat} (bound : m ≤ R.len) (resting : ∀ t, ∃ before, (R.cfg m).thread t = .idle before) :
    quantity (R.st m) = quantity s + ∑ j ∈ Finset.range m, R.returned effect j := by
  -- every step is a step of one of these threads
  let threads := (Finset.range m).image R.tid
  have spread : ∀ amount : Nat → A, (∑ t ∈ threads, ∑ j ∈ Finset.range m,
      if R.tid j = t then amount j else 0) = ∑ j ∈ Finset.range m, amount j := by
    intro amount
    rw [Finset.sum_comm]
    refine Finset.sum_congr rfl fun j member => ?_
    rw [Finset.sum_ite_eq, if_pos (Finset.mem_image_of_mem R.tid member)]
  have steps : (∑ j ∈ Finset.range m, (quantity (R.st (j + 1)) - quantity (R.st j))) =
      ∑ j ∈ Finset.range m, R.returned effect j := by
    rw [← spread, ← spread]
    refine Finset.sum_congr rfl fun t _ => ?_
    obtain ⟨before, idle⟩ := resting t
    rw [Finset.range_eq_Ico]
    exact added_calls starts codes t m bound before idle
  have start : R.st 0 = s := congrArg Config.st starts
  rw [← steps, Finset.sum_range_sub (fun j => quantity (R.st j)), start, add_sub_cancel]

end Run

end ThreadSystem
