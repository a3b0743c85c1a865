/-
The auto-increment counter of a share (fm_core.h, fm_data.cc).

The counter holds the last value handed out. Three loops race on it with
compare-exchange, which may fail although the counter holds the expected
value: a reservation takes the next values of its own stride, the other two
raise the counter to a given value. Arithmetic is that of fm_u64, so it wraps.
-/

import Fastmem.InterleavedSystem
import Mathlib.Order.Bounds.Basic
import Mathlib.Tactic.IntervalCases

set_option autoImplicit false

namespace Fastmem

open Prog (perform iterate Performs)
open ThreadSystem

/-! ### The counter -/

/-- The counter, and which compare-exchanges to come fail for no reason. -/
structure AutoInc where
  value : UInt64
  whim : Nat → Bool
  tried : Nat

inductive AutoAct : Type → Type
  | load : AutoAct UInt64
  | compareExchangeWeak (expected desired : UInt64) : AutoAct (Bool × UInt64)

/-- A failed compare-exchange returns the value it found. -/
def AutoAct.exec {ρ : Type} : AutoAct ρ → AutoInc → Option (ρ × AutoInc)
  | .load, s => some (s.value, s)
  | .compareExchangeWeak expected desired, s =>
      if s.value = expected ∧ s.whim s.tried = false then
        some ((true, expected), { s with value := desired, tried := s.tried + 1 })
      else
        some ((false, s.value), { s with tried := s.tried + 1 })

abbrev autoIncMachine : Machine where
  Act := AutoAct
  St := AutoInc
  exec _ := AutoAct.exec

abbrev AutoProg (α : Type) := Prog AutoAct α

/-! ### fm_core_auto_inc_reserve -/

/-- `(x > offset) ? (x - offset) : 0`. -/
def distance (x offset : UInt64) : UInt64 := if x > offset then x - offset else 0

/-- `offset + ((r + inc - 1) / inc) * inc`. -/
def stride (offset inc r : UInt64) : UInt64 := offset + ((r + inc - 1) / inc) * inc

/-- The smallest value from `v` on that is `offset` modulo `inc`; `none` is the return of 0
for an overflow. -/
def roundUp (cur v offset inc : UInt64) : Option UInt64 :=
  let v2 := stride offset inc (distance v offset)
  if v2 < v then
    none                                        -- wrap around
  else if v2 ≤ cur then
    let v := cur + inc
    if v ≤ cur then
      none
    else
      let v3 := stride offset inc (distance v offset)
      if v3 < v ∨ v3 = 0 then none else some v3
  else
    some v2

/-- The first value and the last one of an interval above `cur`. -/
def interval (cur offset inc nb : UInt64) : Option (UInt64 × UInt64) :=
  let v := cur + 1
  if v = 0 then
    none
  else
    match (if inc > 1 then roundUp cur v offset inc else some v) with
    | none => none
    | some v =>
        let last := v + (nb - 1) * inc
        if last < v then none else some (v, last)

def orOne (x : UInt64) : UInt64 := if x = 0 then 1 else x

def reserveRound (offset inc nb : UInt64) : AutoProg (Unit ⊕ UInt64) := do
  let cur ← perform .load
  match interval cur offset inc nb with
  | none => return .inr 0
  | some (v, last) =>
      let (swapped, _) ← perform (.compareExchangeWeak cur last)
      if swapped then return .inr v else return .inl ()

/-- The first value, or 0. `*reserved` is the number of values asked for, set unless the
return is 0. -/
def fmCoreAutoIncReserve (offset inc nb : UInt64) : AutoProg UInt64 :=
  iterate () fun _ => reserveRound (orOne offset) (orOne inc) (orOne nb)

/-! ### fm_core_auto_inc_observe, fm_set_auto_increment -/

/-- `while (value > cur && !compare_exchange_weak(cur, value))`. -/
def raiseRound (value cur : UInt64) : AutoProg (UInt64 ⊕ Unit) :=
  if value > cur then do
    let (swapped, found) ← perform (.compareExchangeWeak cur value)
    if swapped then return .inr () else return .inl found
  else
    return .inr ()

def fmCoreAutoIncObserve (value : UInt64) : AutoProg Unit := do
  let cur ← perform .load
  iterate cur (raiseRound value)

/-- `value` is the next value to use. -/
def fmSetAutoIncrement (value : UInt64) : AutoProg Unit := do
  let next := if value ≠ 0 then value - 1 else 0
  let cur ← perform .load
  iterate cur (raiseRound next)

inductive AutoCall
  | reserve (offset inc nb : UInt64)
  | observe (value : UInt64)
  | setAutoIncrement (value : UInt64)

/-- The result of the calls that return nothing is 0. -/
def AutoCall.program : AutoCall → AutoProg UInt64
  | .reserve offset inc nb => fmCoreAutoIncReserve offset inc nb
  | .observe value => do fmCoreAutoIncObserve value; return 0
  | .setAutoIncrement value => do fmSetAutoIncrement value; return 0

def autoClients : ThreadSystem autoIncMachine where
  Call := AutoCall
  Res := UInt64
  Loc := Unit
  code _ call _ := do return (← call.program, ())
  allowed _ _ _ _ := true

/-! ### Rounding -/

theorem toNat_succ {cur : UInt64} (next : cur + 1 ≠ 0) : (cur + 1).toNat = cur.toNat + 1 := by
  have small := cur.toNat_lt
  have notTop : cur.toNat + 1 ≠ 2 ^ 64 := by
    intro top
    apply next
    apply UInt64.toNat_inj.mp
    rw [UInt64.toNat_add]
    simp only [UInt64.reduceToNat]
    omega
  rw [UInt64.toNat_add]
  simp only [UInt64.reduceToNat]
  omega

theorem distance_toNat (x offset : UInt64) :
    (distance x offset).toNat = x.toNat - offset.toNat := by
  unfold distance
  split
  · rename_i above
    exact UInt64.toNat_sub_of_le _ _ (UInt64.le_of_lt above)
  · rename_i below
    have le : x.toNat ≤ offset.toNat := UInt64.not_lt.mp below
    rw [Nat.sub_eq_zero_of_le le]
    rfl

def admissible (offset inc cur : Nat) : Set Nat := { x | (∃ k, x = offset + k * inc) ∧ cur < x }

theorem roundUp_exact {offset inc cur : Nat} (positive : 0 < inc) :
    IsLeast (admissible offset inc cur)
      (offset + ((cur + 1 - offset + inc - 1) / inc) * inc) := by
  have whole := Nat.div_add_mod (cur + 1 - offset + inc - 1) inc
  have rest := Nat.mod_lt (cur + 1 - offset + inc - 1) positive
  rw [Nat.mul_comm] at whole
  refine ⟨⟨⟨_, rfl⟩, by omega⟩, ?_⟩
  rintro x ⟨⟨k, rfl⟩, above⟩
  have steps : (cur + 1 - offset + inc - 1) / inc ≤ k := by
    rw [← Nat.lt_succ_iff, Nat.div_lt_iff_lt_mul positive, Nat.succ_mul]
    omega
  exact Nat.add_le_add_left (Nat.mul_le_mul_right inc steps) offset

theorem stride_toNat (offset inc r : UInt64) (small : r.toNat + inc.toNat - 1 < 2 ^ 64)
    (positive : 0 < inc.toNat) :
    (stride offset inc r).toNat =
      (offset.toNat + ((r.toNat + inc.toNat - 1) / inc.toNat) * inc.toNat) % 2 ^ 64 := by
  have below := Nat.div_mul_le_self (r.toNat + inc.toNat - 1) inc.toNat
  have summed : (r + inc - 1).toNat = r.toNat + inc.toNat - 1 := by
    rw [UInt64.toNat_sub, UInt64.toNat_add]
    simp only [UInt64.reduceToNat]
    omega
  unfold stride
  rw [UInt64.toNat_add, UInt64.toNat_mul, UInt64.toNat_div, summed, Nat.mod_eq_of_lt
    (Nat.lt_of_le_of_lt below small)]

/-- A sum that wraps is less than one stride, so the offset itself comes out. -/
theorem stride_wrapped {cur offset inc : UInt64} (next : cur + 1 ≠ 0)
    (large : 2 ^ 64 ≤ cur.toNat + 1 - offset.toNat + inc.toNat - 1) :
    stride offset inc (distance (cur + 1) offset) = offset := by
  have far : (distance (cur + 1) offset).toNat = cur.toNat + 1 - offset.toNat := by
    rw [distance_toNat, toNat_succ next]
  have distanceSmall := (distance (cur + 1) offset).toNat_lt
  have incSmall := inc.toNat_lt
  have summed : (distance (cur + 1) offset + inc - 1).toNat =
      (distance (cur + 1) offset).toNat + inc.toNat - 1 - 2 ^ 64 := by
    rw [UInt64.toNat_sub, UInt64.toNat_add]
    simp only [UInt64.reduceToNat]
    omega
  have noStep : (distance (cur + 1) offset + inc - 1) / inc = 0 := by
    apply UInt64.toNat_inj.mp
    rw [UInt64.toNat_div, summed]
    exact Nat.div_eq_of_lt (by omega)
  unfold stride
  rw [noStep, UInt64.zero_mul, UInt64.add_zero]

theorem roundUp_least {cur offset inc w : UInt64} (many : inc > 1) (next : cur + 1 ≠ 0)
    (rounded : roundUp cur (cur + 1) offset inc = some w) :
    IsLeast (admissible offset.toNat inc.toNat cur.toNat) w.toNat := by
  have positive : 1 < inc.toNat := many
  have incSmall := inc.toNat_lt
  have curSmall := cur.toNat_lt
  have offsetSmall := offset.toNat_lt
  have succ := toNat_succ next
  have far : (distance (cur + 1) offset).toNat = cur.toNat + 1 - offset.toNat := by
    rw [distance_toNat, succ]
  unfold roundUp at rounded
  dsimp only at rounded
  by_cases wrapped : stride offset inc (distance (cur + 1) offset) < cur + 1
  · rw [if_pos wrapped] at rounded
    cases rounded
  · rw [if_neg wrapped] at rounded
    have reached : cur.toNat + 1 ≤ (stride offset inc (distance (cur + 1) offset)).toNat := by
      rw [← succ]
      exact UInt64.not_lt.mp wrapped
    have above : ¬ stride offset inc (distance (cur + 1) offset) ≤ cur := by
      intro below
      have nat : (stride offset inc (distance (cur + 1) offset)).toNat ≤ cur.toNat := below
      omega
    rw [if_neg above] at rounded
    cases rounded
    have exactly : IsLeast (admissible offset.toNat inc.toNat cur.toNat) _ :=
      roundUp_exact (Nat.lt_of_succ_lt positive)
    by_cases small : (distance (cur + 1) offset).toNat + inc.toNat - 1 < 2 ^ 64
    · rw [stride_toNat _ _ _ small (Nat.lt_of_succ_lt positive), far] at reached ⊢
      have total := Nat.div_mul_le_self (cur.toNat + 1 - offset.toNat + inc.toNat - 1) inc.toNat
      have fits : offset.toNat + (cur.toNat + 1 - offset.toNat + inc.toNat - 1) / inc.toNat *
          inc.toNat < 2 ^ 64 := by
        by_contra overflows
        by_cases ahead : cur.toNat + 1 ≤ offset.toNat
        · have none : (cur.toNat + 1 - offset.toNat + inc.toNat - 1) / inc.toNat = 0 := by
            rw [Nat.div_eq_zero_iff]
            omega
          rw [none] at overflows
          omega
        · omega
      rw [Nat.mod_eq_of_lt fits]
      exact exactly
    · have start := stride_wrapped next (by rw [far] at small; exact Nat.le_of_not_lt small)
      rw [start] at reached
      omega

def firstAbove (offset inc cur v : UInt64) : Prop :=
  if inc > 1 then IsLeast (admissible offset.toNat inc.toNat cur.toNat) v.toNat
  else v.toNat = cur.toNat + 1

theorem interval_spec {cur offset inc nb v last : UInt64}
    (found : interval cur offset inc nb = some (v, last)) :
    firstAbove offset inc cur v ∧ v ≤ last ∧ last = v + (nb - 1) * inc := by
  unfold interval at found
  dsimp only at found
  by_cases top : cur + 1 = 0
  · rw [if_pos top] at found
    cases found
  · rw [if_neg top] at found
    have first : ∀ w, (if inc > 1 then roundUp cur (cur + 1) offset inc else some (cur + 1)) =
        some w → firstAbove offset inc cur w := by
      intro w taken
      unfold firstAbove
      by_cases many : inc > 1
      · rw [if_pos many] at taken ⊢
        exact roundUp_least many top taken
      · rw [if_neg many] at taken ⊢
        cases taken
        exact toNat_succ top
    cases taken : (if inc > 1 then roundUp cur (cur + 1) offset inc else some (cur + 1)) with
    | none =>
        rw [taken] at found
        cases found
    | some w =>
        rw [taken] at found
        dsimp only at found
        by_cases overflows : w + (nb - 1) * inc < w
        · rw [if_pos overflows] at found
          cases found
        · rw [if_neg overflows] at found
          cases found
          exact ⟨first v taken, UInt64.not_lt.mp overflows, rfl⟩

theorem firstAbove_lt {offset inc cur v : UInt64} (first : firstAbove offset inc cur v) :
    cur.toNat < v.toNat := by
  unfold firstAbove at first
  split at first
  · exact first.1.2
  · omega

theorem last_toNat {inc nb v : UInt64} (nonzero : nb ≠ 0)
    (fits : v.toNat + (nb.toNat - 1) * inc.toNat < 2 ^ 64) :
    (v + (nb - 1) * inc).toNat = v.toNat + (nb.toNat - 1) * inc.toNat := by
  have positive : 1 ≤ nb.toNat := by
    rcases Nat.eq_zero_or_pos nb.toNat with zero | positive
    · exact absurd (UInt64.toNat_inj.mp zero) nonzero
    · exact positive
  have pred : (nb - 1).toNat = nb.toNat - 1 := by
    have small := nb.toNat_lt
    rw [UInt64.toNat_sub]
    simp only [UInt64.reduceToNat]
    omega
  have product : (nb.toNat - 1) * inc.toNat < 2 ^ 64 := by omega
  rw [UInt64.toNat_add, UInt64.toNat_mul, pred, Nat.mod_eq_of_lt product, Nat.mod_eq_of_lt fits]

/-! ### The loops -/

def AutoAct.rises (ρ : Type) : AutoAct ρ → Prop
  | .load => True
  | .compareExchangeWeak expected desired => expected ≤ desired

theorem reserve_rises (offset inc nb : UInt64) :
    (fmCoreAutoIncReserve offset inc nb).Performs AutoAct.rises := by
  refine .iterate fun _ => .step trivial fun cur => ?_
  cases found : interval cur (orOne offset) (orOne inc) (orOne nb) with
  | none => exact .ret _
  | some pair =>
      obtain ⟨v, last⟩ := pair
      obtain ⟨first, ordered, _⟩ := interval_spec found
      have rises : cur ≤ last := by
        have below := firstAbove_lt first
        exact UInt64.le_trans (UInt64.le_of_lt below) ordered
      refine .step rises fun outcome => ?_
      obtain ⟨swapped, _⟩ := outcome
      cases swapped with
      | true => exact .ret _
      | false => exact .ret _

theorem raise_rises (value cur : UInt64) :
    (iterate cur (raiseRound value)).Performs AutoAct.rises := by
  refine .iterate fun cur => ?_
  unfold raiseRound
  split
  · rename_i above
    refine .step (UInt64.le_of_lt above) fun outcome => ?_
    obtain ⟨swapped, _⟩ := outcome
    cases swapped with
    | true => exact .ret _
    | false => exact .ret _
  · exact .ret _

theorem autoClients_rise (t : Nat) (call : AutoCall) (kept : Unit) :
    (autoClients.code t call kept).Performs AutoAct.rises := by
  refine Performs.bind ?_ fun _ => .ret _
  cases call with
  | reserve offset inc nb => exact reserve_rises offset inc nb
  | observe value =>
      exact Performs.bind (.step trivial fun cur => raise_rises value cur) fun _ => .ret _
  | setAutoIncrement value =>
      exact Performs.bind (.step trivial fun cur => raise_rises _ cur) fun _ => .ret _

/-! ### Runs -/

section Runs

variable {R : autoClients.Run} {s : AutoInc}

theorem counter_step (starts : R.StartsIn s ()) {i : Nat} (bound : i < R.len) :
    (R.st i).value ≤ (R.st (i + 1)).value := by
  have performed : ∀ {ρ : Type} {action : AutoAct ρ} {result : ρ},
      R.ev i = .act action result → AutoAct.rises ρ action := by
    intro ρ action result event
    obtain ⟨_, _, _, rises⟩ := R.performs starts autoClients_rise bound event
    exact rises
  have step := R.step i bound
  unfold Run.st
  generalize R.ev i = event at step performed
  generalize R.cfg (i + 1) = after at step
  cases step with
  | start call idle promised => exact UInt64.le_refl _
  | @act _ _ action _ result after busy ran =>
      have rises := performed rfl
      cases action with
      | load =>
          cases ran
          exact UInt64.le_refl _
      | compareExchangeWeak expected desired =>
          change AutoAct.exec (.compareExchangeWeak expected desired) (R.cfg i).st = _ at ran
          by_cases same : (R.cfg i).st.value = expected ∧
              (R.cfg i).st.whim (R.cfg i).st.tried = false
          · simp only [AutoAct.exec, if_pos same, Option.some.injEq, Prod.mk.injEq] at ran
            rw [same.1, ← ran.2]
            exact rises
          · simp only [AutoAct.exec, if_neg same, Option.some.injEq, Prod.mk.injEq] at ran
            rw [← ran.2]
            exact UInt64.le_refl _
  | unroll busy => exact UInt64.le_refl _
  | finish busy => exact UInt64.le_refl _

theorem counter_monotone (starts : R.StartsIn s ()) {i j : Nat} (order : i ≤ j)
    (bound : j ≤ R.len) : (R.st i).value ≤ (R.st j).value := by
  induction order with
  | refl => exact UInt64.le_refl _
  | @step j order ih =>
      exact UInt64.le_trans (ih (Nat.le_of_succ_le bound)) (counter_step starts bound)

/-- Step `m` is the compare-exchange of thread `t` that takes the values from `v` on. -/
structure Commits (R : autoClients.Run) (t : Nat) (offset inc nb v : UInt64) (m : Nat) : Prop where
  own : R.tid m = t
  first : firstAbove (orOne offset) (orOne inc) (R.st m).value v
  last : (R.st (m + 1)).value = v + (orOne nb - 1) * orOne inc

theorem reserve_commits {t : Nat} {offset inc nb v : UInt64} {i j : Nat}
    (returned : R.Returned t (.reserve offset inc nb) () i j v ()) (success : v ≠ 0) :
    ∃ m, i < m ∧ m < j ∧ Commits R t offset inc nb v m := by
  obtain ⟨done, r, looped, ended⟩ := Does.bind_inv returned.does
  obtain ⟨same, _⟩ := Does.ret_inv ended
  cases same
  have doneLe := ended.le
  obtain ⟨a, b, _, lower, upper, _, round, _⟩ := Does.iterate_inv (fun _ _ => True)
    (fun _ _ _ _ _ => trivial) (fun _ _ _ _ _ _ _ _ => trivial) trivial looped
  obtain ⟨a', cur, aboveA, _, _, _, loaded, rest⟩ := Does.act_inv round
  cases found : interval cur (orOne offset) (orOne inc) (orOne nb) with
  | none =>
      rw [Prog.ret_bind, found] at rest
      obtain ⟨zero, _⟩ := Does.ret_inv rest
      cases zero
      exact absurd rfl success
  | some pair =>
      obtain ⟨w, last⟩ := pair
      rw [Prog.ret_bind, found] at rest
      obtain ⟨m, outcome, aboveM, belowM, _, own, swap, tail⟩ := Does.act_inv rest
      obtain ⟨swapped, value⟩ := outcome
      change AutoAct.exec (.compareExchangeWeak cur last) (R.st m) = _ at swap
      rw [Prog.ret_bind] at tail
      have tailLe := tail.le
      by_cases same : (R.st m).value = cur ∧ (R.st m).whim (R.st m).tried = false
      · simp only [AutoAct.exec, if_pos same, Option.some.injEq, Prod.mk.injEq] at swap
        obtain ⟨⟨rfl, rfl⟩, after⟩ := swap
        obtain ⟨taken, _⟩ := Does.ret_inv tail
        cases taken
        obtain ⟨first, _, lastEq⟩ := interval_spec found
        refine ⟨m, by omega, by omega, own, ?_, ?_⟩
        · rw [same.1]
          exact first
        · rw [← after, ← lastEq]
      · simp only [AutoAct.exec, if_neg same, Option.some.injEq, Prod.mk.injEq] at swap
        obtain ⟨⟨rfl, rfl⟩, _⟩ := swap
        obtain ⟨again, _⟩ := Does.ret_inv tail
        cases again

end Runs

theorem orOne_ne_zero (x : UInt64) : orOne x ≠ 0 := by
  unfold orOne
  split
  · decide
  · assumption

/-- Of two commits the later one takes values above all of the earlier one's. -/
theorem commits_apart {R : autoClients.Run} {s : AutoInc} (starts : R.StartsIn s ())
    {t t' : Nat} {offset inc nb v offset' inc' nb' v' : UInt64} {m m' : Nat}
    (first : Commits R t offset inc nb v m) (second : Commits R t' offset' inc' nb' v' m')
    (order : m < m') (bound : m' ≤ R.len)
    (fits : v.toNat + ((orOne nb).toNat - 1) * (orOne inc).toNat < 2 ^ 64) {a b : Nat}
    (inside : a < (orOne nb).toNat) :
    v.toNat + a * (orOne inc).toNat ≠ v'.toNat + b * (orOne inc').toNat := by
  have reached : (R.st (m + 1)).value.toNat ≤ (R.st m').value.toNat :=
    counter_monotone starts order bound
  have above := firstAbove_lt second.first
  rw [first.last, last_toNat (orOne_ne_zero nb) fits] at reached
  have within : a * (orOne inc).toNat ≤ ((orOne nb).toNat - 1) * (orOne inc).toNat :=
    Nat.mul_le_mul_right _ (by omega)
  omega

/-- The counter never decreases; a successful reservation takes the next values of its stride
above the counter value it replaces; and two reservations whose intervals end below 2^64
share no value. -/
theorem reservations_disjoint (R : autoClients.Run) (s : AutoInc) (starts : R.StartsIn s ()) :
    (∀ i j, i ≤ j → j ≤ R.len → (R.st i).value ≤ (R.st j).value) ∧
    (∀ t offset inc nb i j (v : UInt64), R.Returned t (.reserve offset inc nb) () i j v () → v ≠ 0 →
      ∃ m, i < m ∧ m < j ∧ Commits R t offset inc nb v m) ∧
    ∀ t offset inc nb i j (v : UInt64) t' offset' inc' nb' i' j' (v' : UInt64),
      R.Returned t (.reserve offset inc nb) () i j v () → v ≠ 0 →
      R.Returned t' (.reserve offset' inc' nb') () i' j' v' () → v' ≠ 0 →
      (t, i) ≠ (t', i') →
      v.toNat + ((orOne nb).toNat - 1) * (orOne inc).toNat < 2 ^ 64 →
      v'.toNat + ((orOne nb').toNat - 1) * (orOne inc').toNat < 2 ^ 64 →
      ∀ a b, a < (orOne nb).toNat → b < (orOne nb').toNat →
        v.toNat + a * (orOne inc).toNat ≠ v'.toNat + b * (orOne inc').toNat := by
  refine ⟨fun i j order bound => counter_monotone starts order bound,
    fun t offset inc nb i j v returned success => reserve_commits returned success, ?_⟩
  intro t offset inc nb i j v t' offset' inc' nb' i' j' v' first success second success' apart
    fits fits' a b inside inside'
  obtain ⟨m, lower, upper, commits⟩ := reserve_commits first success
  obtain ⟨m', lower', upper', commits'⟩ := reserve_commits second success'
  have bound := first.bound
  have bound' := second.bound
  rcases Nat.lt_trichotomy m m' with earlier | same | later
  · exact commits_apart starts commits commits' earlier (by omega) fits inside
  · subst same
    have sameThread : t = t' := commits.own.symm.trans commits'.own
    subst sameThread
    have sameStart := first.start_unique second lower (by omega) lower' (by omega)
    rw [sameStart] at apart
    exact absurd rfl apart
  · exact (commits_apart starts commits' commits later (by omega) fits' inside').symm

def twoReservations : List (Nat × Option AutoCall) :=
  [(0, some (.reserve 1 2 3)), (0, none), (0, none), (1, some (.reserve 2 3 2)), (0, none),
    (0, none), (1, none), (1, none), (1, none), (1, none)]

theorem twoReservations_played : (play (S := autoClients) ⟨⟨0, fun _ => false, 0⟩,
    fun _ => .idle ()⟩ twoReservations).isSome = true := by
  decide +kernel

def twoReservationsRun : autoClients.Run :=
  Run.ofSchedule ⟨⟨0, fun _ => false, 0⟩, fun _ => .idle ()⟩ twoReservations
    twoReservations_played

theorem twoReservations_first :
    twoReservationsRun.Returned 0 (.reserve 1 2 3) () 0 5 (1 : UInt64) () where
  started := rfl
  running := rfl
  inside m lower upper := by
    interval_cases m <;> exact ⟨_, rfl⟩
  before := by decide
  bound := by decide
  returns := rfl
  finished := rfl

theorem twoReservations_second :
    twoReservationsRun.Returned 1 (.reserve 2 3 2) () 3 9 (8 : UInt64) () where
  started := rfl
  running := rfl
  inside m lower upper := by
    interval_cases m <;> exact ⟨_, rfl⟩
  before := by decide
  bound := by decide
  returns := rfl
  finished := rfl

theorem reservations_disjoint_twoReservations :
    (twoReservationsRun.st 0).value = 0 ∧ (twoReservationsRun.st 10).value = 11 ∧
      (∀ i j, i ≤ j → j ≤ 10 →
        (twoReservationsRun.st i).value ≤ (twoReservationsRun.st j).value) ∧
      ∀ a b, a < 3 → b < 2 → 1 + a * 2 ≠ 8 + b * 3 := by
  obtain ⟨rises, _, disjoint⟩ := reservations_disjoint twoReservationsRun _ rfl
  exact ⟨rfl, by decide +kernel, rises, disjoint _ _ _ _ _ _ _ _ _ _ _ _ _ _
    twoReservations_first (by decide) twoReservations_second (by decide) (by decide) (by decide)
    (by decide)⟩

end Fastmem
