/-
When a reservation of auto-increment values is exact.

The interval a reservation asks for is fixed by the counter, the offset, the
increment and the number of values, as natural numbers without a bound. The
code computes it in 64 bits and looks for overflows after the fact. Two of its
computations can wrap unseen: the sum of the rounding, which makes it refuse an
interval that fits, and the product for the last value, which makes it grant one
that does not.
-/

import Fastmem.AutoIncrement

set_option autoImplicit false

namespace Fastmem

open Prog (perform iterate)
open Machine

/-! ### The exact interval -/

def startsAbove (offset inc cur w : Nat) : Prop :=
  if 1 < inc then IsLeast (admissible offset inc cur) w else w = cur + 1

def exactStart (offset inc cur : Nat) : Nat :=
  if 1 < inc then offset + ((cur + 1 - offset + inc - 1) / inc) * inc else cur + 1

theorem startsAbove_iff {offset inc cur w : Nat} :
    startsAbove offset inc cur w ↔ w = exactStart offset inc cur := by
  unfold startsAbove exactStart
  split
  · rename_i many
    have least := @roundUp_exact offset inc cur (Nat.lt_of_succ_lt many)
    exact ⟨fun other => other.unique least, fun same => same ▸ least⟩
  · exact Iff.rfl

theorem exactStart_above (offset inc cur : Nat) : cur < exactStart offset inc cur := by
  have starts := startsAbove_iff.mpr (rfl : exactStart offset inc cur = _)
  unfold startsAbove at starts
  split at starts
  · exact starts.1.2
  · omega

/-- The sum `r + inc - 1` of the rounding does not fit 64 bits. -/
def roundingWraps (offset inc cur : Nat) : Prop :=
  1 < inc ∧ 2 ^ 64 ≤ cur + 1 - offset + inc - 1

instance (offset inc cur : Nat) : Decidable (roundingWraps offset inc cur) :=
  inferInstanceAs (Decidable (_ ∧ _))

def span (inc nb : Nat) : Nat := (nb - 1) * inc

/-! ### The interval in 64 bits -/

section Words

variable {cur offset inc nb : UInt64}

theorem roundUp_wrapped (next : cur + 1 ≠ 0)
    (wraps : roundingWraps offset.toNat inc.toNat cur.toNat) :
    roundUp cur (cur + 1) offset inc = none := by
  obtain ⟨many, large⟩ := wraps
  have succ := toNat_succ next
  have incSmall := inc.toNat_lt
  unfold roundUp
  dsimp only
  rw [stride_wrapped next large]
  apply if_pos
  apply UInt64.lt_iff_toNat_lt.mpr
  omega

theorem roundUp_fits (many : 1 < inc.toNat) (next : cur + 1 ≠ 0)
    (unwrapped : ¬ roundingWraps offset.toNat inc.toNat cur.toNat)
    (fits : exactStart offset.toNat inc.toNat cur.toNat < 2 ^ 64) :
    ∃ w, roundUp cur (cur + 1) offset inc = some w ∧
      w.toNat = exactStart offset.toNat inc.toNat cur.toNat := by
  have succ := toNat_succ next
  have far : (distance (cur + 1) offset).toNat = cur.toNat + 1 - offset.toNat := by
    rw [distance_toNat, succ]
  have small : (distance (cur + 1) offset).toNat + inc.toNat - 1 < 2 ^ 64 := by
    rw [far]
    by_contra large
    exact unwrapped ⟨many, Nat.le_of_not_lt large⟩
  have above := exactStart_above offset.toNat inc.toNat cur.toNat
  have rounded : (stride offset inc (distance (cur + 1) offset)).toNat =
      exactStart offset.toNat inc.toNat cur.toNat := by
    unfold exactStart at fits ⊢
    rw [if_pos many] at fits ⊢
    rw [stride_toNat _ _ _ small (Nat.lt_of_succ_lt many), far, Nat.mod_eq_of_lt fits]
  refine ⟨_, ?_, rounded⟩
  unfold roundUp
  dsimp only
  rw [if_neg, if_neg]
  · intro below
    have nat := UInt64.le_iff_toNat_le.mp below
    omega
  · intro below
    have nat := UInt64.lt_iff_toNat_lt.mp below
    omega

theorem first_eq (positive : inc ≠ 0) :
    (if cur + 1 = 0 then none
      else if inc > 1 then roundUp cur (cur + 1) offset inc else some (cur + 1)) =
      if roundingWraps offset.toNat inc.toNat cur.toNat ∨
          2 ^ 64 ≤ exactStart offset.toNat inc.toNat cur.toNat then none
      else some (UInt64.ofNat (exactStart offset.toNat inc.toNat cur.toNat)) := by
  have above := exactStart_above offset.toNat inc.toNat cur.toNat
  by_cases top : cur + 1 = 0
  · have atEnd : cur.toNat + 1 = 2 ^ 64 := by
      have nat := congrArg UInt64.toNat top
      have small := cur.toNat_lt
      rw [UInt64.toNat_add] at nat
      simp only [UInt64.reduceToNat] at nat
      omega
    rw [if_pos top, if_pos (Or.inr (by omega))]
  · rw [if_neg top]
    by_cases many : inc > 1
    · rw [if_pos many]
      have manyNat : 1 < inc.toNat := many
      by_cases wraps : roundingWraps offset.toNat inc.toNat cur.toNat
      · rw [if_pos (Or.inl wraps), roundUp_wrapped top wraps]
      · by_cases fits : exactStart offset.toNat inc.toNat cur.toNat < 2 ^ 64
        · obtain ⟨w, found, same⟩ := roundUp_fits manyNat top wraps fits
          rw [if_neg (not_or.mpr ⟨wraps, Nat.not_le.mpr fits⟩), found, ← same, UInt64.ofNat_toNat]
        · rw [if_pos (Or.inr (Nat.le_of_not_lt fits))]
          cases found : roundUp cur (cur + 1) offset inc with
          | none => rfl
          | some w =>
              have least := roundUp_least many top found
              have same : w.toNat = exactStart offset.toNat inc.toNat cur.toNat := by
                apply startsAbove_iff.mp
                unfold startsAbove
                rw [if_pos manyNat]
                exact least
              have small := w.toNat_lt
              omega
    · have one : inc.toNat = 1 := by
        have small : ¬ 1 < inc.toNat := many
        have nonzero : inc.toNat ≠ 0 := fun zero => positive (UInt64.toNat_inj.mp zero)
        omega
      have start : exactStart offset.toNat inc.toNat cur.toNat = cur.toNat + 1 :=
        if_neg (by omega)
      have succ := toNat_succ top
      have small := (cur + 1).toNat_lt
      rw [if_neg many, if_neg, start, ← succ, UInt64.ofNat_toNat]
      rintro (⟨several, _⟩ | large)
      · omega
      · omega

/-- The interval the code computes: the rounding and the first value must fit, and so must the
last value with the span taken modulo 2^64. -/
theorem interval_eq (positive : inc ≠ 0) (some_ : nb ≠ 0) :
    interval cur offset inc nb =
      if roundingWraps offset.toNat inc.toNat cur.toNat ∨
          2 ^ 64 ≤ exactStart offset.toNat inc.toNat cur.toNat +
            span inc.toNat nb.toNat % 2 ^ 64 then none
      else some (UInt64.ofNat (exactStart offset.toNat inc.toNat cur.toNat),
        UInt64.ofNat (exactStart offset.toNat inc.toNat cur.toNat +
          span inc.toNat nb.toNat % 2 ^ 64)) := by
  have first := @first_eq cur offset inc positive
  generalize exactStart offset.toNat inc.toNat cur.toNat = start at first ⊢
  unfold interval
  dsimp only
  by_cases refused : roundingWraps offset.toNat inc.toNat cur.toNat ∨ 2 ^ 64 ≤ start
  · rw [if_pos refused] at first
    rw [if_pos (refused.imp id fun large => by omega)]
    by_cases top : cur + 1 = 0
    · rw [if_pos top]
    · rw [if_neg top] at first ⊢
      rw [first]
  · rw [if_neg refused] at first
    have fits : start < 2 ^ 64 := by omega
    by_cases top : cur + 1 = 0
    · rw [if_pos top] at first
      cases first
    · rw [if_neg top] at first ⊢
      rw [first]
      dsimp only
      have startNat : (UInt64.ofNat start).toNat = start := UInt64.toNat_ofNat_of_lt' fits
      have pred : (nb - 1).toNat = nb.toNat - 1 := by
        have nonzero : nb.toNat ≠ 0 := fun zero => some_ (UInt64.toNat_inj.mp zero)
        have small := nb.toNat_lt
        rw [UInt64.toNat_sub]
        simp only [UInt64.reduceToNat]
        omega
      have spanNat : ((nb - 1) * inc).toNat = span inc.toNat nb.toNat % 2 ^ 64 := by
        rw [UInt64.toNat_mul, pred]
        rfl
      have lastNat : (UInt64.ofNat start + (nb - 1) * inc).toNat =
          (start + span inc.toNat nb.toNat % 2 ^ 64) % 2 ^ 64 := by
        rw [UInt64.toNat_add, startNat, spanNat]
      have spanSmall : span inc.toNat nb.toNat % 2 ^ 64 < 2 ^ 64 := Nat.mod_lt _ (by decide)
      by_cases overflows : 2 ^ 64 ≤ start + span inc.toNat nb.toNat % 2 ^ 64
      · rw [if_pos (Or.inr overflows), if_pos]
        rw [UInt64.lt_iff_toNat_lt, lastNat, startNat]
        omega
      · have lastFits := Nat.lt_of_not_le overflows
        rw [if_neg (not_or.mpr ⟨fun wraps => refused (Or.inl wraps), overflows⟩), if_neg]
        · rw [← Nat.mod_eq_of_lt lastFits, ← lastNat, UInt64.ofNat_toNat]
        · rw [UInt64.lt_iff_toNat_lt, lastNat, startNat, Nat.mod_eq_of_lt lastFits]
          omega

end Words

/-! ### A reservation that runs alone -/

def AutoInc.succeeds (s : AutoInc) : Prop := ∃ k, s.tried ≤ k ∧ s.whim k = false

def reservation (cur offset inc nb : UInt64) : UInt64 × UInt64 :=
  match interval cur (orOne offset) (orOne inc) (orOne nb) with
  | none => (0, cur)
  | some pair => pair

section Rounds

variable {t : Nat} {s : AutoInc} {offset inc nb v last : UInt64}

theorem reserveRound_refuses (found : interval s.value offset inc nb = none) :
    Exec autoIncMachine t (reserveRound offset inc nb) s (.inr 0) s := by
  refine .act rfl ?_
  rw [Prog.ret_bind, found]
  exact .ret _ _

theorem reserveRound_takes (found : interval s.value offset inc nb = some (v, last))
    (now : s.whim s.tried = false) :
    Exec autoIncMachine t (reserveRound offset inc nb) s (.inr v)
      { s with value := last, tried := s.tried + 1 } := by
  refine .act rfl ?_
  rw [Prog.ret_bind, found]
  refine .act (if_pos ⟨rfl, now⟩) ?_
  exact .ret _ _

theorem reserveRound_retries (found : interval s.value offset inc nb = some (v, last))
    (fails : ¬ s.whim s.tried = false) :
    Exec autoIncMachine t (reserveRound offset inc nb) s (.inl ())
      { s with tried := s.tried + 1 } := by
  refine .act rfl ?_
  rw [Prog.ret_bind, found]
  refine .act (if_neg fun both => fails both.2) ?_
  exact .ret _ _

end Rounds

theorem reserve_runs {t : Nat} {s : AutoInc} (succeeds : s.succeeds) (offset inc nb : UInt64) :
    ∃ s', Exec autoIncMachine t (fmCoreAutoIncReserve offset inc nb) s
      (reservation s.value offset inc nb).1 s' ∧
      s'.value = (reservation s.value offset inc nb).2 := by
  obtain ⟨k, ahead, good⟩ := succeeds
  unfold reservation
  -- on the number of compare-exchanges before one that does not fail
  generalize left : k - s.tried = rounds
  induction rounds generalizing s with
  | zero =>
      have now : s.whim s.tried = false := by
        rw [show s.tried = k by omega]
        exact good
      cases found : interval s.value (orOne offset) (orOne inc) (orOne nb) with
      | none => exact ⟨s, Exec.iterate_leave (reserveRound_refuses found), rfl⟩
      | some pair => exact ⟨_, Exec.iterate_leave (reserveRound_takes found now), rfl⟩
  | succ rounds ih =>
      cases found : interval s.value (orOne offset) (orOne inc) (orOne nb) with
      | none => exact ⟨s, Exec.iterate_leave (reserveRound_refuses found), rfl⟩
      | some pair =>
          by_cases now : s.whim s.tried = false
          · exact ⟨_, Exec.iterate_leave (reserveRound_takes found now), rfl⟩
          · obtain ⟨s', ran, after⟩ := @ih { s with tried := s.tried + 1 }
              (show s.tried + 1 ≤ k by omega) good (by change k - (s.tried + 1) = rounds; omega)
            dsimp only at ran after
            rw [found] at ran after
            exact ⟨s', Exec.iterate_again (reserveRound_retries found now) ran, after⟩

/-! ### Exactness -/

/-- The interval is granted in full and the counter is at its end, or nothing happens because
no interval from the least start on fits. -/
structure ReservesExactly (cur offset inc nb v after : Nat) : Prop where
  granted : v ≠ 0 → (∀ i, i < nb → cur < v + i * inc ∧ v + i * inc < 2 ^ 64) ∧
    after = v + (nb - 1) * inc
  unchanged : v = 0 → after = cur
  refused : v = 0 ↔ ¬ ∃ w, startsAbove offset inc cur w ∧ w + (nb - 1) * inc < 2 ^ 64

/-- Where the sum of the rounding wraps the interval must not fit; elsewhere the span must fit
64 bits, or carry the first value past them even when it is taken modulo 2^64. -/
def OverflowSeen (cur offset inc nb : Nat) : Prop :=
  if roundingWraps offset inc cur then 2 ^ 64 ≤ exactStart offset inc cur + span inc nb
  else span inc nb < 2 ^ 64 ∨ 2 ^ 64 ≤ exactStart offset inc cur + span inc nb % 2 ^ 64

theorem reservesExactly_iff (cur offset inc nb : UInt64) :
    ReservesExactly cur.toNat (orOne offset).toNat (orOne inc).toNat (orOne nb).toNat
        (reservation cur offset inc nb).1.toNat (reservation cur offset inc nb).2.toNat ↔
      OverflowSeen cur.toNat (orOne offset).toNat (orOne inc).toNat (orOne nb).toNat := by
  unfold reservation OverflowSeen
  rw [interval_eq (orOne_ne_zero inc) (orOne_ne_zero nb)]
  have positive : 0 < (orOne nb).toNat := by
    rcases Nat.eq_zero_or_pos (orOne nb).toNat with zero | positive
    · exact absurd (UInt64.toNat_inj.mp zero) (orOne_ne_zero nb)
    · exact positive
  generalize (orOne offset).toNat = o, (orOne inc).toNat = d, (orOne nb).toNat = m at *
  have above := exactStart_above o d cur.toNat
  have reduced := Nat.mod_le (span d m) (2 ^ 64)
  -- whether an interval fits is a fact about its last value
  have fits : (∃ w, startsAbove o d cur.toNat w ∧ w + (m - 1) * d < 2 ^ 64) ↔
      exactStart o d cur.toNat + span d m < 2 ^ 64 := by
    simp only [startsAbove_iff, exists_eq_left, span]
  constructor
  · intro exactly
    by_cases wraps : roundingWraps o d cur.toNat
    · rw [if_pos wraps]
      rw [if_pos (Or.inl wraps)] at exactly
      have none := exactly.refused.mp rfl
      rw [fits] at none
      omega
    · rw [if_neg wraps]
      by_cases overflows : 2 ^ 64 ≤ exactStart o d cur.toNat + span d m % 2 ^ 64
      · exact Or.inr overflows
      · rw [if_neg (not_or.mpr ⟨wraps, overflows⟩)] at exactly
        have startNat : (UInt64.ofNat (exactStart o d cur.toNat)).toNat =
            exactStart o d cur.toNat := UInt64.toNat_ofNat_of_lt' (show _ < 2 ^ 64 by omega)
        have granted := exactly.granted
        rw [startNat] at granted
        have last := ((granted (by omega)).1 (m - 1) (by omega)).2
        left
        unfold span
        omega
  · intro seen
    by_cases wraps : roundingWraps o d cur.toNat
    · rw [if_pos wraps] at seen
      rw [if_pos (Or.inl wraps)]
      refine ⟨fun nonzero => absurd rfl nonzero, fun _ => rfl, fun _ => ?_, fun _ => rfl⟩
      rw [fits]
      omega
    · rw [if_neg wraps] at seen
      by_cases overflows : 2 ^ 64 ≤ exactStart o d cur.toNat + span d m % 2 ^ 64
      · rw [if_pos (Or.inr overflows)]
        refine ⟨fun nonzero => absurd rfl nonzero, fun _ => rfl, fun _ => ?_, fun _ => rfl⟩
        rw [fits]
        omega
      · have small := seen.resolve_right overflows
        rw [Nat.mod_eq_of_lt small] at overflows ⊢
        have startNat : (UInt64.ofNat (exactStart o d cur.toNat)).toNat =
            exactStart o d cur.toNat := UInt64.toNat_ofNat_of_lt' (show _ < 2 ^ 64 by omega)
        have lastNat : (UInt64.ofNat (exactStart o d cur.toNat + span d m)).toNat =
            exactStart o d cur.toNat + span d m := UInt64.toNat_ofNat_of_lt' (show _ < 2 ^ 64 by omega)
        rw [if_neg (not_or.mpr ⟨wraps, overflows⟩), startNat, lastNat]
        refine ⟨fun _ => ⟨fun i inside => ?_, rfl⟩, fun zero => by omega, fun zero => by omega,
          fun none => ?_⟩
        · have within : i * d ≤ (m - 1) * d := Nat.mul_le_mul_right _ (by omega)
          unfold span at overflows
          omega
        · rw [fits] at none
          omega

/-- A reservation that runs alone returns and is exact if and only if no wrap of its arithmetic
goes unseen. -/
theorem reserve_exact_iff (cur offset inc nb : UInt64) :
    (∀ t s, s.value = cur → s.succeeds →
      ∃ v s', Exec autoIncMachine t (fmCoreAutoIncReserve offset inc nb) s v s' ∧
        ReservesExactly cur.toNat (orOne offset).toNat (orOne inc).toNat (orOne nb).toNat
          v.toNat s'.value.toNat) ↔
      OverflowSeen cur.toNat (orOne offset).toNat (orOne inc).toNat (orOne nb).toNat := by
  rw [← reservesExactly_iff]
  constructor
  · intro all
    let s : AutoInc := ⟨cur, fun _ => false, 0⟩
    have succeeds : s.succeeds := ⟨0, Nat.le_refl 0, rfl⟩
    obtain ⟨v, s', ran, exactly⟩ := all 0 s rfl succeeds
    obtain ⟨s'', ran', after⟩ := reserve_runs (t := 0) succeeds offset inc nb
    obtain ⟨rfl, rfl⟩ := ran.deterministic ran'
    rw [after] at exactly
    exact exactly
  · rintro exactly t s rfl succeeds
    obtain ⟨s', ran, after⟩ := reserve_runs (t := t) succeeds offset inc nb
    refine ⟨_, s', ran, ?_⟩
    rw [after]
    exact exactly

/-- Three values of stride 2^63 above 0 are granted, the last one far above 2^64. -/
theorem reserve_exact_broken : ¬ ∀ t s, s.value = 0 → s.succeeds →
    ∃ v s', Exec autoIncMachine t (fmCoreAutoIncReserve 1 9223372036854775808 3) s v s' ∧
      ReservesExactly 0 1 9223372036854775808 3 v.toNat s'.value.toNat := by
  intro all
  have succeeds : AutoInc.succeeds ⟨0, fun _ => false, 0⟩ := ⟨0, Nat.le_refl 0, rfl⟩
  have first : (reservation 0 1 9223372036854775808 3).1 = 1 := by decide +kernel
  obtain ⟨v, s', ran, exactly⟩ := all 0 ⟨0, fun _ => false, 0⟩ rfl succeeds
  obtain ⟨s'', ran', after⟩ := reserve_runs (t := 0) succeeds 1 9223372036854775808 3
  obtain ⟨same, _⟩ := ran.deterministic ran'
  rw [same.trans first] at exactly
  have last := ((exactly.granted (by decide)).1 2 (by decide)).2
  omega

end Fastmem
