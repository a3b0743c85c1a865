/-
Calls with nobody else moving.

The steps of such a call are its serial execution. At the end of a run a thread
that rests can make one more call, and a serial execution of it becomes the last
call of a longer run.
-/

import Fastmem.RunEvents

set_option autoImplicit false

namespace ThreadSystem

variable {M : Machine} {S : ThreadSystem M}

theorem Does.exec {st : Nat → M.St} {tid : Nat → Nat} {t i j : Nat} {α : Type}
    {program : Prog M.Act α} {value : α} (does : Does st tid t i program j value)
    (sole : ∀ m, i ≤ m → m < j → tid m = t) : M.Exec t program (st i) value (st j) := by
  induction does with
  | ret i value => exact .ret value (st i)
  | @wait i j _ _ other rest _ =>
      exact absurd (sole i (Nat.le_refl i) rest.le) other
  | act own ran rest ih =>
      exact .act ran (ih fun m lower upper => sole m (Nat.le_of_succ_le lower) upper)
  | loop own same rest ih =>
      rw [← same]
      exact .loop (ih fun m lower upper => sole m (Nat.le_of_succ_le lower) upper)

namespace Run

variable {R R' R'' : S.Run}

theorem Returned.exec {t i j : Nat} {call : S.Call} {kept kept' : S.Loc} {result : S.Res}
    (returned : R.Returned t call kept i j result kept')
    (sole : ∀ m, i < m → m < j → R.tid m = t) :
    M.Exec t (S.code t call kept) (R.st (i + 1)) (result, kept') (R.st j) :=
  returned.does.exec fun m lower upper => sole m lower upper

theorem Returned.outside {t i j : Nat} {call : S.Call} {kept kept' : S.Loc} {result : S.Res}
    (returned : R.Returned t call kept i j result kept') :
    R.st (i + 1) = R.st i ∧ R.st (j + 1) = R.st j := by
  have before := returned.before
  have bound := returned.bound
  constructor
  · refine R.rest_same (by omega) fun _ _ _ _ busy => ?_
    rw [returned.starting.1, returned.started] at busy
    cases busy
  · refine R.rest_same bound fun _ _ _ _ busy => ?_
    rw [returned.finished, returned.returns] at busy
    cases busy

/-- The run `R'` begins with the steps of `R`. -/
structure Extends (R' R : S.Run) : Prop where
  longer : R.len ≤ R'.len
  cfg : ∀ i, i ≤ R.len → R'.cfg i = R.cfg i
  tid : ∀ i, i < R.len → R'.tid i = R.tid i
  ev : ∀ i, i < R.len → R'.ev i = R.ev i

namespace Extends

theorem refl : R.Extends R := ⟨Nat.le_refl _, fun _ _ => rfl, fun _ _ => rfl, fun _ _ => rfl⟩

theorem trans (second : R''.Extends R') (first : R'.Extends R) : R''.Extends R where
  longer := Nat.le_trans first.longer second.longer
  cfg i bound := (second.cfg i (Nat.le_trans bound first.longer)).trans (first.cfg i bound)
  tid i bound :=
    (second.tid i (Nat.lt_of_lt_of_le bound first.longer)).trans (first.tid i bound)
  ev i bound := (second.ev i (Nat.lt_of_lt_of_le bound first.longer)).trans (first.ev i bound)

theorem st (extended : R'.Extends R) {i : Nat} (bound : i ≤ R.len) : R'.st i = R.st i :=
  congrArg Config.st (extended.cfg i bound)

theorem startsIn (extended : R'.Extends R) {s : M.St} {kept : S.Loc} (starts : R.StartsIn s kept) :
    R'.StartsIn s kept :=
  (extended.cfg 0 (Nat.zero_le _)).trans starts

theorem meets (extended : R'.Extends R) {condition : S.Config → Nat → S.Event → Prop}
    (first : R.Meets condition)
    (later : ∀ i, R.len ≤ i → i < R'.len → condition (R'.cfg i) (R'.tid i) (R'.ev i)) :
    R'.Meets condition := by
  intro i bound
  by_cases early : i < R.len
  · rw [extended.cfg i (Nat.le_of_lt early), extended.tid i early, extended.ev i early]
    exact first i early
  · exact later i (Nat.not_lt.mp early) bound

theorem returned (extended : R'.Extends R) {t i j : Nat} {call : S.Call} {kept kept' : S.Loc}
    {result : S.Res} (returned : R.Returned t call kept i j result kept') :
    R'.Returned t call kept i j result kept' := by
  have before := returned.before
  have bound := returned.bound
  have longer := extended.longer
  refine ⟨?_, ?_, fun m lower upper => ?_, before, by omega, ?_, ?_⟩
  · rw [extended.cfg i (by omega)]
    exact returned.started
  · rw [extended.cfg (i + 1) (by omega)]
    exact returned.running
  · rw [extended.cfg m (by omega)]
    exact returned.inside m lower upper
  · rw [extended.cfg j (by omega)]
    exact returned.returns
  · rw [extended.tid j bound]
    exact returned.finished

end Extends

def snoc (R : S.Run) {t : Nat} {event : S.Event} {c : S.Config}
    (last : Step (R.cfg R.len) t event c) : S.Run where
  len := R.len + 1
  cfg i := if i ≤ R.len then R.cfg i else c
  tid i := if i < R.len then R.tid i else t
  ev i := if i < R.len then R.ev i else event
  step := by
    intro i bound
    rw [if_pos (Nat.le_of_lt_succ bound)]
    by_cases earlier : i < R.len
    · rw [if_pos earlier, if_pos earlier, if_pos (Nat.succ_le_of_lt earlier)]
      exact R.step i earlier
    · obtain rfl : i = R.len := by omega
      rw [if_neg earlier, if_neg earlier, if_neg (Nat.not_succ_le_self _)]
      exact last

section Snoc

variable {t : Nat} {event : S.Event} {c : S.Config} (last : Step (R.cfg R.len) t event c)

theorem snoc_extends : (R.snoc last).Extends R :=
  ⟨Nat.le_succ _, fun _ bound => if_pos bound, fun _ bound => if_pos bound,
    fun _ bound => if_pos bound⟩

theorem snoc_last : (R.snoc last).cfg (R.snoc last).len = c :=
  if_neg (Nat.not_succ_le_self _)

theorem snoc_st : (R.snoc last).st (R.snoc last).len = c.st := by
  unfold st
  rw [snoc_last]

theorem snoc_thread (u : Nat) : ((R.snoc last).cfg (R.snoc last).len).thread u = c.thread u := by
  rw [snoc_last]

theorem snoc_tid : (R.snoc last).tid R.len = t :=
  if_neg (Nat.lt_irrefl _)

theorem snoc_ev : (R.snoc last).ev R.len = event :=
  if_neg (Nat.lt_irrefl _)

theorem snoc_meets {condition : S.Config → Nat → S.Event → Prop} (before : R.Meets condition)
    (now : condition (R.cfg R.len) t event) : (R.snoc last).Meets condition := by
  refine (snoc_extends last).meets before fun i lower upper => ?_
  obtain rfl : i = R.len := Nat.le_antisymm (Nat.le_of_lt_succ upper) lower
  rw [(snoc_extends last).cfg _ (Nat.le_refl _), snoc_tid, snoc_ev]
  exact now

end Snoc

/-- The run `R'` goes on behind `R` with steps of thread `t` inside one call, whose actions meet a
condition. -/
structure Continues (R R' : S.Run) (t : Nat) (call : S.Call)
    (condition : (ρ : Type) → M.Act ρ → Prop) : Prop where
  extension : R'.Extends R
  inside : ∀ i, R.len ≤ i → i < R'.len → ∃ program, (R'.cfg i).thread t = .busy call program
  tid : ∀ i, R.len ≤ i → i < R'.len → R'.tid i = t
  actions : ∀ i, R.len ≤ i → i < R'.len → ∀ (ρ : Type) (action : M.Act ρ) (result : ρ),
    R'.ev i = .act action result → condition ρ action

section Alone

variable {t : Nat} {call : S.Call} {final : M.St} {condition : (ρ : Type) → M.Act ρ → Prop}
  {program rest : Prog M.Act (S.Res × S.Loc)}

namespace Continues

theorem refl : Continues R R t call condition :=
  ⟨.refl, fun _ lower upper => absurd upper (Nat.not_lt.mpr lower),
    fun _ lower upper => absurd upper (Nat.not_lt.mpr lower),
    fun _ lower upper => absurd upper (Nat.not_lt.mpr lower)⟩

theorem trans (first : Continues R R' t call condition)
    (second : Continues R' R'' t call condition) : Continues R R'' t call condition where
  extension := second.extension.trans first.extension
  inside i lower upper := by
    by_cases early : i < R'.len
    · rw [second.extension.cfg i (Nat.le_of_lt early)]
      exact first.inside i lower early
    · exact second.inside i (Nat.not_lt.mp early) upper
  tid i lower upper := by
    by_cases early : i < R'.len
    · rw [second.extension.tid i early]
      exact first.tid i lower early
    · exact second.tid i (Nat.not_lt.mp early) upper
  actions i lower upper := by
    by_cases early : i < R'.len
    · rw [second.extension.ev i early]
      exact first.actions i lower early
    · exact second.actions i (Nat.not_lt.mp early) upper

theorem mono {condition' : (ρ : Type) → M.Act ρ → Prop}
    (weaker : ∀ (ρ : Type) (action : M.Act ρ), condition ρ action → condition' ρ action)
    (continued : Continues R R' t call condition) : Continues R R' t call condition' :=
  ⟨continued.extension, continued.inside, continued.tid, fun i lower upper ρ action result event =>
    weaker ρ action (continued.actions i lower upper ρ action result event)⟩

theorem snoc {event : S.Event} {c : S.Config}
    (busy : (R.cfg R.len).thread t = .busy call program) (last : Step (R.cfg R.len) t event c)
    (meets : ∀ (ρ : Type) (action : M.Act ρ) (result : ρ), event = .act action result →
      condition ρ action) : Continues R (R.snoc last) t call condition := by
  have only : ∀ i, R.len ≤ i → i < (R.snoc last).len → i = R.len :=
    fun i lower upper => Nat.le_antisymm (Nat.le_of_lt_succ upper) lower
  refine ⟨snoc_extends last, fun i lower upper => ?_, fun i lower upper => ?_,
    fun i lower upper => ?_⟩
  · obtain rfl := only i lower upper
    exact ⟨program, by rw [(snoc_extends last).cfg _ (Nat.le_refl _), busy]⟩
  · obtain rfl := only i lower upper
    exact snoc_tid last
  · obtain rfl := only i lower upper
    rw [snoc_ev]
    exact meets

theorem others (continued : Continues R R' t call condition) {u : Nat} (other : u ≠ t) :
    ∀ i, R.len ≤ i → i ≤ R'.len → (R'.cfg i).thread u = (R.cfg R.len).thread u := by
  intro i lower
  induction i, lower using Nat.le_induction with
  | base => exact fun _ => by rw [continued.extension.cfg _ (Nat.le_refl _)]
  | succ i lower ih =>
      intro upper
      have step := R'.step i upper
      rw [continued.tid i lower upper] at step
      exact (step.others other).trans (ih (Nat.le_of_succ_le upper))

theorem kept (continued : Continues R R' t call condition) {holds : M.St → Prop}
    (keeps : ∀ {ρ : Type} (action : M.Act ρ) s result s', condition ρ action →
      M.exec t action s = some (result, s') → holds s → holds s') (held : holds (R.st R.len)) :
    ∀ i, R.len ≤ i → i ≤ R'.len → holds (R'.st i) := by
  intro i lower
  induction i, lower using Nat.le_induction with
  | base =>
      intro _
      rw [continued.extension.st (Nat.le_refl _)]
      exact held
  | succ i lower ih =>
      intro upper
      have before := ih (Nat.le_of_succ_le upper)
      have step := R'.step i upper
      have actions := continued.actions i lower upper
      rw [continued.tid i lower upper] at step
      unfold st at before ⊢
      generalize R'.ev i = event at step actions
      generalize R'.cfg (i + 1) = after at step
      cases step with
      | start call idle promised => exact before
      | act busy ran => exact keeps _ _ _ _ (actions _ _ _ rfl) ran before
      | unroll busy => exact before
      | finish busy => exact before

theorem calls (continued : Continues R R' t call condition) (property : S.Call → Prop)
    (own : property call)
    (before : ∀ u call program, (R.cfg R.len).thread u = .busy call program → property call) :
    ∀ i, R.len ≤ i → i < R'.len → ∀ u call program, (R'.cfg i).thread u = .busy call program →
      property call := by
  intro i lower upper u call' program busy
  by_cases same : u = t
  · subst same
    obtain ⟨rest, now⟩ := continued.inside i lower upper
    rw [now] at busy
    cases busy
    exact own
  · rw [continued.others same i lower (Nat.le_of_lt upper)] at busy
    exact before u call' program busy

end Continues

/-- A thread that is alone follows the serial execution of what is left of its call. -/
theorem alone {s : M.St} {outcome : S.Res × S.Loc} (ran : M.Exec t program s outcome final)
    (R : S.Run) (now : R.st R.len = s) (busy : (R.cfg R.len).thread t = .busy call program)
    (performs : program.Performs condition) :
    ∃ R' : S.Run, Continues R R' t call condition ∧
      R'.cfg R'.len =
        ⟨final, Function.update (R.cfg R.len).thread t (.busy call (.ret outcome))⟩ := by
  induction ran generalizing R with
  | ret outcome s =>
      subst now
      refine ⟨R, .refl, ?_⟩
      rw [← busy, Function.update_eq_self]
      rfl
  | @act ρ action next s mid final result outcome ran rest ih =>
      subst now
      have first : Step (R.cfg R.len) t (.act action result)
        ⟨mid, Function.update (R.cfg R.len).thread t (.busy call (next result))⟩ := .act busy ran
      obtain ⟨R', further, ended⟩ := ih (R.snoc first) (snoc_st first)
        ((snoc_thread first t).trans (Function.update_self ..)) (performs.2 result)
      refine ⟨R', (Continues.snoc busy first ?_).trans further, ?_⟩
      · intro _ _ _ same
        cases same
        exact performs.1
      · rw [ended, snoc_last]
        simp only [Function.update_idem]
  | @loop σ β body start next s final outcome rest ih =>
      subst now
      have first : Step (R.cfg R.len) t .unroll
        ⟨R.st R.len, Function.update (R.cfg R.len).thread t
          (.busy call (Prog.unroll body start next))⟩ := .unroll busy
      obtain ⟨R', further, ended⟩ := ih (R.snoc first) (snoc_st first)
        ((snoc_thread first t).trans (Function.update_self ..)) performs.unroll
      refine ⟨R', (Continues.snoc busy first fun _ _ _ same => by cases same).trans further, ?_⟩
      rw [ended, snoc_last]
      simp only [Function.update_idem]

theorem resumed (R : S.Run) {result : S.Res} {kept' : S.Loc}
    (busy : (R.cfg R.len).thread t = .busy call program)
    (ran : M.Exec t program (R.st R.len) (result, kept') final)
    (performs : program.Performs condition) :
    ∃ (R' : S.Run) (j : Nat), Continues R R' t call condition ∧
      R'.cfg R'.len = ⟨final, Function.update (R.cfg R.len).thread t (.idle kept')⟩ ∧
      R'.len = j + 1 ∧ R.len ≤ j ∧
      (R'.cfg j).thread t = .busy call (.ret (result, kept')) := by
  obtain ⟨R₁, continued, ended⟩ := alone ran R rfl busy performs
  have returns : (R₁.cfg R₁.len).thread t = .busy call (.ret (result, kept')) := by
    rw [ended]
    exact Function.update_self ..
  have last : Step (R₁.cfg R₁.len) t (.finish call result)
      ((R₁.cfg R₁.len).set t (.idle kept')) := .finish returns
  refine ⟨R₁.snoc last, R₁.len,
    continued.trans (.snoc returns last fun _ _ _ same => by cases same), ?_, rfl,
    continued.extension.longer, ?_⟩
  · rw [snoc_last, ended]
    simp only [Config.set, Function.update_idem]
  · rw [(snoc_extends last).cfg _ (Nat.le_refl _)]
    exact returns

theorem Continues.returned {kept kept' : S.Loc} {result : S.Res} {j : Nat}
    (first : Step (R.cfg R.len) t (.start call)
      ((R.cfg R.len).set t (.busy call (S.code t call kept))))
    (continued : Continues (R.snoc first) R' t call condition)
    (idle : (R.cfg R.len).thread t = .idle kept) (length : R'.len = j + 1)
    (longer : (R.snoc first).len ≤ j)
    (returns : (R'.cfg j).thread t = .busy call (.ret (result, kept'))) :
    R'.Returned t call kept R.len j result kept' := by
  have whole := continued.extension.trans (snoc_extends first)
  refine ⟨?_, ?_, fun m lower upper => ?_, longer, by omega, returns,
    continued.tid j longer (by omega)⟩
  · rw [whole.cfg _ (Nat.le_refl _)]
    exact idle
  · rw [continued.extension.cfg (R.len + 1) (Nat.le_refl _)]
    exact (snoc_thread first t).trans (Function.update_self ..)
  · exact continued.inside m lower (by omega)

end Alone

/-- A call of a resting thread at the end of a run, with the outcome of its serial execution. -/
theorem called (R : S.Run) (condition : (ρ : Type) → M.Act ρ → Prop) (call : S.Call) {t : Nat}
    {kept kept' : S.Loc} {result : S.Res} {final : M.St}
    (idle : (R.cfg R.len).thread t = .idle kept)
    (promised : S.allowed t call kept (R.st R.len) = true)
    (ran : M.Exec t (S.code t call kept) (R.st R.len) (result, kept') final)
    (performs : (S.code t call kept).Performs condition) :
    ∃ (R₁ R' : S.Run) (j : Nat), R₁.Extends R ∧ R₁.len = R.len + 1 ∧ R₁.st R₁.len = R.st R.len ∧
      Continues R₁ R' t call condition ∧ R'.len = j + 1 ∧
      R'.Returned t call kept R.len j result kept' := by
  have first : Step (R.cfg R.len) t (.start call)
      ((R.cfg R.len).set t (.busy call (S.code t call kept))) := .start call idle promised
  have running := (snoc_thread first t).trans (Function.update_self ..)
  have now : (R.snoc first).st (R.snoc first).len = R.st R.len := snoc_st first
  obtain ⟨R', j, continued, _, length, longer, returns⟩ :=
    (R.snoc first).resumed running (by rw [now]; exact ran) performs
  exact ⟨R.snoc first, R', j, snoc_extends first, rfl, now, continued, length,
    Continues.returned first continued idle length longer returns⟩

end Run

end ThreadSystem
