/-
Programs that work in two phases.

The actions of the first phase are of one kind, those of the second of another,
and a program does not come back from the second to the first. If a thread is
about to do what only the first phase does, all it has done in its call was of
the first phase.
-/

import Fastmem.RunEvents

set_option autoImplicit false

namespace Prog

variable {Act : Type → Type} {α β σ : Type}

/-- Actions of the first kind, and of the second kind from some action on. -/
def Phased (first second : (ρ : Type) → Act ρ → Prop) : {α : Type} → Prog Act α → Prop
  | _, .ret _ => True
  | _, .act action next =>
      (first _ action ∧ ∀ result, Phased first second (next result)) ∨
        Performs second (.act action next)
  | _, .loop body start next =>
      ((∀ state, Performs first (body state)) ∧ ∀ result, Phased first second (next result)) ∨
        Performs second (.loop body start next)

namespace Phased

variable {first second : (ρ : Type) → Act ρ → Prop}

theorem ret (value : α) : Phased first second (.ret value : Prog Act α) := trivial

theorem late {program : Prog Act α} (performs : program.Performs second) :
    Phased first second program := by
  cases program with
  | ret value => trivial
  | act action next => exact Or.inr performs
  | loop body start next => exact Or.inr performs

theorem bind {program : Prog Act α} {f : α → Prog Act β} (early : program.Performs first)
    (rest : ∀ value, Phased first second (f value)) : Phased first second (program.bind f) := by
  induction program with
  | ret value => exact rest value
  | act action next ih =>
      exact Or.inl ⟨early.1, fun result => ih result (early.2 result) rest⟩
  | loop body start next _ ih =>
      exact Or.inl ⟨early.1, fun result => ih result (early.2 result) rest⟩

theorem followed {program : Prog Act α} {f : α → Prog Act β} (phased : Phased first second program)
    (rest : ∀ value, (f value).Performs second) : Phased first second (program.bind f) := by
  induction program with
  | ret value => exact late (rest value)
  | act action next ih =>
      rcases phased with ⟨early, later⟩ | performs
      · exact Or.inl ⟨early, fun result => ih result (later result) rest⟩
      · exact Or.inr (Performs.bind performs rest)
  | loop body start next _ ih =>
      rcases phased with ⟨early, later⟩ | performs
      · exact Or.inl ⟨early, fun result => ih result (later result) rest⟩
      · exact Or.inr (Performs.bind performs rest)

theorem unroll {body : σ → Prog Act (σ ⊕ β)} {start : σ} {next : β → Prog Act α}
    (phased : Phased first second (.loop body start next)) :
    Phased first second (Prog.unroll body start next) := by
  rcases phased with ⟨early, later⟩ | performs
  · apply bind (early start)
    intro outcome
    cases outcome with
    | inl again => exact Or.inl ⟨early, later⟩
    | inr result => exact later result
  · exact late performs.unroll

end Phased

end Prog

namespace ThreadSystem

variable {M : Machine} {S : ThreadSystem M} {first second : (ρ : Type) → M.Act ρ → Prop}
  {kept : M.St → M.St → Prop}

theorem Run.phased_step (second : (ρ : Type) → M.Act ρ → Prop) {R : S.Run} {t m : Nat}
    {call : S.Call} {rest : Prog M.Act (S.Res × S.Loc)} (refl : ∀ s, kept s s)
    (acts : ∀ {ρ : Type} {action : M.Act ρ} {s s' : M.St} {result : ρ}, first ρ action →
      M.exec t action s = some (result, s') → kept s s')
    (bound : m < R.len) (own : R.tid m = t) (busy : (R.cfg m).thread t = .busy call rest)
    (goes : ∃ rest', (R.cfg (m + 1)).thread t = .busy call rest') :
    ∃ rest', (R.cfg (m + 1)).thread t = .busy call rest' ∧
      (rest.Performs second → rest'.Performs second) ∧
      (rest.Phased first second → rest'.Performs second ∨
        rest'.Phased first second ∧ kept (R.st m) (R.st (m + 1))) := by
  have step := R.step m bound
  rw [own] at step
  unfold Run.st
  generalize R.ev m = event at step
  generalize R.cfg (m + 1) = after at step goes
  cases step with
  | start call' idle promised =>
      rw [busy] at idle
      cases idle
  | act busy' ran =>
      rw [busy] at busy'
      cases busy'
      refine ⟨_, Function.update_self .., fun performs => performs.2 _, ?_⟩
      intro phased
      rcases phased with ⟨early, later⟩ | performs
      · exact Or.inr ⟨later _, acts early ran⟩
      · exact Or.inl (performs.2 _)
  | unroll busy' =>
      rw [busy] at busy'
      cases busy'
      exact ⟨_, Function.update_self .., fun performs => performs.unroll,
        fun phased => Or.inr ⟨phased.unroll, refl _⟩⟩
  | finish busy' =>
      obtain ⟨rest', running⟩ := goes
      simp only [Config.set, Function.update_self] at running
      cases running

theorem Run.phased {R : S.Run} {t a m : Nat} {call : S.Call}
    {program : Prog M.Act (S.Res × S.Loc)} (refl : ∀ s, kept s s)
    (acts : ∀ {ρ : Type} {action : M.Act ρ} {s s' : M.St} {result : ρ}, first ρ action →
      M.exec t action s = some (result, s') → kept s s')
    (begins : (R.cfg a).thread t = .busy call program) (phased : program.Phased first second)
    (order : a ≤ m) (bound : m ≤ R.len)
    (inside : ∀ k, a ≤ k → k ≤ m → ∃ rest, (R.cfg k).thread t = .busy call rest) :
    ∃ rest, (R.cfg m).thread t = .busy call rest ∧ (rest.Performs second ∨
      rest.Phased first second ∧
        ∀ k, a ≤ k → k < m → R.tid k = t → kept (R.st k) (R.st (k + 1))) := by
  induction m, order using Nat.le_induction with
  | base =>
      refine ⟨program, begins, Or.inr ⟨phased, ?_⟩⟩
      intro k lower upper
      omega
  | succ m order ih =>
      obtain ⟨rest, busy, phase⟩ := ih (Nat.le_of_succ_le bound)
        fun k lower upper => inside k lower (by omega)
      -- what the last step adds to the steps before it
      have extend : ∀ {rest' : Prog M.Act (S.Res × S.Loc)}, rest'.Phased first second →
          (∀ k, a ≤ k → k < m → R.tid k = t → kept (R.st k) (R.st (k + 1))) →
          (R.tid m = t → kept (R.st m) (R.st (m + 1))) → rest'.Phased first second ∧
            ∀ k, a ≤ k → k < m + 1 → R.tid k = t → kept (R.st k) (R.st (k + 1)) := by
        intro rest' later before last
        constructor
        · exact later
        · intro k lower upper own
          rcases Nat.lt_succ_iff_lt_or_eq.mp upper with earlier | same
          · exact before k lower earlier own
          · subst same
            exact last own
      by_cases own : R.tid m = t
      · obtain ⟨rest', running, late, early⟩ := Run.phased_step second refl acts bound own
          busy (inside (m + 1) (by omega) (Nat.le_refl _))
        refine ⟨rest', running, ?_⟩
        rcases phase with performs | ⟨here, before⟩
        · exact Or.inl (late performs)
        · rcases early here with performs | ⟨later, last⟩
          · exact Or.inl performs
          · exact Or.inr (extend later before fun _ => last)
      · have same : (R.cfg (m + 1)).thread t = .busy call rest :=
          ((R.step m bound).others (Ne.symm own)).trans busy
        refine ⟨rest, same, ?_⟩
        rcases phase with performs | ⟨here, before⟩
        · exact Or.inl performs
        · exact Or.inr (extend here before fun mine => absurd mine own)

end ThreadSystem
