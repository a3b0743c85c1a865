/-
Two machines side by side.

A program of one machine runs on a machine that has its actions, as far as they
act on its part of the state, and does nothing else there.
-/

import Fastmem.SerialExecution

set_option autoImplicit false

namespace Prog

variable {A B : Type → Type} {α β σ : Type}

def mapAct (f : {ρ : Type} → A ρ → B ρ) : {α : Type} → Prog A α → Prog B α
  | _, .ret value => .ret value
  | _, .act action next => .act (f action) fun result => mapAct f (next result)
  | _, .loop body start next =>
      .loop (fun state => mapAct f (body state)) start fun result => mapAct f (next result)

variable (f : {ρ : Type} → A ρ → B ρ)

theorem mapAct_bind (program : Prog A α) (g : α → Prog A β) :
    mapAct f (bind program g) = bind (mapAct f program) fun value => mapAct f (g value) := by
  induction program with
  | ret value => rfl
  | act action next ih =>
      simp only [act_bind, mapAct]
      exact congrArg (Prog.act (f action)) (funext fun result => ih result g)
  | loop body start next _ ih =>
      simp only [loop_bind, mapAct]
      exact congrArg (Prog.loop _ start) (funext fun result => ih result g)

theorem mapAct_unroll (body : σ → Prog A (σ ⊕ β)) (start : σ) (next : β → Prog A α) :
    mapAct f (unroll body start next) =
      unroll (fun state => mapAct f (body state)) start fun result => mapAct f (next result) := by
  unfold unroll
  rw [mapAct_bind]
  congr 1
  funext outcome
  cases outcome <;> rfl

end Prog

namespace Machine

variable {M N : Machine} {α : Type} {t : Nat}

inductive EitherAct (A B : Type → Type) (ρ : Type)
  | left (action : A ρ)
  | right (action : B ρ)

def prod (M N : Machine) : Machine where
  Act := EitherAct M.Act N.Act
  St := M.St × N.St
  exec t action st :=
    match action with
    | .left action => (M.exec t action st.1).map (Prod.map id fun s => (s, st.2))
    | .right action => (N.exec t action st.2).map (Prod.map id fun s => (st.1, s))

section Embedding

variable (f : {ρ : Type} → M.Act ρ → N.Act ρ) (put : M.St → N.St)
  (acts : ∀ {ρ : Type} (action : M.Act ρ) (s : M.St),
    N.exec t (f action) (put s) = (M.exec t action s).map (Prod.map id put))

include acts

theorem Exec.mapAct {program : Prog M.Act α} {s final : M.St} {value : α}
    (ran : Exec M t program s value final) :
    Exec N t (program.mapAct f) (put s) value (put final) := by
  induction ran with
  | ret value s => exact .ret value (put s)
  | act ran _ ih =>
      refine .act ?_ ih
      rw [acts, ran]
      rfl
  | loop _ ih =>
      apply Exec.loop
      rw [← Prog.mapAct_unroll]
      exact ih

theorem Exec.mapAct_inv {program : Prog M.Act α} {s : M.St} {value : α} {final : N.St}
    (ran : Exec N t (program.mapAct f) (put s) value final) :
    ∃ s', final = put s' ∧ Exec M t program s value s' := by
  generalize isMapped : program.mapAct f = whole at ran
  generalize isPut : put s = before at ran
  induction ran generalizing program s with
  | ret value st =>
      cases program with
      | ret value =>
          cases isMapped
          exact ⟨s, isPut.symm, .ret _ s⟩
      | act => cases isMapped
      | loop => cases isMapped
  | act ran _ ih =>
      cases program with
      | ret => cases isMapped
      | act action next =>
          cases isMapped
          subst isPut
          rw [acts] at ran
          cases mine : M.exec t action s with
          | none =>
              rw [mine] at ran
              cases ran
          | some pair =>
              rw [mine] at ran
              cases ran
              obtain ⟨s', ended, rest⟩ := ih rfl rfl
              exact ⟨s', ended, .act mine rest⟩
      | loop => cases isMapped
  | loop _ ih =>
      cases program with
      | ret => cases isMapped
      | act => cases isMapped
      | loop body start next =>
          cases isMapped
          obtain ⟨s', ended, rest⟩ := ih (Prog.mapAct_unroll f ..) isPut
          exact ⟨s', ended, .loop rest⟩

end Embedding

section Parts

variable {program : Prog M.Act α} {other : Prog N.Act α} {s : M.St} {b : N.St} {value : α}
  {final : M.St × N.St}

def onLeft (program : Prog M.Act α) : Prog (M.prod N).Act α := program.mapAct EitherAct.left

def onRight (program : Prog N.Act α) : Prog (M.prod N).Act α := program.mapAct EitherAct.right

theorem exec_onLeft {s' : M.St} (ran : Exec M t program s value s') :
    Exec (M.prod N) t (onLeft program) (s, b) value (s', b) :=
  Exec.mapAct (N := M.prod N) EitherAct.left (fun s => (s, b)) (fun _ _ => rfl) ran

theorem exec_onLeft_inv (ran : Exec (M.prod N) t (onLeft program) (s, b) value final) :
    ∃ s', final = (s', b) ∧ Exec M t program s value s' :=
  Exec.mapAct_inv (N := M.prod N) EitherAct.left (fun s => (s, b)) (fun _ _ => rfl) ran

theorem exec_onRight {b' : N.St} (ran : Exec N t other b value b') :
    Exec (M.prod N) t (onRight other) (s, b) value (s, b') :=
  Exec.mapAct (N := M.prod N) EitherAct.right (fun b => (s, b)) (fun _ _ => rfl) ran

theorem exec_onRight_inv (ran : Exec (M.prod N) t (onRight other) (s, b) value final) :
    ∃ b', final = (s, b') ∧ Exec N t other b value b' :=
  Exec.mapAct_inv (N := M.prod N) EitherAct.right (fun b => (s, b)) (fun _ _ => rfl) ran

end Parts

end Machine
