/-
Machines and serial execution.

A machine interprets atomic actions as partial functions on its state: an
action without a result is disabled, the way a lock acquisition is while the
lock is taken. `Exec` runs one thread alone until its program returns. A
derivation of `Exec` is finite, so proving it proves that the program returns.
-/

import Fastmem.AtomicProgram

set_option autoImplicit false

structure Machine where
  Act : Type → Type
  St : Type
  exec : {ρ : Type} → Nat → Act ρ → St → Option (ρ × St)

namespace Machine

variable {M : Machine} {α β ρ σ ι : Type}

/-- Thread `t`, running alone from a state, returns a value in a final state. -/
inductive Exec (M : Machine) (t : Nat) {α : Type} : Prog M.Act α → M.St → α → M.St → Prop
  | ret (value : α) (s : M.St) : Exec M t (.ret value) s value s
  | act {ρ : Type} {action : M.Act ρ} {next : ρ → Prog M.Act α} {s mid final : M.St}
      {result : ρ} {value : α} (ran : M.exec t action s = some (result, mid))
      (rest : Exec M t (next result) mid value final) :
      Exec M t (.act action next) s value final
  | loop {σ β : Type} {body : σ → Prog M.Act (σ ⊕ β)} {start : σ}
      {next : β → Prog M.Act α} {s final : M.St} {value : α}
      (rest : Exec M t (Prog.unroll body start next) s value final) :
      Exec M t (.loop body start next) s value final

namespace Exec

variable {t : Nat}

theorem perform {action : M.Act ρ} {s final : M.St} {result : ρ}
    (ran : M.exec t action s = some (result, final)) :
    Exec M t (Prog.perform action) s result final :=
  .act ran (.ret result final)

theorem bind {program : Prog M.Act α} {f : α → Prog M.Act β} {s mid final : M.St}
    {value : α} {answer : β} (first : Exec M t program s value mid)
    (second : Exec M t (f value) mid answer final) :
    Exec M t (program.bind f) s answer final := by
  induction first with
  | ret value s => exact second
  | act ran _ ih => exact .act ran (ih second)
  | @loop σ γ body start next s final value _ ih =>
      apply Exec.loop
      rw [← Prog.unroll_bind]
      exact ih second

theorem iterate_again {body : σ → Prog M.Act (σ ⊕ β)} {start again : σ}
    {s mid final : M.St} {value : β}
    (round : Exec M t (body start) s (.inl again) mid)
    (rest : Exec M t (Prog.iterate again body) mid value final) :
    Exec M t (Prog.iterate start body) s value final :=
  .loop (round.bind rest)

theorem iterate_leave {body : σ → Prog M.Act (σ ⊕ β)} {start : σ}
    {s final : M.St} {value : β}
    (round : Exec M t (body start) s (.inr value) final) :
    Exec M t (Prog.iterate start body) s value final :=
  .loop (round.bind (.ret value final))

/-- A bounded loop returns when every round keeps an invariant indexed by the
items still to come. -/
theorem forEach (holds : List ι → M.St → Prop) {body : ι → Prog M.Act Unit}
    (round : ∀ item rest s, holds (item :: rest) s →
      ∃ final, Exec M t (body item) s () final ∧ holds rest final)
    (items : List ι) (s : M.St) (before : holds items s) :
    ∃ final, Exec M t (Prog.forEach items body) s () final ∧ holds [] final := by
  induction items generalizing s with
  | nil => exact ⟨s, .ret () s, before⟩
  | cons item rest ih =>
      obtain ⟨mid, ran, after⟩ := round item rest s before
      obtain ⟨final, finished, done⟩ := ih mid after
      exact ⟨final, ran.bind finished, done⟩

theorem deterministic {program : Prog M.Act α} {s left right : M.St} {a b : α}
    (first : Exec M t program s a left) (second : Exec M t program s b right) :
    a = b ∧ left = right := by
  induction first with
  | ret value s =>
      cases second
      exact ⟨rfl, rfl⟩
  | act ran _ ih =>
      cases second with
      | act ranAgain restAgain =>
          rw [ran] at ranAgain
          cases ranAgain
          exact ih restAgain
  | loop _ ih =>
      cases second with
      | loop restAgain => exact ih restAgain

theorem ret_inv {value answer : α} {s final : M.St}
    (ran : Exec M t (.ret value) s answer final) : answer = value ∧ final = s := by
  cases ran
  exact ⟨rfl, rfl⟩

theorem perform_bind_inv {action : M.Act ρ} {f : ρ → Prog M.Act α} {s final : M.St}
    {value : α} (ran : Exec M t (Prog.perform action >>= f) s value final) :
    ∃ result mid, M.exec t action s = some (result, mid) ∧
      Exec M t (f result) mid value final := by
  cases ran with
  | act ran rest => exact ⟨_, _, ran, rest⟩

theorem bind_inv {program : Prog M.Act α} {f : α → Prog M.Act β} {s final : M.St}
    {answer : β} (ran : Exec M t (program.bind f) s answer final) :
    ∃ value mid, Exec M t program s value mid ∧ Exec M t (f value) mid answer final := by
  generalize isBind : program.bind f = whole at ran
  induction ran generalizing program with
  | ret answer s =>
      cases program with
      | ret value =>
          rw [Prog.ret_bind] at isBind
          exact ⟨value, s, .ret value s, by rw [isBind]; exact .ret answer s⟩
      | act => cases isBind
      | loop => cases isBind
  | @act _ _ _ s _ _ _ _ ran rest ih =>
      cases program with
      | ret value =>
          rw [Prog.ret_bind] at isBind
          exact ⟨value, s, .ret value s, by rw [isBind]; exact .act ran rest⟩
      | act action next =>
          cases isBind
          obtain ⟨value, mid, first, second⟩ := ih rfl
          exact ⟨value, mid, .act ran first, second⟩
      | loop => cases isBind
  | @loop _ _ _ _ _ s _ _ rest ih =>
      cases program with
      | ret value =>
          rw [Prog.ret_bind] at isBind
          exact ⟨value, s, .ret value s, by rw [isBind]; exact .loop rest⟩
      | act => cases isBind
      | loop body start next =>
          cases isBind
          obtain ⟨value, mid, first, second⟩ := ih (Prog.unroll_bind _ _ _ _)
          exact ⟨value, mid, .loop first, second⟩

def resume (body : σ → Prog M.Act (σ ⊕ β)) : σ ⊕ β → Prog M.Act β
  | .inl again => .loop body again .ret
  | .inr result => .ret result

/-- A loop that was left: an invariant of its states that each round keeps is available in
the last round. -/
theorem iterate_inv {body : σ → Prog M.Act (σ ⊕ β)} {start : σ} {s final : M.St} {value : β}
    (holds : σ → M.St → Prop)
    (round : ∀ state s again mid, holds state s → Exec M t (body state) s (.inl again) mid →
      holds again mid)
    (initially : holds start s) (ran : Exec M t (Prog.iterate start body) s value final) :
    ∃ state mid, holds state mid ∧ Exec M t (body state) mid (.inr value) final := by
  -- strengthened to the inside of a round: what is left of it, then the rounds to come
  suffices general : ∀ (whole : Prog M.Act β) s value final, Exec M t whole s value final →
      ∀ inner : Prog M.Act (σ ⊕ β),
      inner.bind (resume body) = whole →
      (∀ again mid, Exec M t inner s (.inl again) mid → holds again mid) →
      Exec M t inner s (.inr value) final ∨
        ∃ state mid, holds state mid ∧ Exec M t (body state) mid (.inr value) final by
    rcases general _ s value final ran (.ret (.inl start)) rfl (by
      intro again mid ended
      obtain ⟨same, rfl⟩ := ended.ret_inv
      cases same
      exact initially) with ended | found
    · cases ended
    · exact found
  intro whole s value final ran
  induction ran with
  | ret value s =>
      intro inner isBind _
      cases inner with
      | ret outcome =>
          cases outcome with
          | inl again => cases isBind
          | inr result =>
              cases isBind
              exact Or.inl (.ret _ s)
      | act => cases isBind
      | loop => cases isBind
  | act ran rest ih =>
      intro inner isBind reaches
      cases inner with
      | ret outcome => cases outcome <;> cases isBind
      | act action next =>
          cases isBind
          rcases ih (next _) rfl (fun again mid later => reaches again mid (.act ran later)) with
            ended | found
          · exact Or.inl (.act ran ended)
          · exact Or.inr found
      | loop => cases isBind
  | @loop _ _ body' start' _ s _ _ _ ih =>
      intro inner isBind reaches
      cases inner with
      | ret outcome =>
          cases outcome with
          | inl again =>
              cases isBind
              have here := reaches again s (.ret _ s)
              rcases ih (body again) rfl
                (fun later mid again' => round again s later mid here again') with ended | found
              · exact Or.inr ⟨again, s, here, ended⟩
              · exact Or.inr found
          | inr result => cases isBind
      | act => cases isBind
      | loop _ _ next'' =>
          cases isBind
          rcases ih (Prog.unroll body' start' next'') (Prog.unroll_bind _ _ _ _)
            (fun again mid later => reaches again mid (.loop later)) with ended | found
          · exact Or.inl (.loop ended)
          · exact Or.inr found

/-! ### What follows from the actions alone -/

section Actions

variable {condition : (ρ : Type) → M.Act ρ → Prop}

theorem related {holds : M.St → M.St → Prop} (refl : ∀ s, holds s s)
    (trans : ∀ s mid final, holds s mid → holds mid final → holds s final)
    (each : ∀ {ρ : Type} (action : M.Act ρ) s result mid, condition ρ action →
      M.exec t action s = some (result, mid) → holds s mid)
    {program : Prog M.Act α} {s final : M.St} {value : α}
    (performs : program.Performs condition) (ran : Exec M t program s value final) :
    holds s final := by
  induction ran with
  | ret value s => exact refl s
  | act ran _ ih => exact trans _ _ _ (each _ _ _ _ performs.1 ran) (ih (performs.2 _))
  | loop _ ih => exact ih performs.unroll

/-- A program runs the same way from the image of a state under a map that commutes with its
actions. -/
theorem mapped {f : M.St → M.St}
    (commutes : ∀ {ρ : Type} (action : M.Act ρ) s, condition ρ action →
      M.exec t action (f s) = (M.exec t action s).map (Prod.map id f))
    {program : Prog M.Act α} {s final : M.St} {value : α}
    (performs : program.Performs condition) (ran : Exec M t program s value final) :
    Exec M t program (f s) value (f final) := by
  induction ran with
  | ret value s => exact .ret value (f s)
  | act ran _ ih =>
      refine .act ?_ (ih (performs.2 _))
      rw [commutes _ _ performs.1, ran]
      rfl
  | loop _ ih => exact .loop (ih performs.unroll)

end Actions

end Exec

/-! ### Evaluation -/

/-- Run a program for at most so many steps. -/
def evaluate (M : Machine) (t : Nat) : Nat → Prog M.Act α → M.St → Option (α × M.St)
  | 0, _, _ => none
  | _ + 1, .ret value, s => some (value, s)
  | fuel + 1, .act action next, s =>
      match M.exec t action s with
      | none => none
      | some (result, mid) => evaluate M t fuel (next result) mid
  | fuel + 1, .loop body start next, s => evaluate M t fuel (Prog.unroll body start next) s

theorem exec_of_evaluate {t fuel : Nat} {program : Prog M.Act α} {s final : M.St} {value : α}
    (evaluated : M.evaluate t fuel program s = some (value, final)) :
    M.Exec t program s value final := by
  induction fuel generalizing program s with
  | zero => cases evaluated
  | succ fuel ih =>
      cases program with
      | ret value =>
          cases evaluated
          exact .ret ..
      | act action next =>
          simp only [evaluate] at evaluated
          split at evaluated
          · cases evaluated
          · rename_i ran
            exact .act ran (ih evaluated)
      | loop body start next => exact .loop (ih evaluated)

end Machine
