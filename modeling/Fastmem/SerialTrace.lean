/-
Serial executions with the actions they perform.

An event is an action together with the state it met. A property of all events
of a program follows from its parts: sequences split their events, a loop keeps
an invariant of its states and each round is examined on its own.
-/

import Fastmem.SerialExecution

set_option autoImplicit false

namespace Machine

variable {M : Machine} {α β ρ σ ι : Type}

structure Event (M : Machine) where
  Res : Type
  action : M.Act Res
  before : M.St

/-- Thread `t`, running alone, performs these actions and returns. -/
inductive Traced (M : Machine) (t : Nat) {α : Type} :
    Prog M.Act α → M.St → List M.Event → α → M.St → Prop
  | ret (value : α) (s : M.St) : Traced M t (.ret value) s [] value s
  | act {ρ : Type} {action : M.Act ρ} {next : ρ → Prog M.Act α} {s mid final : M.St}
      {result : ρ} {value : α} {events : List M.Event}
      (ran : M.exec t action s = some (result, mid))
      (rest : Traced M t (next result) mid events value final) :
      Traced M t (.act action next) s (⟨ρ, action, s⟩ :: events) value final
  | loop {σ β : Type} {body : σ → Prog M.Act (σ ⊕ β)} {start : σ}
      {next : β → Prog M.Act α} {s final : M.St} {value : α} {events : List M.Event}
      (rest : Traced M t (Prog.unroll body start next) s events value final) :
      Traced M t (.loop body start next) s events value final

theorem Exec.traced {t : Nat} {program : Prog M.Act α} {s final : M.St} {value : α}
    (ran : Exec M t program s value final) : ∃ events, Traced M t program s events value final := by
  induction ran with
  | ret value s => exact ⟨[], .ret value s⟩
  | act ran _ ih =>
      obtain ⟨events, rest⟩ := ih
      exact ⟨_, .act ran rest⟩
  | loop _ ih =>
      obtain ⟨events, rest⟩ := ih
      exact ⟨events, .loop rest⟩

namespace Traced

variable {t : Nat} {events : List M.Event}

theorem exec {program : Prog M.Act α} {s final : M.St} {value : α}
    (ran : Traced M t program s events value final) : Exec M t program s value final := by
  induction ran with
  | ret value s => exact .ret value s
  | act ran _ ih => exact .act ran ih
  | loop _ ih => exact .loop ih

theorem ret_inv {value answer : α} {s final : M.St}
    (ran : Traced M t (.ret value) s events answer final) :
    events = [] ∧ answer = value ∧ final = s := by
  cases ran
  exact ⟨rfl, rfl, rfl⟩

theorem perform_inv {action : M.Act ρ} {s final : M.St} {value : ρ}
    (ran : Traced M t (Prog.perform action) s events value final) :
    M.exec t action s = some (value, final) ∧ events = [⟨ρ, action, s⟩] := by
  cases ran with
  | act ran rest =>
      obtain ⟨rfl, rfl, rfl⟩ := rest.ret_inv
      exact ⟨ran, rfl⟩

theorem perform_bind_inv {action : M.Act ρ} {f : ρ → Prog M.Act α} {s final : M.St}
    {value : α} (ran : Traced M t (Prog.perform action >>= f) s events value final) :
    ∃ result mid later, M.exec t action s = some (result, mid) ∧
      Traced M t (f result) mid later value final ∧ events = ⟨ρ, action, s⟩ :: later := by
  cases ran with
  | act ran rest => exact ⟨_, _, _, ran, rest, rfl⟩

theorem bind_inv {program : Prog M.Act α} {f : α → Prog M.Act β} {s final : M.St}
    {answer : β} (ran : Traced M t (program.bind f) s events answer final) :
    ∃ value mid first second, Traced M t program s first value mid ∧
      Traced M t (f value) mid second answer final ∧ events = first ++ second := by
  generalize isBind : program.bind f = whole at ran
  induction ran generalizing program with
  | ret answer s =>
      cases program with
      | ret value =>
          rw [Prog.ret_bind] at isBind
          exact ⟨value, s, [], [], .ret value s, by rw [isBind]; exact .ret answer s, rfl⟩
      | act => cases isBind
      | loop => cases isBind
  | @act _ _ _ s _ _ _ _ _ ran rest ih =>
      cases program with
      | ret value =>
          rw [Prog.ret_bind] at isBind
          exact ⟨value, s, [], _, .ret value s, by rw [isBind]; exact .act ran rest, rfl⟩
      | act action next =>
          cases isBind
          obtain ⟨value, mid, first, second, ran₁, ran₂, rfl⟩ := ih rfl
          exact ⟨value, mid, _ :: first, second, .act ran ran₁, ran₂, rfl⟩
      | loop => cases isBind
  | @loop _ _ _ _ _ s _ _ _ rest ih =>
      cases program with
      | ret value =>
          rw [Prog.ret_bind] at isBind
          exact ⟨value, s, [], _, .ret value s, by rw [isBind]; exact .loop rest, rfl⟩
      | act => cases isBind
      | loop body start next =>
          cases isBind
          obtain ⟨value, mid, first, second, ran₁, ran₂, rfl⟩ := ih (Prog.unroll_bind _ _ _ _)
          exact ⟨value, mid, first, second, .loop ran₁, ran₂, rfl⟩

theorem performs {condition : (ρ : Type) → M.Act ρ → Prop} {program : Prog M.Act α}
    {s final : M.St} {value : α} (work : program.Performs condition)
    (ran : Traced M t program s events value final) :
    ∀ event ∈ events, condition event.Res event.action := by
  induction ran with
  | ret value s => nofun
  | act ran _ ih =>
      intro event member
      rcases List.mem_cons.mp member with rfl | later
      · exact work.1
      · exact ih (work.2 _) event later
  | loop _ ih => exact ih work.unroll

/-- A loop: an invariant of its states that each round keeps, and what it says about the events
of one round. -/
theorem iterate_all {body : σ → Prog M.Act (σ ⊕ β)} {start : σ} {s final : M.St} {value : β}
    (meets : M.Event → Prop) (holds : σ → M.St → Prop)
    (round : ∀ state s events outcome mid, holds state s →
      Traced M t (body state) s events outcome mid →
      (∀ event ∈ events, meets event) ∧ ∀ again, outcome = .inl again → holds again mid)
    (initially : holds start s) (ran : Traced M t (Prog.iterate start body) s events value final) :
    ∀ event ∈ events, meets event := by
  -- strengthened to the inside of a round: what is left of it, then the rounds to come
  suffices general : ∀ (whole : Prog M.Act β) s events value final,
      Traced M t whole s events value final → ∀ inner : Prog M.Act (σ ⊕ β),
      inner.bind (Exec.resume body) = whole →
      (∀ events outcome mid, Traced M t inner s events outcome mid →
        (∀ event ∈ events, meets event) ∧ ∀ again, outcome = .inl again → holds again mid) →
      ∀ event ∈ events, meets event by
    refine general _ s events value final ran (.ret (.inl start)) rfl ?_
    intro events outcome mid ended
    obtain ⟨rfl, rfl, rfl⟩ := ended.ret_inv
    refine ⟨nofun, fun again same => ?_⟩
    cases same
    exact initially
  intro whole s events value final ran
  induction ran with
  | ret value s => nofun
  | @act _ action _ s mid final result value later ran rest ih =>
      intro inner isBind reaches
      cases inner with
      | ret outcome => cases outcome <;> cases isBind
      | act action next =>
          cases isBind
          intro event member
          rcases List.mem_cons.mp member with rfl | member
          · obtain ⟨_, _, first, _, ended, _⟩ := rest.bind_inv
            exact (reaches _ _ _ (.act ran ended)).1 _ (List.mem_cons_self ..)
          · refine ih (next result) rfl (fun events outcome mid ended => ?_) event member
            obtain ⟨all, again⟩ := reaches _ _ _ (.act ran ended)
            exact ⟨fun event member => all event (List.mem_cons_of_mem _ member), again⟩
      | loop => cases isBind
  | @loop _ _ body' start' _ s _ _ _ _ ih =>
      intro inner isBind reaches
      cases inner with
      | ret outcome =>
          cases outcome with
          | inl again =>
              cases isBind
              have here := (reaches _ _ _ (.ret _ s)).2 again rfl
              exact ih (body again) rfl fun events outcome mid ended =>
                round again s events outcome mid here ended
          | inr result => cases isBind
      | act => cases isBind
      | loop _ _ next'' =>
          cases isBind
          exact ih (Prog.unroll body' start' next'') (Prog.unroll_bind _ _ _ _)
            fun events outcome mid ended => reaches events outcome mid (.loop ended)

end Traced

end Machine
