/-
Programs over atomic actions.

A program performs one atomic action after another on a state it shares with
other programs and computes between two actions in no time. An unbounded loop
is a constructor of its own, so a program that spins or that walks a cyclic
structure is an ordinary finite term. Meaning is given elsewhere: serially in
`SerialExecution`, under interference in `InterleavedSystem`.
-/

import Mathlib.Logic.Function.Basic

set_option autoImplicit false

inductive Prog (Act : Type → Type) : Type → Type 1
  | ret {α : Type} (value : α) : Prog Act α
  | act {ρ α : Type} (action : Act ρ) (next : ρ → Prog Act α) : Prog Act α
  | loop {σ β α : Type} (body : σ → Prog Act (σ ⊕ β)) (start : σ)
      (next : β → Prog Act α) : Prog Act α

namespace Prog

variable {Act : Type → Type} {α β γ ρ σ ι : Type}

def bind {α β : Type} : Prog Act α → (α → Prog Act β) → Prog Act β
  | .ret value, f => f value
  | .act action next, f => .act action fun result => bind (next result) f
  | .loop body start next, f => .loop body start fun result => bind (next result) f

instance : Monad (Prog Act) where
  pure := .ret
  bind := bind

def perform (action : Act ρ) : Prog Act ρ := .act action .ret

/-- Repeat `body`: a left result is the loop state of the next round, a right
result leaves the loop. -/
def iterate (start : σ) (body : σ → Prog Act (σ ⊕ β)) : Prog Act β :=
  .loop body start .ret

/-- The loop `for (item : items) body(item)`. -/
def forEach : List ι → (ι → Prog Act Unit) → Prog Act Unit
  | [], _ => .ret ()
  | item :: rest, body => bind (body item) fun _ => forEach rest body

def foldEach (step : β → ι → Prog Act β) : β → List ι → Prog Act β
  | accumulator, [] => .ret accumulator
  | accumulator, item :: rest =>
      bind (step accumulator item) fun updated => foldEach step updated rest

def unroll (body : σ → Prog Act (σ ⊕ β)) (start : σ) (next : β → Prog Act α) :
    Prog Act α :=
  bind (body start) fun
    | .inl again => .loop body again next
    | .inr result => next result

@[simp] theorem pure_eq_ret (value : α) : (pure value : Prog Act α) = .ret value := rfl

@[simp] theorem bind_eq (program : Prog Act α) (f : α → Prog Act β) :
    program >>= f = bind program f := rfl

@[simp] theorem ret_bind (value : α) (f : α → Prog Act β) :
    bind (.ret value) f = f value := rfl

@[simp] theorem act_bind (action : Act ρ) (next : ρ → Prog Act α) (f : α → Prog Act β) :
    bind (.act action next) f = .act action fun result => bind (next result) f := rfl

@[simp] theorem loop_bind (body : σ → Prog Act (σ ⊕ β)) (start : σ)
    (next : β → Prog Act α) (f : α → Prog Act γ) :
    bind (.loop body start next) f = .loop body start fun result => bind (next result) f := rfl

@[simp] theorem bind_ret (program : Prog Act α) : bind program .ret = program := by
  induction program with
  | ret value => rfl
  | act action next ih =>
      rw [act_bind]
      exact congrArg (Prog.act action) (funext ih)
  | loop body start next _ ih =>
      rw [loop_bind]
      exact congrArg (Prog.loop body start) (funext ih)

theorem bind_assoc (program : Prog Act α) (f : α → Prog Act β) (g : β → Prog Act γ) :
    bind (bind program f) g = bind program fun value => bind (f value) g := by
  induction program with
  | ret value => rfl
  | act action next ih =>
      simp only [act_bind]
      exact congrArg (Prog.act action) (funext fun result => ih result f)
  | loop body start next _ ih =>
      simp only [loop_bind]
      exact congrArg (Prog.loop body start) (funext fun result => ih result f)

theorem unroll_bind (body : σ → Prog Act (σ ⊕ β)) (start : σ) (next : β → Prog Act α)
    (f : α → Prog Act γ) :
    bind (unroll body start next) f = unroll body start fun result => bind (next result) f := by
  unfold unroll
  rw [bind_assoc]
  congr 1
  funext outcome
  cases outcome <;> rfl

theorem iterate_bind (start : σ) (body : σ → Prog Act (σ ⊕ β)) (f : β → Prog Act α) :
    bind (iterate start body) f = .loop body start f := rfl

/-! ### The actions a program can come to -/

/-- Every action the program can come to, whatever its earlier actions returned, meets a
condition. -/
def Performs (condition : (ρ : Type) → Act ρ → Prop) : {α : Type} → Prog Act α → Prop
  | _, .ret _ => True
  | _, .act action next =>
      condition _ action ∧ ∀ result, Performs condition (next result)
  | _, .loop body _ next =>
      (∀ state, Performs condition (body state)) ∧ ∀ result, Performs condition (next result)

namespace Performs

variable {condition : (ρ : Type) → Act ρ → Prop}

theorem ret (value : α) : Performs condition (.ret value : Prog Act α) := trivial

theorem perform {action : Act ρ} (meets : condition ρ action) :
    Performs condition (Prog.perform action) :=
  ⟨meets, fun _ => trivial⟩

theorem bind {program : Prog Act α} {f : α → Prog Act β} (first : Performs condition program)
    (second : ∀ value, Performs condition (f value)) :
    Performs condition (program.bind f) := by
  induction program with
  | ret value => exact second value
  | act action next ih => exact ⟨first.1, fun result => ih result (first.2 result) second⟩
  | loop body start next _ ih =>
      exact ⟨first.1, fun result => ih result (first.2 result) second⟩

theorem mono {condition' : (ρ : Type) → Act ρ → Prop} {program : Prog Act α}
    (weaker : ∀ (ρ : Type) (action : Act ρ), condition ρ action → condition' ρ action)
    (performs : Performs condition program) : Performs condition' program := by
  induction program with
  | ret value => trivial
  | act action next ih =>
      exact ⟨weaker _ action performs.1, fun result => ih result (performs.2 result)⟩
  | loop body start next ihBody ihNext =>
      exact ⟨fun state => ihBody state (performs.1 state),
        fun result => ihNext result (performs.2 result)⟩

theorem of_all (all : ∀ (ρ : Type) (action : Act ρ), condition ρ action) (program : Prog Act α) :
    Performs condition program := by
  induction program with
  | ret value => trivial
  | act action next ih => exact ⟨all _ action, ih⟩
  | loop body start next ihBody ihNext => exact ⟨ihBody, ihNext⟩

theorem step {action : Act ρ} {f : ρ → Prog Act α} (meets : condition ρ action)
    (rest : ∀ result, Performs condition (f result)) :
    Performs condition (Prog.perform action >>= f) :=
  ⟨meets, rest⟩

theorem iterate {start : σ} {body : σ → Prog Act (σ ⊕ β)}
    (round : ∀ state, Performs condition (body state)) :
    Performs condition (Prog.iterate start body) :=
  ⟨round, fun _ => trivial⟩

theorem unroll {body : σ → Prog Act (σ ⊕ β)} {start : σ} {next : β → Prog Act α}
    (performs : Performs condition (.loop body start next)) :
    Performs condition (Prog.unroll body start next) :=
  (performs.1 start).bind fun
    | .inl _ => performs
    | .inr result => performs.2 result

theorem forEach {items : List ι} {body : ι → Prog Act Unit}
    (round : ∀ item ∈ items, Performs condition (body item)) :
    Performs condition (Prog.forEach items body) := by
  induction items with
  | nil => exact ret ()
  | cons item rest ih =>
      refine (round item (List.mem_cons_self ..)).bind fun _ => ih fun later member => ?_
      exact round later (List.mem_cons_of_mem item member)

theorem foldEach {accumulate : β → ι → Prog Act β} {items : List ι}
    (round : ∀ accumulator, ∀ item ∈ items, Performs condition (accumulate accumulator item))
    (accumulator : β) : Performs condition (Prog.foldEach accumulate accumulator items) := by
  induction items generalizing accumulator with
  | nil => exact ret accumulator
  | cons item rest ih =>
      refine (round accumulator item (List.mem_cons_self ..)).bind fun updated => ih ?_ updated
      exact fun accumulator later member =>
        round accumulator later (List.mem_cons_of_mem item member)

end Performs

end Prog
