/-
Triples for programs that perform one kind of action.

Code outside of every critical section keeps its ghost value. Code inside a
critical section has the memory of the section to itself: with that memory as
its ghost value it does what a serial execution does, so what is known about the
serial execution is known about the section.
-/

import Fastmem.ThreadProtocol

set_option autoImplicit false

namespace Protocol

variable {M : Machine} {P : Protocol M} {t : Nat} {kind : P.Kind} {promise : P.Promise} {α : Type}

namespace Triple

variable {condition : (ρ : Type) → M.Act ρ → Prop}

theorem performs {ghost : P.Ghost} {program : Prog M.Act α}
    (attempt : ∀ {ρ : Type} (action : M.Act ρ), condition ρ action → P.Attempt kind ghost action)
    (keeps : ∀ {ρ : Type} (action : M.Act ρ) s ghosts result s', condition ρ action →
      P.Inv s ghosts → ghosts t = (kind, ghost) → M.exec t action s = some (result, s') →
      P.Inv s' ghosts)
    (work : program.Performs condition) :
    P.Triple t kind promise ghost program fun _ ghost' => ghost' = ghost := by
  intro n
  induction n generalizing program with
  | zero => exact trivial
  | succ n ih =>
      cases program with
      | ret value => exact rfl
      | act action next =>
          refine ⟨attempt action work.1, fun s ghosts result s' inv mine _ ran => ?_⟩
          refine ⟨ghost, ?_, ih (work.2 result)⟩
          rw [← mine, Function.update_eq_self]
          exact keeps action s ghosts result s' work.1 inv mine ran
      | loop body start next => exact ih work.unroll

/-- Actions that work on the memory `inside` a section the way they work on it serially. -/
theorem serial (inside : M.St → P.Ghost) {program : Prog M.Act α} (memory : M.St)
    (attempt : ∀ {ρ : Type} (action : M.Act ρ) memory, condition ρ action →
      P.Attempt kind (inside memory) action)
    (keeps : ∀ {ρ : Type} (action : M.Act ρ) memory s ghosts result s', condition ρ action →
      P.Inv s ghosts → ghosts t = (kind, inside memory) → M.exec t action s = some (result, s') →
      ∃ memory', M.exec t action memory = some (result, memory') ∧
        P.Inv s' (Function.update ghosts t (kind, inside memory')))
    (work : program.Performs condition) :
    P.Triple t kind promise (inside memory) program fun value ghost' =>
      ∃ memory', Machine.Exec M t program memory value memory' ∧ ghost' = inside memory' := by
  intro n
  induction n generalizing program memory with
  | zero => exact trivial
  | succ n ih =>
      cases program with
      | ret value => exact ⟨memory, .ret value memory, rfl⟩
      | act action next =>
          refine ⟨attempt action memory work.1, fun s ghosts result s' inv mine _ ran => ?_⟩
          obtain ⟨memory', ran', inv'⟩ :=
            keeps action memory s ghosts result s' work.1 inv mine ran
          refine ⟨inside memory', inv', Safe.mono ?_ (ih memory' (work.2 result))⟩
          rintro value _ ⟨final, rest, rfl⟩
          exact ⟨final, .act ran' rest, rfl⟩
      | loop body start next =>
          refine Safe.mono ?_ (ih memory work.unroll)
          rintro value _ ⟨final, rest, rfl⟩
          exact ⟨final, .loop rest, rfl⟩

end Triple

end Protocol
