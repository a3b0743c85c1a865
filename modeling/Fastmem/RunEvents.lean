/-
Runs with a record of their actions.

`Does` reads a thread's program off the states of a run and forgets which step
performed which action. A machine that also keeps the labels of its actions
runs the same programs, and in a run of it every action of a program is found
again among the events. A rule on an action and the code behind it holds at
every step of every run if it holds in the code of the calls.
-/

import Fastmem.InterleavedSystem
import Mathlib.Data.Nat.Init

set_option autoImplicit false

namespace Prog

variable {Act : Type → Type} {α β ρ σ ι : Type}

/-- A rule on an action and the code behind it that more code behind it does not break. -/
structure Rule (Act : Type → Type) : Type 1 where
  holds : (ρ α : Type) → Act ρ → (ρ → Prog Act α) → Prop
  bind : ∀ {ρ α β : Type} {action : Act ρ} {next : ρ → Prog Act α} (f : α → Prog Act β),
    holds ρ α action next → holds ρ β action fun result => (next result).bind f

def Heeds (rule : Rule Act) : {α : Type} → Prog Act α → Prop
  | _, .ret _ => True
  | α, .act action next => rule.holds _ α action next ∧ ∀ result, Heeds rule (next result)
  | _, .loop body _ next =>
      (∀ state, Heeds rule (body state)) ∧ ∀ result, Heeds rule (next result)

namespace Heeds

variable {rule : Rule Act}

theorem ret (value : α) : Heeds rule (.ret value : Prog Act α) := trivial

theorem bind {program : Prog Act α} {f : α → Prog Act β} (first : Heeds rule program)
    (second : ∀ value, Heeds rule (f value)) : Heeds rule (program.bind f) := by
  induction program with
  | ret value => exact second value
  | act action next ih =>
      exact ⟨rule.bind f first.1, fun result => ih result (first.2 result) second⟩
  | loop body start next _ ih =>
      exact ⟨first.1, fun result => ih result (first.2 result) second⟩

theorem perform {action : Act ρ} (meets : rule.holds ρ ρ action .ret) :
    Heeds rule (Prog.perform action) :=
  ⟨meets, fun _ => trivial⟩

theorem step {action : Act ρ} {f : ρ → Prog Act α} (meets : rule.holds ρ α action f)
    (rest : ∀ result, Heeds rule (f result)) : Heeds rule (Prog.perform action >>= f) :=
  ⟨meets, rest⟩

theorem iterate {start : σ} {body : σ → Prog Act (σ ⊕ β)}
    (round : ∀ state, Heeds rule (body state)) : Heeds rule (Prog.iterate start body) :=
  ⟨round, fun _ => trivial⟩

theorem mono {rule' : Rule Act}
    (weaker : ∀ {ρ α : Type} {action : Act ρ} {next : ρ → Prog Act α},
      rule.holds ρ α action next → rule'.holds ρ α action next)
    {program : Prog Act α} (heeds : Heeds rule program) : Heeds rule' program := by
  induction program with
  | ret value => trivial
  | act action next ih =>
      exact ⟨weaker heeds.1, fun result => ih result (heeds.2 result)⟩
  | loop body start next ihBody ihNext =>
      exact ⟨fun state => ihBody state (heeds.1 state), fun result => ihNext result (heeds.2 result)⟩

theorem of_performs {condition : (ρ : Type) → Act ρ → Prop} {program : Prog Act α}
    (enough : ∀ {ρ α : Type} {action : Act ρ} (next : ρ → Prog Act α), condition ρ action →
      rule.holds ρ α action next)
    (performs : program.Performs condition) : Heeds rule program := by
  induction program with
  | ret value => trivial
  | act action next ih =>
      exact ⟨enough next performs.1, fun result => ih result (performs.2 result)⟩
  | loop body start next ihBody ihNext =>
      exact ⟨fun state => ihBody state (performs.1 state),
        fun result => ihNext result (performs.2 result)⟩

theorem unroll {body : σ → Prog Act (σ ⊕ β)} {start : σ} {next : β → Prog Act α}
    (heeds : Heeds rule (.loop body start next)) : Heeds rule (Prog.unroll body start next) :=
  (heeds.1 start).bind fun
    | .inl _ => heeds
    | .inr result => heeds.2 result

theorem forEach {items : List ι} {body : ι → Prog Act Unit}
    (round : ∀ item ∈ items, Heeds rule (body item)) :
    Heeds rule (Prog.forEach items body) := by
  induction items with
  | nil => exact ret ()
  | cons item rest ih =>
      refine (round item (List.mem_cons_self ..)).bind fun _ => ih fun later member => ?_
      exact round later (List.mem_cons_of_mem item member)

end Heeds

end Prog

namespace ThreadSystem

variable {M : Machine} {S : ThreadSystem M}

/-! ### One step of a run -/

theorem Run.acts {R : S.Run} {i : Nat} (bound : i < R.len) :
    (∃ call ρ, ∃ (action : M.Act ρ) (next : ρ → Prog M.Act (S.Res × S.Loc)) (result : ρ),
      (R.cfg i).thread (R.tid i) = .busy call (.act action next) ∧
      R.ev i = .act action result ∧
      M.exec (R.tid i) action (R.st i) = some (result, R.st (i + 1)) ∧
      (R.cfg (i + 1)).thread (R.tid i) = .busy call (next result)) ∨
    ((∀ (ρ : Type) (action : M.Act ρ) (result : ρ), R.ev i ≠ .act action result) ∧
      R.st (i + 1) = R.st i) := by
  have step := R.step i bound
  unfold Run.st
  generalize R.ev i = event at step
  generalize R.cfg (i + 1) = after at step
  cases step with
  | start call idle promised => exact Or.inr ⟨fun _ _ _ clash => (by cases clash), rfl⟩
  | act busy ran =>
      exact Or.inl ⟨_, _, _, _, _, busy, rfl, ran, Function.update_self ..⟩
  | unroll busy => exact Or.inr ⟨fun _ _ _ clash => (by cases clash), rfl⟩
  | finish busy => exact Or.inr ⟨fun _ _ _ clash => (by cases clash), rfl⟩

theorem Run.event_of_busy {R : S.Run} {i : Nat} (bound : i < R.len) {call : S.Call} {ρ : Type}
    {action : M.Act ρ} {next : ρ → Prog M.Act (S.Res × S.Loc)}
    (busy : (R.cfg i).thread (R.tid i) = .busy call (.act action next)) :
    ∃ result, R.ev i = .act action result := by
  have step := R.step i bound
  generalize R.ev i = event at step
  generalize R.cfg (i + 1) = after at step
  cases step with
  | start call idle promised =>
      rw [busy] at idle
      cases idle
  | act busy' ran =>
      rw [busy] at busy'
      cases busy'
      exact ⟨_, rfl⟩
  | unroll busy' =>
      rw [busy] at busy'
      cases busy'
  | finish busy' =>
      rw [busy] at busy'
      cases busy'

theorem Does.loop_inv {st : Nat → M.St} {tid : Nat → Nat} {t i j : Nat} {σ β α : Type}
    {body : σ → Prog M.Act (σ ⊕ β)} {start : σ} {next : β → Prog M.Act α} {value : α}
    (does : Does st tid t i (.loop body start next) j value) :
    ∃ m, i ≤ m ∧ st (m + 1) = st m ∧ (∀ k, i ≤ k → k < m → tid k ≠ t) ∧
      Does st tid t (m + 1) (Prog.unroll body start next) j value := by
  generalize isLoop : Prog.loop body start next = program at does
  induction does with
  | ret => cases isLoop
  | @wait i j program value other rest ih =>
      obtain ⟨m, lower, same, resting, unrolled⟩ := ih isLoop
      refine ⟨m, Nat.le_of_succ_le lower, same, fun k lowerK upperK => ?_, unrolled⟩
      rcases Nat.eq_or_lt_of_le lowerK with rfl | later
      · exact other
      · exact resting k later upperK
  | act => cases isLoop
  | @loop i j _ _ _ _ _ value own same rest =>
      cases isLoop
      exact ⟨i, Nat.le_refl i, same, fun k lower upper => absurd upper (Nat.not_lt.mpr lower), rest⟩

/-- The code of every call heeds the rule, so the rest of every running call does. -/
theorem Run.heeds {R : S.Run} {s : M.St} {kept : S.Loc} {rule : Prog.Rule M.Act}
    (starts : R.StartsIn s kept) (codes : ∀ t call kept, (S.code t call kept).Heeds rule) :
    ∀ i, i ≤ R.len → ∀ t call program, (R.cfg i).thread t = .busy call program →
      program.Heeds rule := by
  refine @Run.invariant _ _ R (fun c => ∀ t call program,
    c.thread t = .busy call program → program.Heeds rule) ?_ ?_
  · intro t call program busy
    rw [starts] at busy
    cases busy
  · intro i bound before t call program busy
    by_cases own : t = R.tid i
    · subst own
      have step := R.step i bound
      generalize R.ev i = event at step
      generalize R.cfg (i + 1) = after at step busy
      cases step with
      | start call' idle promised =>
          simp only [Config.set, Function.update_self] at busy
          cases busy
          exact codes _ _ _
      | act busy' ran =>
          simp only [Function.update_self] at busy
          cases busy
          exact (before _ _ _ busy').2 _
      | unroll busy' =>
          simp only [Config.set, Function.update_self] at busy
          cases busy
          exact (before _ _ _ busy').unroll
      | finish busy' =>
          simp only [Config.set, Function.update_self] at busy
          cases busy
    · rw [(R.step i bound).others own] at busy
      exact before t call program busy

theorem Run.calls_meet {R : S.Run} {s : M.St} {kept : S.Loc} {condition : S.Call → Prop}
    (starts : R.StartsIn s kept)
    (meets : ∀ i, i < R.len → ∀ call, R.ev i = .start call → condition call) :
    ∀ i, i ≤ R.len → ∀ t call program, (R.cfg i).thread t = .busy call program →
      condition call := by
  refine @Run.invariant _ _ R (fun c => ∀ t call program,
    c.thread t = .busy call program → condition call) ?_ ?_
  · intro t call program busy
    rw [starts] at busy
    cases busy
  · intro i bound before t call program busy
    by_cases own : t = R.tid i
    · subst own
      have step := R.step i bound
      have starting := meets i bound
      generalize R.ev i = event at step starting
      generalize R.cfg (i + 1) = after at step busy
      cases step with
      | start call' idle promised =>
          simp only [Config.set, Function.update_self] at busy
          cases busy
          exact starting _ rfl
      | act busy' ran =>
          simp only [Function.update_self] at busy
          cases busy
          exact before _ _ _ busy'
      | unroll busy' =>
          simp only [Config.set, Function.update_self] at busy
          cases busy
          exact before _ _ _ busy'
      | finish busy' =>
          simp only [Config.set, Function.update_self] at busy
          cases busy
    · rw [(R.step i bound).others own] at busy
      exact before t call program busy

theorem Run.call_started {R : S.Run} {s : M.St} {kept : S.Loc} (starts : R.StartsIn s kept)
    {t : Nat} {call : S.Call} :
    ∀ m, m ≤ R.len → ∀ program, (R.cfg m).thread t = .busy call program →
      ∃ i before, i < m ∧ (R.cfg i).thread t = .idle before ∧
        (R.cfg (i + 1)).thread t = .busy call (S.code t call before) ∧
        ∀ k, i < k → k ≤ m → ∃ program, (R.cfg k).thread t = .busy call program := by
  intro m
  induction m with
  | zero =>
      intro _ program busy
      rw [starts] at busy
      cases busy
  | succ m ih =>
      intro bound program busy
      have continued : ∀ program', (R.cfg m).thread t = .busy call program' →
          ∃ i before, i < m + 1 ∧ (R.cfg i).thread t = .idle before ∧
            (R.cfg (i + 1)).thread t = .busy call (S.code t call before) ∧
            ∀ k, i < k → k ≤ m + 1 → ∃ program, (R.cfg k).thread t = .busy call program := by
        intro program' before'
        obtain ⟨i, before, lower, idle, running, inside⟩ :=
          ih (Nat.le_of_succ_le bound) program' before'
        refine ⟨i, before, by omega, idle, running, fun k above upper => ?_⟩
        rcases Nat.lt_or_ge k (m + 1) with earlier | last
        · exact inside k above (by omega)
        · obtain rfl : k = m + 1 := by omega
          exact ⟨program, busy⟩
      have step := R.step m bound
      by_cases own : t = R.tid m
      · subst own
        generalize R.ev m = event at step
        generalize atEnd : R.cfg (m + 1) = after at step busy
        cases step with
        | start call' idle promised =>
            simp only [Config.set, Function.update_self] at busy
            cases busy
            refine ⟨m, _, Nat.lt_succ_self m, idle, ?_, fun k above upper => ?_⟩
            · rw [atEnd]
              exact Function.update_self ..
            · obtain rfl : k = m + 1 := by omega
              rw [atEnd]
              exact ⟨_, Function.update_self ..⟩
        | act busy' ran =>
            simp only [Function.update_self] at busy
            cases busy
            exact continued _ busy'
        | unroll busy' =>
            simp only [Config.set, Function.update_self] at busy
            cases busy
            exact continued _ busy'
        | finish busy' =>
            simp only [Config.set, Function.update_self] at busy
            cases busy
      · rw [step.others own] at busy
        exact continued program busy

theorem Run.call_returned {R : S.Run} {s : M.St} {kept : S.Loc} (starts : R.StartsIn s kept)
    {t m b : Nat} {call : S.Call} {program : Prog M.Act (S.Res × S.Loc)} (order : m ≤ b)
    (bound : b ≤ R.len) (busy : (R.cfg m).thread t = .busy call program)
    (left : ∀ program, (R.cfg b).thread t ≠ .busy call program) :
    ∃ i before j result after, i < m ∧ m ≤ j ∧ j < b ∧
      R.Returned t call before i j result after := by
  obtain ⟨i, before, lower, idle, running, inside⟩ :=
    R.call_started starts m (by omega) program busy
  have followed : (∃ j result after, m ≤ j ∧ j < b ∧ R.Returned t call before i j result after) ∨
      ∀ k, i < k → k ≤ b → ∃ program, (R.cfg k).thread t = .busy call program := by
    clear left
    induction b, order using Nat.le_induction with
    | base => exact Or.inr inside
    | succ b order ih =>
        rcases ih (Nat.le_of_succ_le bound) with ⟨j, result, after, from_, until_, returned⟩ | still
        · exact Or.inl ⟨j, result, after, from_, by omega, returned⟩
        · obtain ⟨rest, now⟩ := still b (by omega) (Nat.le_refl b)
          have extend : (∃ program, (R.cfg (b + 1)).thread t = .busy call program) →
              ∀ k, i < k → k ≤ b + 1 → ∃ program, (R.cfg k).thread t = .busy call program := by
            intro next k above upper
            rcases Nat.lt_or_ge k (b + 1) with earlier | last
            · exact still k above (by omega)
            · obtain rfl : k = b + 1 := by omega
              exact next
          have step := R.step b bound
          by_cases own : R.tid b = t
          · rw [own] at step
            generalize R.ev b = event at step
            generalize R.cfg (b + 1) = after at step extend
            cases step with
            | start call' idle' promised =>
                rw [now] at idle'
                cases idle'
            | act busy' ran =>
                rw [now] at busy'
                cases busy'
                exact Or.inr (extend ⟨_, Function.update_self ..⟩)
            | unroll busy' =>
                rw [now] at busy'
                cases busy'
                exact Or.inr (extend ⟨_, Function.update_self ..⟩)
            | finish busy' =>
                rw [now] at busy'
                cases busy'
                exact Or.inl ⟨b, _, _, order, Nat.lt_succ_self b, idle, running, still, by omega,
                  bound, now, own⟩
          · exact Or.inr (extend ⟨rest, (step.others (Ne.symm own)).trans now⟩)
  rcases followed with ⟨j, result, after, from_, until_, returned⟩ | still
  · exact ⟨i, before, j, result, after, lower, from_, until_, returned⟩
  · obtain ⟨rest, now⟩ := still b (by omega) (Nat.le_refl b)
    exact absurd now (left rest)

theorem Run.rest_same {R : S.Run} {i : Nat} (bound : i < R.len)
    (rests : ∀ (call : S.Call) (ρ : Type) (action : M.Act ρ)
      (next : ρ → Prog M.Act (S.Res × S.Loc)),
      (R.cfg i).thread (R.tid i) ≠ .busy call (.act action next)) :
    R.st (i + 1) = R.st i := by
  rcases R.acts bound with ⟨call, ρ, action, next, result, busy, _⟩ | ⟨_, same⟩
  · exact absurd busy (rests call ρ action next)
  · exact same

/-! ### Calls of a concrete run -/

def Thread.resting : S.Thread → Option S.Loc
  | .idle kept => some kept
  | .busy _ _ => none

theorem idle_of_resting {thread : S.Thread} {kept : S.Loc} (resting : thread.resting = some kept) :
    thread = .idle kept := by
  cases thread with
  | idle other => exact congrArg _ (Option.some.inj resting)
  | busy call program => cases resting

theorem Run.all_rest (R : S.Run) (last : Nat) {s : M.St} {kept : S.Loc} {m : Nat}
    (starts : R.StartsIn s kept) (threads : ∀ i, i < R.len → R.tid i ≤ last) (bound : m ≤ R.len)
    (resting : ∀ t, t ≤ last → ((R.cfg m).thread t).resting.isSome = true) (t : Nat) :
    ∃ kept, (R.cfg m).thread t = .idle kept := by
  by_cases mover : t ≤ last
  · obtain ⟨kept, rests⟩ := Option.isSome_iff_exists.mp (resting t mover)
    exact ⟨kept, idle_of_resting rests⟩
  · refine ⟨kept, (R.untouched (fun i within own => ?_) m bound).trans (by rw [starts])⟩
    have := threads i within
    omega

def Thread.returning : S.Thread → Option (S.Res × S.Loc)
  | .busy _ (.ret outcome) => some outcome
  | _ => none

def Thread.calling : S.Thread → Option S.Call
  | .idle _ => none
  | .busy call _ => some call

def Event.starting : S.Event → Option S.Call
  | .start call => some call
  | _ => none

theorem Run.Returned.idle_after {R : S.Run} {t i j : Nat} {call : S.Call} {kept kept' : S.Loc}
    {result : S.Res} (returned : R.Returned t call kept i j result kept') :
    (R.cfg (j + 1)).thread t = .idle kept' := by
  have step := R.step j returned.bound
  have returns := returned.returns
  rw [returned.finished] at step
  generalize R.ev j = event at step
  generalize R.cfg (j + 1) = after at step
  cases step with
  | start call idle promised =>
      rw [returns] at idle
      cases idle
  | act busy ran =>
      rw [returns] at busy
      cases busy
  | unroll busy =>
      rw [returns] at busy
      cases busy
  | finish busy =>
      rw [returns] at busy
      cases busy
      exact Function.update_self ..

theorem Run.call_starting {R : S.Run} {t i : Nat} {call : S.Call} {kept : S.Loc}
    {program : Prog M.Act (S.Res × S.Loc)} (bound : i < R.len)
    (started : (R.cfg i).thread t = .idle kept)
    (running : (R.cfg (i + 1)).thread t = .busy call program) :
    R.tid i = t ∧ (R.ev i).starting = some call := by
  have step := R.step i bound
  by_cases own : R.tid i = t
  · refine ⟨own, ?_⟩
    rw [own] at step
    generalize R.ev i = event at step
    generalize R.cfg (i + 1) = after at step running
    cases step with
    | start call' idle promised =>
        rw [started] at idle
        cases idle
        simp only [Config.set, Function.update_self] at running
        cases running
        rfl
    | act busy ran =>
        rw [started] at busy
        cases busy
    | unroll busy =>
        rw [started] at busy
        cases busy
    | finish busy =>
        rw [started] at busy
        cases busy
  · rw [step.others (Ne.symm own), started] at running
    cases running

theorem Run.Returned.starting {R : S.Run} {t i j : Nat} {call : S.Call} {kept kept' : S.Loc}
    {result : S.Res} (returned : R.Returned t call kept i j result kept') :
    R.tid i = t ∧ (R.ev i).starting = some call := by
  have bound := returned.bound
  have before := returned.before
  exact Run.call_starting (by omega) returned.started returned.running

theorem Run.returned_of {R : S.Run} {t i j : Nat} {call : S.Call} {kept kept' : S.Loc}
    {result : S.Res} (before : i < j) (bound : j < R.len) (own : R.tid i = t)
    (starting : (R.ev i).starting = some call)
    (resting : ((R.cfg i).thread t).resting = some kept)
    (busy : ∀ m, i < m → m ≤ j → ((R.cfg m).thread t).resting = none)
    (returning : ((R.cfg j).thread t).returning = some (result, kept'))
    (finished : R.tid j = t) : R.Returned t call kept i j result kept' := by
  have idle : (R.cfg i).thread t = .idle kept := by
    cases thread : (R.cfg i).thread t with
    | idle other =>
        rw [thread] at resting
        exact congrArg Thread.idle (Option.some.inj resting)
    | busy other program =>
        rw [thread] at resting
        cases resting
  have running : (R.cfg (i + 1)).thread t = .busy call (S.code t call kept) := by
    have step := R.step i (by omega)
    rw [own] at step
    generalize R.ev i = event at step starting
    generalize R.cfg (i + 1) = after at step
    cases step with
    | start call' idle' promised =>
        rw [idle] at idle'
        cases idle'
        cases starting
        exact Function.update_self ..
    | act busy ran => cases starting
    | unroll busy => cases starting
    | finish busy => cases starting
  have inside : ∀ m, i < m → m ≤ j → ∃ program, (R.cfg m).thread t = .busy call program := by
    intro m lower
    induction m, lower using Nat.le_induction with
    | base => exact fun _ => ⟨_, running⟩
    | succ m lower ih =>
        intro upper
        obtain ⟨program, now⟩ := ih (by omega)
        have still := busy (m + 1) (by omega) upper
        have step := R.step m (by omega)
        by_cases mine : R.tid m = t
        · rw [mine] at step
          generalize R.ev m = event at step
          generalize R.cfg (m + 1) = after at step still
          cases step with
          | start call' idle' promised =>
              rw [now] at idle'
              cases idle'
          | act busy' ran =>
              rw [now] at busy'
              cases busy'
              exact ⟨_, Function.update_self ..⟩
          | unroll busy' =>
              rw [now] at busy'
              cases busy'
              exact ⟨_, Function.update_self ..⟩
          | finish busy' =>
              simp only [Config.set, Function.update_self] at still
              cases still
        · exact ⟨program, (step.others (Ne.symm mine)).trans now⟩
  obtain ⟨program, last⟩ := inside j before (Nat.le_refl j)
  have returns : (R.cfg j).thread t = .busy call (.ret (result, kept')) := by
    rw [last] at returning ⊢
    cases program with
    | ret outcome =>
        cases returning
        rfl
    | act action next => cases returning
    | loop body start next => cases returning
  exact ⟨idle, running, inside, before, bound, returns, finished⟩

def Run.returns [DecidableEq S.Call] [DecidableEq S.Loc] [DecidableEq S.Res] (R : S.Run) (t : Nat)
    (call : S.Call) (kept : S.Loc) (i j : Nat) (result : S.Res) (kept' : S.Loc) : Bool :=
  decide (i < j ∧ j < R.len ∧ R.tid i = t ∧ R.tid j = t ∧ (R.ev i).starting = some call ∧
    ((R.cfg i).thread t).resting = some kept ∧
    (∀ m ∈ List.range' (i + 1) (j - i), ((R.cfg m).thread t).resting.isNone = true) ∧
    ((R.cfg j).thread t).returning = some (result, kept'))

theorem Run.returned_of_returns [DecidableEq S.Call] [DecidableEq S.Loc] [DecidableEq S.Res]
    {R : S.Run} {t i j : Nat} {call : S.Call} {kept kept' : S.Loc} {result : S.Res}
    (passed : R.returns t call kept i j result kept' = true) :
    R.Returned t call kept i j result kept' := by
  obtain ⟨before, bound, own, finished, starting, resting, busy, returning⟩ :=
    of_decide_eq_true passed
  refine returned_of before bound own starting resting (fun m lower upper => ?_) returning finished
  exact Option.isNone_iff_eq_none.mp (busy m (List.mem_range'_1.mpr ⟨lower, by omega⟩))

end ThreadSystem

/-! ### Records -/

variable {L : Type}

/-- The same machine with the labels of its actions, the last one first. -/
def Machine.recorded (M : Machine) (label : {ρ : Type} → M.Act ρ → ρ → L) : Machine where
  Act := M.Act
  St := M.St × List L
  exec t action s :=
    (M.exec t action s.1).map fun outcome =>
      (outcome.1, outcome.2, label action outcome.1 :: s.2)

namespace ThreadSystem

variable {M : Machine} {S : ThreadSystem M} {label : {ρ : Type} → M.Act ρ → ρ → L}

def recorded (S : ThreadSystem M) (label : {ρ : Type} → M.Act ρ → ρ → L) :
    ThreadSystem (M.recorded label) where
  Call := S.Call
  Res := S.Res
  Loc := S.Loc
  code := S.code
  allowed t call kept s := S.allowed t call kept s.1

def Thread.recorded (label : {ρ : Type} → M.Act ρ → ρ → L) : S.Thread → (S.recorded label).Thread
  | .idle kept => .idle kept
  | .busy call program => .busy call program

def Event.recorded (label : {ρ : Type} → M.Act ρ → ρ → L) : S.Event → (S.recorded label).Event
  | .start call => .start call
  | .act action result => .act (M := M.recorded label) action result
  | .unroll => .unroll
  | .finish call result => .finish call result

theorem Thread.recorded_update (thread : Nat → S.Thread) (t : Nat) (own : S.Thread) :
    (fun u => (Function.update thread t own u).recorded label) =
      Function.update (fun u => (thread u).recorded label) t (own.recorded label) := by
  funext u
  by_cases same : u = t
  · subst same
    rw [Function.update_self, Function.update_self]
  · rw [Function.update_of_ne same, Function.update_of_ne same]

def Event.labelled (label : {ρ : Type} → M.Act ρ → ρ → L) : S.Event → Option L
  | .act action result => some (label action result)
  | .start _ | .unroll | .finish _ _ => none

namespace Run

def history (R : S.Run) (label : {ρ : Type} → M.Act ρ → ρ → L) : Nat → List L
  | 0 => []
  | i + 1 => ((R.ev i).labelled label).toList ++ history R label i

def recorded (R : S.Run) (label : {ρ : Type} → M.Act ρ → ρ → L) : (S.recorded label).Run where
  len := R.len
  cfg i := ⟨(R.st i, R.history label i), fun t => ((R.cfg i).thread t).recorded label⟩
  tid := R.tid
  ev i := (R.ev i).recorded label
  step := by
    intro i bound
    have step := R.step i bound
    unfold Run.st
    rw [history]
    generalize R.ev i = event at step
    generalize R.cfg (i + 1) = after at step
    generalize R.history label i = labels
    cases step with
    | @start kept call idle promised =>
        simp only [Config.set, Thread.recorded_update]
        have rests : ((R.cfg i).thread (R.tid i)).recorded label =
            .idle (S := S.recorded label) kept := congrArg (Thread.recorded label) idle
        exact Step.start (S := S.recorded label) call rests promised
    | @act call ρ action next result after busy ran =>
        simp only [Thread.recorded_update]
        refine Step.act (S := S.recorded label) (congrArg (Thread.recorded label) busy) ?_
        simp only [Machine.recorded, ran]
        rfl
    | @unroll call σ β body start next busy =>
        simp only [Config.set, Thread.recorded_update]
        exact Step.unroll (S := S.recorded label) (congrArg (Thread.recorded label) busy)
    | @finish call result kept busy =>
        simp only [Config.set, Thread.recorded_update]
        exact Step.finish (S := S.recorded label) (congrArg (Thread.recorded label) busy)

theorem Returned.records {R : S.Run} {t : Nat} {call : S.Call} {kept kept' : S.Loc} {i j : Nat}
    {result : S.Res} (returned : R.Returned t call kept i j result kept')
    (label : {ρ : Type} → M.Act ρ → ρ → L) :
    Does (M := M.recorded label) (fun m => (R.st m, R.history label m)) R.tid t (i + 1)
      (S.code t call kept) j (result, kept') := by
  have again : (R.recorded label).Returned t call kept i j result kept' := by
    refine ⟨congrArg (Thread.recorded label) returned.started,
      congrArg (Thread.recorded label) returned.running, fun m lower upper => ?_,
      returned.before, returned.bound, congrArg (Thread.recorded label) returned.returns,
      returned.finished⟩
    obtain ⟨program, busy⟩ := returned.inside m lower upper
    exact ⟨program, congrArg (Thread.recorded label) busy⟩
  exact again.does

theorem recorded_action {R : S.Run} {t m : Nat} {ρ : Type} {action : M.Act ρ} {value : ρ}
    (ran : (M.recorded label).exec t action (R.st m, R.history label m) =
      some (value, R.st (m + 1), R.history label (m + 1))) :
    M.exec t action (R.st m) = some (value, R.st (m + 1)) ∧
      (R.ev m).labelled label = some (label action value) := by
  simp only [Machine.recorded, Option.map_eq_some_iff, Prod.mk.injEq] at ran
  obtain ⟨⟨value', after⟩, ran, rfl, rfl, grown⟩ := ran
  refine ⟨ran, ?_⟩
  rw [history] at grown
  cases event : (R.ev m).labelled label with
  | none =>
      rw [event] at grown
      exact absurd grown (List.cons_ne_self _ _)
  | some found =>
      rw [event] at grown
      exact congrArg some (List.cons.inj grown).1.symm

theorem recorded_labels {R : S.Run} {t i j : Nat} {α : Type} {condition : L → Prop}
    {program : Prog (M.recorded label).Act α} {value : α}
    (does : Does (M := M.recorded label) (fun m => (R.st m, R.history label m)) R.tid t i program
      j value)
    (performs : program.Performs fun _ action => ∀ result, condition (label action result)) :
    ∀ m, i ≤ m → m < j → R.tid m = t → ∀ found, (R.ev m).labelled label = some found →
      condition found := by
  induction does with
  | ret i value => exact fun m lower upper => absurd upper (Nat.not_lt.mpr lower)
  | @wait i j program value other _ ih =>
      intro m lower upper own
      rcases Nat.eq_or_lt_of_le lower with rfl | later
      · exact absurd own other
      · exact ih performs m later upper own
  | @act i j ρ action next result value own ran _ ih =>
      intro m lower upper own' found labelled
      rcases Nat.eq_or_lt_of_le lower with rfl | later
      · rw [(recorded_action ran).2] at labelled
        cases labelled
        exact performs.1 result
      · exact ih (performs.2 result) m later upper own' found labelled
  | @loop i j σ β body start next value own same _ ih =>
      intro m lower upper own' found labelled
      rcases Nat.eq_or_lt_of_le lower with rfl | later
      · have still : R.history label (i + 1) = R.history label i := congrArg Prod.snd same
        rw [history, labelled] at still
        exact absurd still (List.cons_ne_self _ _)
      · exact ih performs.unroll m later upper own' found labelled

end Run

end ThreadSystem
