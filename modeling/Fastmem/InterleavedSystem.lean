/-
Threads that share one machine.

Every thread is idle between calls or runs the program of one call. A step of
the system starts a call, performs one atomic action of a running program,
unrolls a loop of it, or returns from it. A run is a finite sequence of such
steps by any number of threads in any order. `Does` reads one thread's program
off a run: the other threads may step anywhere between two of its actions.
-/

import Fastmem.SerialExecution

set_option autoImplicit false

/-- The calls a thread can make. `Loc` is what a thread keeps between two calls;
`allowed` is what its caller promises when it starts one. -/
structure ThreadSystem (M : Machine) where
  Call : Type
  Res : Type
  Loc : Type
  code : Nat → Call → Loc → Prog M.Act (Res × Loc)
  allowed : Nat → Call → Loc → M.St → Bool

namespace ThreadSystem

variable {M : Machine}

inductive Thread (S : ThreadSystem M) : Type 1
  | idle (kept : S.Loc)
  | busy (call : S.Call) (program : Prog M.Act (S.Res × S.Loc))

structure Config (S : ThreadSystem M) : Type 1 where
  st : M.St
  thread : Nat → S.Thread

inductive Event (S : ThreadSystem M) : Type 1
  | start (call : S.Call)
  | act {ρ : Type} (action : M.Act ρ) (result : ρ)
  | unroll
  | finish (call : S.Call) (result : S.Res)

variable {S : ThreadSystem M}

def Config.set (c : S.Config) (t : Nat) (thread : S.Thread) : S.Config :=
  { c with thread := Function.update c.thread t thread }

inductive Step : S.Config → Nat → S.Event → S.Config → Prop
  | start {c : S.Config} {t : Nat} {kept : S.Loc} (call : S.Call)
      (idle : c.thread t = .idle kept) (promised : S.allowed t call kept c.st = true) :
      Step c t (.start call) (c.set t (.busy call (S.code t call kept)))
  | act {c : S.Config} {t : Nat} {call : S.Call} {ρ : Type} {action : M.Act ρ}
      {next : ρ → Prog M.Act (S.Res × S.Loc)} {result : ρ} {after : M.St}
      (busy : c.thread t = .busy call (.act action next))
      (ran : M.exec t action c.st = some (result, after)) :
      Step c t (.act action result)
        ⟨after, Function.update c.thread t (.busy call (next result))⟩
  | unroll {c : S.Config} {t : Nat} {call : S.Call} {σ β : Type}
      {body : σ → Prog M.Act (σ ⊕ β)} {start : σ}
      {next : β → Prog M.Act (S.Res × S.Loc)}
      (busy : c.thread t = .busy call (.loop body start next)) :
      Step c t .unroll (c.set t (.busy call (Prog.unroll body start next)))
  | finish {c : S.Config} {t : Nat} {call : S.Call} {result : S.Res} {kept : S.Loc}
      (busy : c.thread t = .busy call (.ret (result, kept))) :
      Step c t (.finish call result) (c.set t (.idle kept))

theorem Step.others {c c' : S.Config} {t u : Nat} {event : S.Event}
    (step : Step c t event c') (different : u ≠ t) : c'.thread u = c.thread u := by
  cases step <;> simp only [Config.set, Function.update_of_ne different]

/-- A finite run. Past its length the three sequences mean nothing. -/
structure Run (S : ThreadSystem M) : Type 1 where
  len : Nat
  cfg : Nat → S.Config
  tid : Nat → Nat
  ev : Nat → S.Event
  step : ∀ i, i < len → Step (cfg i) (tid i) (ev i) (cfg (i + 1))

namespace Run

/-- The shared state at time `i`. -/
def st (R : S.Run) (i : Nat) : M.St := (R.cfg i).st

def StartsIn (R : S.Run) (s : M.St) (kept : S.Loc) : Prop :=
  R.cfg 0 = ⟨s, fun _ => .idle kept⟩

def Meets (R : S.Run) (condition : S.Config → Nat → S.Event → Prop) : Prop :=
  ∀ i, i < R.len → condition (R.cfg i) (R.tid i) (R.ev i)

theorem invariant {R : S.Run} {holds : S.Config → Prop} (initially : holds (R.cfg 0))
    (kept : ∀ i, i < R.len → holds (R.cfg i) → holds (R.cfg (i + 1))) :
    ∀ i, i ≤ R.len → holds (R.cfg i) := by
  intro i
  induction i with
  | zero => exact fun _ => initially
  | succ i ih => exact fun bound => kept i bound (ih (Nat.le_of_succ_le bound))

theorem untouched {R : S.Run} {t : Nat} (never : ∀ i, i < R.len → R.tid i ≠ t) :
    ∀ i, i ≤ R.len → (R.cfg i).thread t = (R.cfg 0).thread t := by
  refine @invariant _ _ R (fun c => c.thread t = (R.cfg 0).thread t) rfl fun i bound same => ?_
  exact ((R.step i bound).others (Ne.symm (never i bound))).trans same

/-- The part of a run from time `i` on, `len` steps long. -/
def window (R : S.Run) (i len : Nat) (within : i + len ≤ R.len) : S.Run where
  len := len
  cfg m := R.cfg (i + m)
  tid m := R.tid (i + m)
  ev m := R.ev (i + m)
  step m bound := R.step (i + m) (by omega)

/-- Thread `t` makes a call at time `i` and returns from it at time `j`. -/
structure Returned (R : S.Run) (t : Nat) (call : S.Call) (kept : S.Loc) (i j : Nat)
    (result : S.Res) (kept' : S.Loc) : Prop where
  started : (R.cfg i).thread t = .idle kept
  running : (R.cfg (i + 1)).thread t = .busy call (S.code t call kept)
  inside : ∀ m, i < m → m ≤ j → ∃ program, (R.cfg m).thread t = .busy call program
  before : i < j
  bound : j < R.len
  returns : (R.cfg j).thread t = .busy call (.ret (result, kept'))
  finished : R.tid j = t

end Run

/-! ### One thread of a run -/

/-- Thread `t` has program `program` to do at time `i` and is done with it at
time `j`. A step of another thread can fall anywhere. -/
inductive Does (st : Nat → M.St) (tid : Nat → Nat) (t : Nat) {α : Type} :
    Nat → Prog M.Act α → Nat → α → Prop
  | ret (i : Nat) (value : α) : Does st tid t i (.ret value) i value
  | wait {i j : Nat} {program : Prog M.Act α} {value : α} (other : tid i ≠ t)
      (rest : Does st tid t (i + 1) program j value) : Does st tid t i program j value
  | act {i j : Nat} {ρ : Type} {action : M.Act ρ} {next : ρ → Prog M.Act α} {result : ρ}
      {value : α} (own : tid i = t)
      (ran : M.exec t action (st i) = some (result, st (i + 1)))
      (rest : Does st tid t (i + 1) (next result) j value) :
      Does st tid t i (.act action next) j value
  | loop {i j : Nat} {σ β : Type} {body : σ → Prog M.Act (σ ⊕ β)} {start : σ}
      {next : β → Prog M.Act α} {value : α} (own : tid i = t) (same : st (i + 1) = st i)
      (rest : Does st tid t (i + 1) (Prog.unroll body start next) j value) :
      Does st tid t i (.loop body start next) j value

namespace Does

variable {st : Nat → M.St} {tid : Nat → Nat} {t i j : Nat} {α β ρ σ : Type}

theorem le {program : Prog M.Act α} {value : α}
    (does : Does st tid t i program j value) : i ≤ j := by
  induction does with
  | ret => exact Nat.le_refl _
  | wait _ _ ih => exact Nat.le_of_succ_le ih
  | act _ _ _ ih => exact Nat.le_of_succ_le ih
  | loop _ _ _ ih => exact Nat.le_of_succ_le ih

theorem ret_inv {value answer : α} (does : Does st tid t i (.ret value) j answer) :
    answer = value ∧ ∀ m, i ≤ m → m < j → tid m ≠ t := by
  generalize isRet : (Prog.ret value : Prog M.Act α) = program at does
  induction does with
  | ret => cases isRet; exact ⟨rfl, fun m lower upper => absurd upper (Nat.not_lt.mpr lower)⟩
  | @wait i j program value other rest ih =>
      obtain ⟨same, quiet⟩ := ih isRet
      refine ⟨same, fun m lower upper => ?_⟩
      rcases Nat.eq_or_lt_of_le lower with rfl | later
      · exact other
      · exact quiet m later upper
  | act => cases isRet
  | loop => cases isRet

theorem act_inv {action : M.Act ρ} {next : ρ → Prog M.Act α} {value : α}
    (does : Does st tid t i (.act action next) j value) :
    ∃ m result, i ≤ m ∧ m < j ∧ (∀ n, i ≤ n → n < m → tid n ≠ t) ∧ tid m = t ∧
      M.exec t action (st m) = some (result, st (m + 1)) ∧
      Does st tid t (m + 1) (next result) j value := by
  generalize isAct : (Prog.act action next) = program at does
  induction does with
  | ret => cases isAct
  | wait other rest ih =>
      obtain ⟨m, result, lower, upper, quiet, own, ran, after⟩ := ih isAct
      refine ⟨m, result, Nat.le_of_succ_le lower, upper, fun n from_ until_ => ?_, own, ran, after⟩
      rcases Nat.eq_or_lt_of_le from_ with rfl | later
      · exact other
      · exact quiet n later until_
  | @act i j _ _ _ _ _ own ran rest =>
      cases isAct
      exact ⟨i, _, Nat.le_refl i, rest.le,
        fun n lower upper => absurd upper (Nat.not_lt.mpr lower), own, ran, rest⟩
  | loop => cases isAct

theorem bind_inv {program : Prog M.Act α} {f : α → Prog M.Act β} {value : β}
    (does : Does st tid t i (program.bind f) j value) :
    ∃ m mid, Does st tid t i program m mid ∧ Does st tid t m (f mid) j value := by
  generalize isBind : program.bind f = whole at does
  induction does generalizing program with
  | ret i value =>
      cases program with
      | ret mid =>
          rw [Prog.ret_bind] at isBind
          exact ⟨i, mid, .ret i mid, by rw [isBind]; exact .ret i value⟩
      | act => cases isBind
      | loop => cases isBind
  | wait other rest ih =>
      obtain ⟨m, mid, first, second⟩ := ih isBind
      exact ⟨m, mid, .wait other first, second⟩
  | @act i j _ _ _ _ _ own ran rest ih =>
      cases program with
      | ret mid =>
          rw [Prog.ret_bind] at isBind
          exact ⟨i, mid, .ret i mid, by rw [isBind]; exact .act own ran rest⟩
      | act action next =>
          cases isBind
          obtain ⟨m, mid, first, second⟩ := ih rfl
          exact ⟨m, mid, .act own ran first, second⟩
      | loop => cases isBind
  | @loop i j _ _ body start next _ own same rest ih =>
      cases program with
      | ret mid =>
          rw [Prog.ret_bind] at isBind
          exact ⟨i, mid, .ret i mid, by rw [isBind]; exact .loop own same rest⟩
      | act => cases isBind
      | loop body start next =>
          cases isBind
          obtain ⟨m, mid, first, second⟩ := ih (Prog.unroll_bind _ _ _ _)
          exact ⟨m, mid, .loop own same first, second⟩

theorem perform_inv {action : M.Act ρ} {value : ρ}
    (does : Does st tid t i (Prog.perform action) j value) :
    ∃ m, i ≤ m ∧ m < j ∧ tid m = t ∧ (∀ n, i ≤ n → n < j → n ≠ m → tid n ≠ t) ∧
      M.exec t action (st m) = some (value, st (m + 1)) := by
  obtain ⟨m, result, lower, upper, quiet, own, ran, rest⟩ := act_inv does
  obtain ⟨rfl, later⟩ := ret_inv rest
  refine ⟨m, lower, upper, own, fun n from_ until_ different => ?_, ran⟩
  rcases Nat.lt_or_ge n m with earlier | notEarlier
  · exact quiet n from_ earlier
  · exact later n (Nat.lt_of_le_of_ne notEarlier (Ne.symm different)) until_

theorem keeps {condition : (ρ : Type) → M.Act ρ → Prop} (kept : M.St → M.St → Prop)
    (refl : ∀ s, kept s s)
    (acts : ∀ {ρ : Type} {action : M.Act ρ} {s s' : M.St} {result : ρ}, condition ρ action →
      M.exec t action s = some (result, s') → kept s s')
    {program : Prog M.Act α} {value : α} (does : Does st tid t i program j value)
    (performs : program.Performs condition) :
    ∀ m, i ≤ m → m < j → tid m = t → kept (st m) (st (m + 1)) := by
  induction does with
  | ret i value => exact fun m lower upper => absurd upper (Nat.not_lt.mpr lower)
  | @wait i j program value other _ ih =>
      intro m lower upper own
      rcases Nat.eq_or_lt_of_le lower with rfl | later
      · exact absurd own other
      · exact ih performs m later upper own
  | @act i j ρ action next result value _ ran _ ih =>
      intro m lower upper own
      rcases Nat.eq_or_lt_of_le lower with rfl | later
      · exact acts performs.1 ran
      · exact ih (performs.2 result) m later upper own
  | @loop i j σ β body start next value _ same _ ih =>
      intro m lower upper own
      rcases Nat.eq_or_lt_of_le lower with rfl | later
      · rw [same]
        exact refl _
      · exact ih performs.unroll m later upper own

/-- Loop rule for a finished loop: an invariant of the loop states that each
round keeps is available in the last round, after which the thread rests. -/
theorem iterate_inv {body : σ → Prog M.Act (σ ⊕ β)} {start : σ} {value : β}
    (holds : Nat → σ → Prop)
    (later : ∀ m n state, m ≤ n → holds m state → holds n state)
    (round : ∀ m n state again, i ≤ m → n ≤ j → holds m state →
      Does st tid t m (body state) n (.inl again) → holds n again)
    (initially : holds i start)
    (does : Does st tid t i (Prog.iterate start body) j value) :
    ∃ m n state, i ≤ m ∧ n ≤ j ∧ holds m state ∧
      Does st tid t m (body state) n (.inr value) ∧ ∀ k, n ≤ k → k < j → tid k ≠ t := by
  generalize isLoop : Prog.iterate start body = whole at does
  -- the number of remaining own steps is not structural; induct on the time left
  generalize left : j - i = span
  induction span using Nat.strongRecOn generalizing i start whole with
  | ind span ih =>
    subst isLoop
    have unrolled : ∃ m, i ≤ m ∧ Does st tid t (m + 1) (Prog.unroll body start .ret) j value := by
      clear ih initially round left
      generalize isLoop : Prog.iterate start body = whole at does
      induction does with
      | ret => cases isLoop
      | wait _ _ ih =>
          obtain ⟨m, lower, rest⟩ := ih isLoop
          exact ⟨m, Nat.le_of_succ_le lower, rest⟩
      | act => cases isLoop
      | @loop i j _ _ _ _ _ _ own same rest => cases isLoop; exact ⟨i, Nat.le_refl i, rest⟩
    obtain ⟨m, lower, rest⟩ := unrolled
    obtain ⟨n, outcome, first, second⟩ := bind_inv rest
    have reached : holds (m + 1) start := later i (m + 1) start (by omega) initially
    have firstLe := first.le
    have secondLe := second.le
    cases outcome with
    | inr result =>
        obtain ⟨rfl, resting⟩ := ret_inv second
        exact ⟨m + 1, n, start, by omega, secondLe, reached, first, resting⟩
    | inl again =>
        have next : holds n again := round (m + 1) n start again (by omega) secondLe reached first
        obtain ⟨m', n', state, lower', upper', held, last⟩ :=
          ih (j - n) (by omega)
            (fun a b state' again' from_ => round a b state' again' (by omega))
            next _ rfl second rfl
        exact ⟨m', n', state, by omega, upper', held, last⟩

end Does

theorem Run.Returned.does {R : S.Run} {t : Nat} {call : S.Call} {kept kept' : S.Loc}
    {i j : Nat} {result : S.Res} (returned : R.Returned t call kept i j result kept') :
    Does R.st R.tid t (i + 1) (S.code t call kept) j (result, kept') := by
  have follow : ∀ d m program, m + d = j → i < m →
      (R.cfg m).thread t = .busy call program →
      Does R.st R.tid t m program j (result, kept') := by
    intro d
    induction d with
    | zero =>
        intro m program atEnd _ busy
        obtain rfl : m = j := atEnd
        rw [returned.returns] at busy
        cases busy
        exact .ret m _
    | succ d ih =>
        intro m program distance lower busy
        have inRun : m < R.len := by have := returned.bound; omega
        obtain ⟨program', busy'⟩ := returned.inside (m + 1) (by omega) (by omega)
        have rest := ih (m + 1) program' (by omega) (by omega) busy'
        by_cases own : R.tid m = t
        · have step := R.step m inRun
          rw [own] at step
          generalize eventAt : R.ev m = event at step
          generalize afterAt : R.cfg (m + 1) = after at step
          cases step with
          | start call' idle => rw [busy] at idle; cases idle
          | act busy'' ran =>
              rw [busy] at busy''
              cases busy''
              have sameSt : R.st (m + 1) = _ := congrArg Config.st afterAt
              rw [afterAt] at busy'
              simp only [Function.update_self] at busy'
              cases busy'
              exact .act own (by rw [sameSt]; exact ran) rest
          | unroll busy'' =>
              rw [busy] at busy''
              cases busy''
              have sameSt : R.st (m + 1) = R.st m := by
                unfold Run.st
                rw [afterAt]
                rfl
              rw [afterAt] at busy'
              simp only [Config.set, Function.update_self] at busy'
              cases busy'
              exact .loop own sameSt rest
          | finish busy'' =>
              rw [afterAt] at busy'
              simp only [Config.set, Function.update_self] at busy'
              cases busy'
        · have unchanged := (R.step m inRun).others (Ne.symm own)
          rw [unchanged, busy] at busy'
          cases busy'
          exact .wait own rest
  exact follow (j - (i + 1)) (i + 1) _ (by have := returned.before; omega) (by omega)
    returned.running

theorem Run.Returned.start_unique {R : S.Run} {t m : Nat} {call call' : S.Call}
    {kept kept' after after' : S.Loc} {i j i' j' : Nat} {result result' : S.Res}
    (first : R.Returned t call kept i j result after)
    (second : R.Returned t call' kept' i' j' result' after')
    (lower : i < m) (upper : m ≤ j) (lower' : i' < m) (upper' : m ≤ j') : i = i' := by
  rcases Nat.lt_trichotomy i i' with earlier | same | later
  · obtain ⟨program, busy⟩ := first.inside i' earlier (by omega)
    rw [second.started] at busy
    cases busy
  · exact same
  · obtain ⟨program, busy⟩ := second.inside i later (by omega)
    rw [first.started] at busy
    cases busy

theorem Run.performs {R : S.Run} {s : M.St} {kept : S.Loc}
    {condition : S.Call → (ρ : Type) → M.Act ρ → Prop} (starts : R.StartsIn s kept)
    (codes : ∀ t call kept, (S.code t call kept).Performs (condition call)) {i : Nat}
    (bound : i < R.len) {ρ : Type} {action : M.Act ρ} {result : ρ}
    (event : R.ev i = .act action result) :
    ∃ call program, (R.cfg i).thread (R.tid i) = .busy call program ∧
      condition call ρ action := by
  have held : ∀ i, i ≤ R.len → ∀ t call program,
      (R.cfg i).thread t = .busy call program → program.Performs (condition call) := by
    refine @Run.invariant _ _ R (fun c => ∀ t call program,
      c.thread t = .busy call program → program.Performs (condition call)) ?_ ?_
    · intro t call program busy
      rw [starts] at busy
      cases busy
    · intro i bound before t call program busy
      by_cases own : t = R.tid i
      · subst own
        have step := R.step i bound
        generalize R.ev i = event at step
        generalize R.cfg (i + 1) = after at step busy
        cases step with
        | start call' idle promised =>
            simp only [Config.set, Function.update_self] at busy
            cases busy
            exact codes _ _ _
        | act busy' ran =>
            simp only [Function.update_self] at busy
            cases busy
            exact (before _ _ _ busy').2 _
        | unroll busy' =>
            simp only [Config.set, Function.update_self] at busy
            cases busy
            exact (before _ _ _ busy').unroll
        | finish busy' =>
            simp only [Config.set, Function.update_self] at busy
            cases busy
      · rw [(R.step i bound).others own] at busy
        exact before t call program busy
  have step := R.step i bound
  rw [event] at step
  generalize R.cfg (i + 1) = after at step
  cases step with
  | act busy ran => exact ⟨_, _, busy, (held i (Nat.le_of_lt bound) _ _ _ busy).1⟩

/-! ### Schedules -/

/-- Start a call of thread `t`, or let it take its next step. -/
def move (c : S.Config) (t : Nat) : Option S.Call → Option (S.Event × S.Config)
  | some call =>
      match c.thread t with
      | .idle kept =>
          if S.allowed t call kept c.st then
            some (.start call, c.set t (.busy call (S.code t call kept)))
          else none
      | .busy _ _ => none
  | none =>
      match c.thread t with
      | .idle _ => none
      | .busy call (.ret (result, kept)) => some (.finish call result, c.set t (.idle kept))
      | .busy call (.act action next) =>
          match M.exec t action c.st with
          | none => none
          | some (result, after) =>
              some (.act action result,
                ⟨after, Function.update c.thread t (.busy call (next result))⟩)
      | .busy call (.loop body start next) =>
          some (.unroll, c.set t (.busy call (Prog.unroll body start next)))

theorem move_step {c c' : S.Config} {t : Nat} {call : Option S.Call} {event : S.Event}
    (moved : move c t call = some (event, c')) : Step c t event c' := by
  cases call with
  | some call =>
      simp only [move] at moved
      split at moved
      · rename_i kept idle
        split at moved
        · rename_i promised
          cases moved
          exact .start call idle promised
        · cases moved
      · cases moved
  | none =>
      simp only [move] at moved
      split at moved
      · cases moved
      · rename_i busy
        cases moved
        exact .finish busy
      · rename_i busy
        split at moved
        · cases moved
        · rename_i ran
          cases moved
          exact .act busy ran
      · rename_i busy
        cases moved
        exact .unroll busy

/-- Follow a schedule: which thread moves, and the call it starts, if any. -/
def play (c : S.Config) : List (Nat × Option S.Call) → Option S.Config
  | [] => some c
  | (t, call) :: rest =>
      match move c t call with
      | none => none
      | some (_, c') => play c' rest

/-- The events of a schedule, each with the configuration it leads to. -/
def trace (c : S.Config) : List (Nat × Option S.Call) → List (S.Event × S.Config)
  | [] => []
  | (t, call) :: rest =>
      match move c t call with
      | none => []
      | some (event, c') => (event, c') :: trace c' rest

theorem trace_step {c : S.Config} {schedule : List (Nat × Option S.Call)}
    (played : (play c schedule).isSome = true) (default : S.Config) {i : Nat}
    (bound : i < schedule.length) :
    Step ((c :: (trace c schedule).map Prod.snd).getD i default)
      ((schedule.map Prod.fst).getD i 0) (((trace c schedule).map Prod.fst).getD i .unroll)
      (((trace c schedule).map Prod.snd).getD i default) := by
  induction schedule generalizing c i with
  | nil => cases bound
  | cons entry rest ih =>
      obtain ⟨t, call⟩ := entry
      unfold play at played
      unfold trace
      cases moved : move c t call with
      | none =>
          rw [moved] at played
          cases played
      | some pair =>
          rw [moved] at played
          cases i with
          | zero => exact move_step moved
          | succ i => exact ih played (Nat.lt_of_succ_lt_succ bound)

/-- A call of thread `t` and its further steps. -/
def callSteps {C : Type} (t : Nat) (call : C) (steps : Nat) : List (Nat × Option C) :=
  (t, some call) :: List.replicate steps (t, none)

def Run.ofSchedule (c : S.Config) (schedule : List (Nat × Option S.Call))
    (played : (play c schedule).isSome = true) : S.Run where
  len := schedule.length
  cfg i := (c :: (trace c schedule).map Prod.snd).getD i c
  tid i := (schedule.map Prod.fst).getD i 0
  ev i := ((trace c schedule).map Prod.fst).getD i .unroll
  step _ bound := trace_step played c bound

theorem trace_length (c : S.Config) (schedule : List (Nat × Option S.Call)) :
    (trace c schedule).length ≤ schedule.length := by
  induction schedule generalizing c with
  | nil => exact Nat.le_refl 0
  | cons entry rest ih =>
      obtain ⟨t, call⟩ := entry
      unfold trace
      split
      · exact Nat.zero_le _
      · exact Nat.succ_le_succ (ih _)

theorem Run.ofSchedule_beyond (c : S.Config) (schedule : List (Nat × Option S.Call))
    (played : (play c schedule).isSome = true) {i : Nat} (beyond : schedule.length ≤ i) :
    (Run.ofSchedule c schedule played).ev i = .unroll := by
  have past : ((trace c schedule).map Prod.fst).length ≤ i := by
    rw [List.length_map]
    exact Nat.le_trans (trace_length c schedule) beyond
  simp only [Run.ofSchedule, List.getD_eq_getElem?_getD, List.getElem?_eq_none past,
    Option.getD_none]

/-- Whether every step of a schedule passes a test. -/
def replays (test : S.Config → Nat → S.Event → Bool) (c : S.Config) :
    List (Nat × Option S.Call) → Bool
  | [] => true
  | (t, call) :: rest =>
      match move c t call with
      | none => true
      | some (event, c') => test c t event && replays test c' rest

theorem Run.ofSchedule_passes (test : S.Config → Nat → S.Event → Bool) {c : S.Config}
    {schedule : List (Nat × Option S.Call)} {played : (play c schedule).isSome = true}
    (passed : replays test c schedule = true) (i : Nat)
    (bound : i < (Run.ofSchedule c schedule played).len) :
    test ((Run.ofSchedule c schedule played).cfg i) ((Run.ofSchedule c schedule played).tid i)
      ((Run.ofSchedule c schedule played).ev i) = true := by
  have steps : ∀ (c default : S.Config), (play c schedule).isSome = true →
      replays test c schedule = true → i < schedule.length →
      test ((c :: (trace c schedule).map Prod.snd).getD i default)
        ((schedule.map Prod.fst).getD i 0)
        (((trace c schedule).map Prod.fst).getD i .unroll) = true := by
    clear passed bound played
    induction schedule generalizing i with
    | nil => intro _ _ _ _ bound; cases bound
    | cons entry rest ih =>
        intro c default played passed bound
        obtain ⟨t, call⟩ := entry
        unfold play at played
        unfold replays at passed
        unfold trace
        cases moved : move c t call with
        | none =>
            rw [moved] at played
            cases played
        | some pair =>
            rw [moved] at played passed
            obtain ⟨first, later⟩ := Bool.and_eq_true_iff.mp passed
            cases i with
            | zero => exact first
            | succ i => exact ih i _ default played later (Nat.lt_of_succ_lt_succ bound)
  exact steps c c played passed bound

end ThreadSystem
