/-
Invariants of interleaved threads, proved one thread at a time.

A protocol gives every thread a ghost value and relates the shared state to the
ghost values of all threads. `Triple` says of one program, started with one
ghost value: each action it attempts is permitted by its ghost value, each
action it performs keeps the invariant with a new ghost value for this thread
alone, and a postcondition relates its result to its last ghost value. The
other threads may do anything that keeps the invariant, so a fact survives
their steps exactly when the ghost value and the invariant imply it.
-/

import Fastmem.InterleavedSystem
import Mathlib.Tactic.ByContra

set_option autoImplicit false

/-- `Kind` is fixed while a call runs, `Ghost` changes with its actions. -/
structure Protocol (M : Machine) where
  Kind : Type
  Ghost : Type
  Inv : M.St → (Nat → Kind × Ghost) → Prop
  Attempt : {ρ : Type} → Kind → Ghost → M.Act ρ → Prop

namespace Protocol

variable {M : Machine} {P : Protocol M}

/-- What a caller promises about the state in which its program acts. -/
abbrev Promise (P : Protocol M) :=
  ⦃ρ : Type⦄ → M.Act ρ → M.St → (Nat → P.Kind × P.Ghost) → Prop

/-- Safety for the next `n` steps. -/
def Safe (P : Protocol M) (t : Nat) (kind : P.Kind) (promise : P.Promise) {α : Type} :
    Nat → P.Ghost → Prog M.Act α → (α → P.Ghost → Prop) → Prop
  | 0, _, _, _ => True
  | _ + 1, ghost, .ret value, post => post value ghost
  | n + 1, ghost, .act action next, post =>
      P.Attempt kind ghost action ∧
      ∀ s ghosts result s', P.Inv s ghosts → ghosts t = (kind, ghost) →
        promise action s ghosts → M.exec t action s = some (result, s') →
        ∃ ghost', P.Inv s' (Function.update ghosts t (kind, ghost')) ∧
          Safe P t kind promise n ghost' (next result) post
  | n + 1, ghost, .loop body start next, post =>
      Safe P t kind promise n ghost (Prog.unroll body start next) post

def Triple (P : Protocol M) (t : Nat) (kind : P.Kind) (promise : P.Promise) {α : Type}
    (ghost : P.Ghost) (program : Prog M.Act α) (post : α → P.Ghost → Prop) : Prop :=
  ∀ n, P.Safe t kind promise n ghost program post

variable {t : Nat} {kind : P.Kind} {promise : P.Promise} {α β ρ σ ι : Type}

theorem Safe.mono {program : Prog M.Act α} {post weaker : α → P.Ghost → Prop}
    (implies : ∀ value ghost, post value ghost → weaker value ghost) :
    ∀ {n : Nat} {ghost : P.Ghost}, P.Safe t kind promise n ghost program post →
      P.Safe t kind promise n ghost program weaker := by
  intro n
  induction n generalizing program with
  | zero => exact fun _ => trivial
  | succ n ih =>
      intro ghost safe
      cases program with
      | ret value => exact implies value ghost safe
      | act action next =>
          refine ⟨safe.1, fun s ghosts result s' inv mine promised ran => ?_⟩
          obtain ⟨ghost', inv', rest⟩ := safe.2 s ghosts result s' inv mine promised ran
          exact ⟨ghost', inv', ih rest⟩
      | loop body start next => exact ih safe

theorem Safe.promised {program : Prog M.Act α} {post : α → P.Ghost → Prop} {more : P.Promise}
    (implies : ∀ {ρ : Type} (action : M.Act ρ) s ghosts, more action s ghosts →
      promise action s ghosts) :
    ∀ {n : Nat} {ghost : P.Ghost}, P.Safe t kind promise n ghost program post →
      P.Safe t kind more n ghost program post := by
  intro n
  induction n generalizing program with
  | zero => exact fun _ => trivial
  | succ n ih =>
      intro ghost safe
      cases program with
      | ret value => exact safe
      | act action next =>
          refine ⟨safe.1, fun s ghosts result s' inv mine promised ran => ?_⟩
          obtain ⟨ghost', inv', rest⟩ :=
            safe.2 s ghosts result s' inv mine (implies action s ghosts promised) ran
          exact ⟨ghost', inv', ih rest⟩
      | loop body start next => exact ih safe

theorem Safe.bind {program : Prog M.Act α} {f : α → Prog M.Act β}
    {mid : α → P.Ghost → Prop} {post : β → P.Ghost → Prop}
    (second : ∀ value ghost, mid value ghost → P.Triple t kind promise ghost (f value) post) :
    ∀ {n : Nat} {ghost : P.Ghost}, P.Safe t kind promise n ghost program mid →
      P.Safe t kind promise n ghost (program.bind f) post := by
  intro n
  induction n generalizing program with
  | zero => exact fun _ => trivial
  | succ n ih =>
      intro ghost safe
      cases program with
      | ret value => exact second value ghost safe (n + 1)
      | act action next =>
          refine ⟨safe.1, fun s ghosts result s' inv mine promised ran => ?_⟩
          obtain ⟨ghost', inv', rest⟩ := safe.2 s ghosts result s' inv mine promised ran
          exact ⟨ghost', inv', ih rest⟩
      | loop body start next =>
          change P.Safe t kind promise n ghost
            (Prog.unroll body start fun result => (next result).bind f) post
          rw [← Prog.unroll_bind]
          exact ih safe

namespace Triple

variable {ghost : P.Ghost}

theorem mono {program : Prog M.Act α} {post weaker : α → P.Ghost → Prop}
    (triple : P.Triple t kind promise ghost program post)
    (implies : ∀ value ghost, post value ghost → weaker value ghost) :
    P.Triple t kind promise ghost program weaker :=
  fun n => Safe.mono implies (triple n)

theorem promised {program : Prog M.Act α} {post : α → P.Ghost → Prop} {more : P.Promise}
    (triple : P.Triple t kind promise ghost program post)
    (implies : ∀ {ρ : Type} (action : M.Act ρ) s ghosts, more action s ghosts →
      promise action s ghosts) :
    P.Triple t kind more ghost program post :=
  fun n => Safe.promised implies (triple n)

theorem ret {value : α} {post : α → P.Ghost → Prop} (holds : post value ghost) :
    P.Triple t kind promise ghost (.ret value) post
  | 0 => trivial
  | _ + 1 => holds

theorem bind {program : Prog M.Act α} {f : α → Prog M.Act β}
    {mid : α → P.Ghost → Prop} {post : β → P.Ghost → Prop}
    (first : P.Triple t kind promise ghost program mid)
    (second : ∀ value ghost, mid value ghost → P.Triple t kind promise ghost (f value) post) :
    P.Triple t kind promise ghost (program.bind f) post :=
  fun n => Safe.bind second (first n)

/-- The rule for one atomic action: the only place where the invariant is opened. -/
theorem perform {action : M.Act ρ} {post : ρ → P.Ghost → Prop}
    (attempt : P.Attempt kind ghost action)
    (keeps : ∀ s ghosts result s', P.Inv s ghosts → ghosts t = (kind, ghost) →
      promise action s ghosts → M.exec t action s = some (result, s') →
      ∃ ghost', P.Inv s' (Function.update ghosts t (kind, ghost')) ∧ post result ghost') :
    P.Triple t kind promise ghost (Prog.perform action) post
  | 0 => trivial
  | n + 1 => by
      refine ⟨attempt, fun s ghosts result s' inv mine promised ran => ?_⟩
      obtain ⟨ghost', inv', holds⟩ := keeps s ghosts result s' inv mine promised ran
      exact ⟨ghost', inv', ret holds n⟩

theorem iterate {body : σ → Prog M.Act (σ ⊕ β)} {post : β → P.Ghost → Prop}
    (holds : σ → P.Ghost → Prop)
    (round : ∀ state ghost, holds state ghost →
      P.Triple t kind promise ghost (body state) fun outcome ghost' =>
        match outcome with
        | .inl again => holds again ghost'
        | .inr result => post result ghost')
    {start : σ} (initially : holds start ghost) :
    P.Triple t kind promise ghost (Prog.iterate start body) post := by
  intro n
  induction n using Nat.strongRecOn generalizing start ghost with
  | ind n ih =>
    cases n with
    | zero => exact trivial
    | succ n =>
        -- the unrolled rounds have one step less to run, so the hypothesis applies to them
        have rounds : ∀ m, m ≤ n → ∀ {program : Prog M.Act (σ ⊕ β)} {ghost : P.Ghost},
            P.Safe t kind promise m ghost program (fun outcome ghost' =>
              match outcome with
              | .inl again => holds again ghost'
              | .inr result => post result ghost') →
            P.Safe t kind promise m ghost
              (program.bind fun
                | .inl again => Prog.loop body again Prog.ret
                | .inr result => Prog.ret result) post := by
          intro m
          induction m with
          | zero => exact fun _ _ _ _ => trivial
          | succ m inner =>
              intro below program ghost safe
              cases program with
              | ret outcome =>
                  cases outcome with
                  | inl again => exact ih (m + 1) (by omega) safe
                  | inr result => exact safe
              | act action next =>
                  refine ⟨safe.1, fun s ghosts result s' inv mine promised ran => ?_⟩
                  obtain ⟨ghost', inv', rest⟩ :=
                    safe.2 s ghosts result s' inv mine promised ran
                  exact ⟨ghost', inv', inner (by omega) rest⟩
              | loop body' start' next =>
                  change P.Safe t kind promise m ghost (Prog.unroll body' start' _) post
                  rw [← Prog.unroll_bind]
                  exact inner (by omega) safe
        exact rounds n (Nat.le_refl n) (round start ghost initially n)

/-- The rule for a bounded loop; the invariant is indexed by the items to come. -/
theorem forEach {body : ι → Prog M.Act Unit} (holds : List ι → P.Ghost → Prop)
    (round : ∀ item rest ghost, holds (item :: rest) ghost →
      P.Triple t kind promise ghost (body item) fun _ ghost' => holds rest ghost')
    {items : List ι} (initially : holds items ghost) :
    P.Triple t kind promise ghost (Prog.forEach items body) fun _ ghost' => holds [] ghost' := by
  induction items generalizing ghost with
  | nil => exact ret initially
  | cons item rest ih => exact bind (round item rest ghost initially) fun _ _ after => ih after

theorem forRange {body : Nat → Prog M.Act Unit} (holds : Nat → P.Ghost → Prop) {bound : Nat}
    (round : ∀ i ghost, i < bound → holds i ghost →
      P.Triple t kind promise ghost (body i) fun _ ghost' => holds (i + 1) ghost')
    (initially : holds 0 ghost) :
    P.Triple t kind promise ghost (Prog.forEach (List.range bound) body)
      fun _ ghost' => holds bound ghost' := by
  have general : P.Triple t kind promise ghost (Prog.forEach (List.range bound) body)
      fun _ ghost' => ∃ i, [] = List.range' i (bound - i) ∧ i ≤ bound ∧ holds i ghost' := by
    refine forEach (fun left ghost' => ∃ i, left = List.range' i (bound - i) ∧ i ≤ bound ∧
      holds i ghost') ?_ ⟨0, List.range_eq_range', Nat.zero_le _, initially⟩
    rintro item left ghost ⟨i, split, _, now⟩
    have below : i < bound := by
      by_contra beyond
      rw [show bound - i = 0 by omega] at split
      cases split
    rw [show bound - i = (bound - (i + 1)) + 1 by omega, List.range'_succ] at split
    obtain ⟨isItem, isLeft⟩ := List.cons.inj split
    rw [isItem]
    exact (round i ghost below now).mono fun _ _ next => ⟨i + 1, isLeft, below, next⟩
  refine general.mono ?_
  rintro _ ghost' ⟨i, empty, within, final⟩
  have atEnd : i = bound := by
    by_contra before
    rw [show bound - i = (bound - (i + 1)) + 1 by omega, List.range'_succ] at empty
    cases empty
  rwa [atEnd] at final

theorem foldEach {step : β → ι → Prog M.Act β} (holds : List ι → β → P.Ghost → Prop)
    (round : ∀ item rest accumulator ghost, holds (item :: rest) accumulator ghost →
      P.Triple t kind promise ghost (step accumulator item) fun updated ghost' =>
        holds rest updated ghost')
    {items : List ι} {accumulator : β} (initially : holds items accumulator ghost) :
    P.Triple t kind promise ghost (Prog.foldEach step accumulator items)
      fun result ghost' => holds [] result ghost' := by
  induction items generalizing ghost accumulator with
  | nil => exact ret initially
  | cons item rest ih =>
      exact bind (round item rest accumulator ghost initially) fun _ _ after => ih after

end Triple

/-! ### From threads to systems -/

open ThreadSystem

variable {S : ThreadSystem M}

/-- How the calls of a system follow a protocol. `condition` is what the runs
under consideration are known to meet before each step. -/
structure Fit (S : ThreadSystem M) (P : Protocol M) where
  condition : S.Config → Nat → S.Event → Prop
  idleKind : P.Kind
  kind : S.Call → P.Kind
  promise : Nat → S.Call → P.Promise
  Idle : Nat → S.Loc → P.Ghost → Prop
  Done : Nat → S.Call → S.Res → S.Loc → P.Ghost → Prop

namespace Fit

variable (F : Fit S P)

def kindOf : S.Thread → P.Kind
  | .idle _ => F.idleKind
  | .busy call _ => F.kind call

/-- The thread keeps to the protocol for the next `n` of its steps. -/
def Follows (n t : Nat) (ghost : P.Ghost) : S.Thread → Prop
  | .idle kept => F.Idle t kept ghost
  | .busy call program =>
      P.Safe t (F.kind call) (F.promise t call) n ghost program fun outcome ghost' =>
        F.Done t call outcome.1 outcome.2 ghost'

/-- The ghost values explain a configuration and its next `n` steps. -/
structure Covers (n : Nat) (c : S.Config) (ghosts : Nat → P.Kind × P.Ghost) : Prop where
  inv : P.Inv c.st ghosts
  kinds : ∀ u, (ghosts u).1 = F.kindOf (c.thread u)
  follows : ∀ u, F.Follows n u (ghosts u).2 (c.thread u)

def Permitted (c : S.Config) (ghosts : Nat → P.Kind × P.Ghost) : Prop :=
  ∀ {u call ρ} {action : M.Act ρ} {next},
    c.thread u = .busy call (.act action next) → P.Attempt (F.kind call) (ghosts u).2 action

/-- The proof obligations of a system: what starting a call, acting and
returning need from the condition. -/
structure Laws : Prop where
  promised : ∀ {c : S.Config} {ghosts t call ρ} {action : M.Act ρ} {result},
    P.Inv c.st ghosts → (∀ u, (ghosts u).1 = F.kindOf (c.thread u)) →
    F.Permitted c ghosts →
    (∃ next, c.thread t = .busy call (.act action next)) →
    F.condition c t (.act action result) → F.promise t call action c.st ghosts
  start : ∀ {c : S.Config} {ghosts t call kept},
    P.Inv c.st ghosts → (∀ u, (ghosts u).1 = F.kindOf (c.thread u)) →
    c.thread t = .idle kept → F.Idle t kept (ghosts t).2 →
    S.allowed t call kept c.st = true → F.condition c t (.start call) →
    ∃ ghost', P.Inv c.st (Function.update ghosts t (F.kind call, ghost')) ∧
      P.Triple t (F.kind call) (F.promise t call) ghost' (S.code t call kept)
        fun outcome ghost' => F.Done t call outcome.1 outcome.2 ghost'
  finish : ∀ {s ghosts t call result kept ghost},
    P.Inv s ghosts → ghosts t = (F.kind call, ghost) → F.Done t call result kept ghost →
    ∃ ghost', P.Inv s (Function.update ghosts t (F.idleKind, ghost')) ∧ F.Idle t kept ghost'

variable {F}

theorem Covers.permitted {n : Nat} {c : S.Config} {ghosts : Nat → P.Kind × P.Ghost}
    (covers : F.Covers (n + 1) c ghosts) : F.Permitted c ghosts := by
  intro u call ρ action next busy
  have follows := covers.follows u
  rw [busy] at follows
  exact follows.1

theorem Covers.done {n : Nat} {c : S.Config} {ghosts : Nat → P.Kind × P.Ghost}
    (covers : F.Covers (n + 1) c ghosts) {t : Nat} {call : S.Call} {result : S.Res}
    {kept : S.Loc} (busy : c.thread t = .busy call (.ret (result, kept))) :
    F.Done t call result kept (ghosts t).2 := by
  have follows := covers.follows t
  rw [busy] at follows
  exact follows

theorem Covers.idle {n : Nat} {c : S.Config} {ghosts : Nat → P.Kind × P.Ghost}
    (covers : F.Covers n c ghosts) {t : Nat} {kept : S.Loc}
    (idle : c.thread t = .idle kept) : F.Idle t kept (ghosts t).2 := by
  have follows := covers.follows t
  rw [idle] at follows
  exact follows

private theorem safe_fewer {program : Prog M.Act α} {post : α → P.Ghost → Prop} :
    ∀ {n : Nat} {ghost : P.Ghost}, P.Safe t kind promise (n + 1) ghost program post →
      P.Safe t kind promise n ghost program post := by
  intro n
  induction n generalizing program with
  | zero => exact fun _ => trivial
  | succ n ih =>
      intro ghost safe
      cases program with
      | ret value => exact safe
      | act action next =>
          refine ⟨safe.1, fun s ghosts result s' inv mine promised ran => ?_⟩
          obtain ⟨ghost', inv', rest⟩ := safe.2 s ghosts result s' inv mine promised ran
          exact ⟨ghost', inv', ih rest⟩
      | loop body start next => exact ih safe

private theorem follows_fewer {n u : Nat} {ghost : P.Ghost} {thread : S.Thread}
    (follows : F.Follows (n + 1) u ghost thread) : F.Follows n u ghost thread := by
  cases thread with
  | idle kept => exact follows
  | busy call program => exact safe_fewer follows

private theorem covers_update {n : Nat} {c c' : S.Config}
    {ghosts : Nat → P.Kind × P.Ghost} {t : Nat} (thread : S.Thread) (ghost' : P.Ghost)
    (covers : F.Covers (n + 1) c ghosts)
    (others : ∀ u, u ≠ t → c'.thread u = c.thread u) (mine : c'.thread t = thread)
    (inv : P.Inv c'.st (Function.update ghosts t (F.kindOf thread, ghost')))
    (follows : F.Follows n t ghost' thread) :
    F.Covers n c' (Function.update ghosts t (F.kindOf thread, ghost')) := by
  refine ⟨inv, fun u => ?_, fun u => ?_⟩
  · by_cases same : u = t
    · subst same
      rw [Function.update_self, mine]
    · rw [Function.update_of_ne same, others u same]
      exact covers.kinds u
  · by_cases same : u = t
    · subst same
      rw [Function.update_self, mine]
      exact follows
    · rw [Function.update_of_ne same, others u same]
      exact follows_fewer (covers.follows u)

theorem Covers.step (laws : F.Laws) {n : Nat} {c c' : S.Config} {t : Nat} {event : S.Event}
    {ghosts : Nat → P.Kind × P.Ghost} (covers : F.Covers (n + 1) c ghosts)
    (step : Step c t event c') (condition : F.condition c t event) :
    ∃ ghosts', F.Covers n c' ghosts' := by
  have others : ∀ u, u ≠ t → c'.thread u = c.thread u := fun u different => step.others different
  cases step with
  | @start kept call idle promised =>
      obtain ⟨ghost', inv, triple⟩ := laws.start covers.inv covers.kinds idle
        (covers.idle idle) promised condition
      exact ⟨_, covers_update (.busy call (S.code t call kept)) ghost' covers others
        (by simp only [Config.set, Function.update_self]) inv (triple n)⟩
  | @act call ρ action next result after busy ran =>
      have follows := covers.follows t
      have kinds := covers.kinds t
      rw [busy] at follows kinds
      have mine : ghosts t = (F.kind call, (ghosts t).2) := Prod.ext kinds rfl
      have promised := laws.promised covers.inv covers.kinds covers.permitted ⟨next, busy⟩ condition
      obtain ⟨ghost', inv, rest⟩ := follows.2 _ _ _ _ covers.inv mine promised ran
      exact ⟨_, covers_update (.busy call (next result)) ghost' covers others
        (by simp only [Function.update_self]) inv rest⟩
  | @unroll call σ β body start next busy =>
      have follows := covers.follows t
      have kinds := covers.kinds t
      rw [busy] at follows kinds
      refine ⟨_, covers_update (.busy call (Prog.unroll body start next))
        (ghosts t).2 covers others
        (by simp only [Config.set, Function.update_self]) ?_ follows⟩
      rw [show (F.kindOf (.busy call (Prog.unroll body start next)), (ghosts t).2) = ghosts t
        from Prod.ext kinds.symm rfl, Function.update_eq_self]
      exact covers.inv
  | @finish call result kept busy =>
      have kinds := covers.kinds t
      rw [busy] at kinds
      obtain ⟨ghost', inv, idle⟩ := laws.finish covers.inv
        (Prod.ext kinds rfl : ghosts t = (F.kind call, (ghosts t).2)) (covers.done busy)
      exact ⟨_, covers_update (.idle kept) ghost' covers others
        (by simp only [Config.set, Function.update_self]) inv idle⟩

/-- In a run that meets the condition, ghost values that explain the first
configuration extend to ghost values for every later one. -/
theorem covered (laws : F.Laws) {R : S.Run} (meets : R.Meets F.condition)
    (initially : ∀ n, ∃ ghosts, F.Covers n (R.cfg 0) ghosts) :
    ∀ i, i ≤ R.len → ∀ n, ∃ ghosts, F.Covers n (R.cfg i) ghosts := by
  intro i
  induction i with
  | zero => exact fun _ => initially
  | succ i ih =>
      intro bound n
      obtain ⟨ghosts, covers⟩ := ih (Nat.le_of_succ_le bound) (n + 1)
      exact covers.step laws (R.step i bound) (meets i bound)

end Fit

end Protocol
