/-
Locks that are taken in the order of their ranks.

`Locking` says which actions of a machine take and give back locks. Threads that
take a lock only while all they hold is of smaller rank cannot wait for each
other in a circle. The ghost value of a thread is a set of locks that contains
all it holds; what a program does to it is proved with one rule per action.
-/

import Fastmem.ThreadProtocol
import Mathlib.Data.Finset.Lattice.Fold
import Mathlib.Logic.Relation

set_option autoImplicit false

open ThreadSystem

/-- The locks of a machine. Nothing but a lock that is owned keeps an action from being done. -/
structure Locking (M : Machine) : Type 1 where
  Lock : Type
  rank : Lock → Nat
  owner : M.St → Lock → Option Nat
  takes : {ρ : Type} → M.Act ρ → Option Lock
  gives : {ρ : Type} → M.Act ρ → Option Lock
  taken : ∀ {ρ : Type} {action : M.Act ρ} {t : Nat} {s s' : M.St} {result : ρ},
    M.exec t action s = some (result, s') → ∀ l u, owner s' l = some u →
    owner s l = some u ∨ (takes action = some l ∧ u = t)
  given : ∀ {ρ : Type} {action : M.Act ρ} {t : Nat} {s s' : M.St} {result : ρ},
    M.exec t action s = some (result, s') → ∀ l, gives action = some l → owner s' l = none
  blocked : ∀ {ρ : Type} {action : M.Act ρ} {t : Nat} {s : M.St}, M.exec t action s = none →
    ∃ l u, takes action = some l ∧ owner s l = some u

namespace Locking

variable {M : Machine} (L : Locking M)

def protocol : Protocol M where
  Kind := Unit
  Ghost := Set L.Lock
  Inv s ghosts := ∀ l t, L.owner s l = some t → l ∈ (ghosts t).2
  Attempt _ held action := ∀ l, L.takes action = some l → ∀ l' ∈ held, L.rank l' < L.rank l

/-- The program, started with locks of the one set, takes its locks in order and ends with locks
of the other. -/
abbrev Triple (t : Nat) {α : Type} (held : Set L.Lock) (program : Prog M.Act α)
    (post : α → Set L.Lock → Prop) : Prop :=
  L.protocol.Triple t () (fun _ _ _ _ => True) held program post

variable {L} {t : Nat} {α ρ : Type} {held : Set L.Lock}

/-- The invariant after an action, with a set that has what the action took and keeps all that it
did not give back. -/
theorem protocol_act {action : M.Act ρ} {s s' : M.St} {result : ρ}
    {ghosts : Nat → L.protocol.Kind × L.protocol.Ghost} {held' : Set L.Lock}
    (inv : L.protocol.Inv s ghosts) (mine : ghosts t = ((), held))
    (ran : M.exec t action s = some (result, s'))
    (keeps : ∀ l ∈ held, L.gives action ≠ some l → l ∈ held')
    (takes : ∀ l, L.takes action = some l → l ∈ held') :
    L.protocol.Inv s' (Function.update ghosts t ((), held')) := by
  intro l u owner
  rcases L.taken ran l u owner with before | ⟨took, rfl⟩
  · have member := inv l u before
    by_cases own : u = t
    · subst own
      rw [Function.update_self]
      rw [mine] at member
      refine keeps l member fun gave => ?_
      rw [L.given ran l gave] at owner
      cases owner
    · rw [Function.update_of_ne own]
      exact member
  · rw [Function.update_self]
    exact takes l took

variable (L) in
/-- The program, started with some of the locks of one set, takes its locks in order and ends with
locks of another set, which may depend on its result. -/
def Orderly (t : Nat) {α : Type} (held : Set L.Lock) (program : Prog M.Act α)
    (left : α → Set L.Lock) : Prop :=
  ∀ some_ ⊆ held, L.Triple t some_ program fun value rest => rest ⊆ left value

namespace Orderly

variable {β ι : Type} {program : Prog M.Act α}

theorem ret {value : α} {left : α → Set L.Lock} (within : held ⊆ left value) :
    L.Orderly t held (.ret value) left :=
  fun _ fewer => Protocol.Triple.ret (fewer.trans within)

theorem fewer {more : Set L.Lock} {left : α → Set L.Lock} (orderly : L.Orderly t more program left)
    (within : held ⊆ more) : L.Orderly t held program left :=
  fun some_ subset => orderly some_ (subset.trans within)

theorem mono {left left' : α → Set L.Lock} (orderly : L.Orderly t held program left)
    (within : ∀ value, left value ⊆ left' value) : L.Orderly t held program left' :=
  fun some_ subset => (orderly some_ subset).mono fun value _ rest => rest.trans (within value)

theorem bind {f : α → Prog M.Act β} {mid : α → Set L.Lock} {left : β → Set L.Lock}
    (first : L.Orderly t held program mid) (second : ∀ value, L.Orderly t (mid value) (f value) left) :
    L.Orderly t held (program.bind f) left :=
  fun some_ subset => Protocol.Triple.bind (first some_ subset) fun value ghost rest =>
    second value ghost rest

theorem take {action : M.Act ρ} {l : L.Lock} (takes : L.takes action = some l)
    (order : ∀ l' ∈ held, L.rank l' < L.rank l) :
    L.Orderly t held (Prog.perform action) fun _ => insert l held := by
  intro some_ subset
  refine Protocol.Triple.perform (fun l' same => ?_) fun s ghosts result s' inv mine _ ran => ?_
  · cases Option.some.inj (takes.symm.trans same)
    exact fun l' member => order l' (subset member)
  · refine ⟨(insert l some_ : Set L.Lock), protocol_act inv mine ran
      (fun l' member _ => Or.inr member) fun l' same => ?_, Set.insert_subset_insert subset⟩
    cases Option.some.inj (takes.symm.trans same)
    exact Or.inl rfl

theorem give {action : M.Act ρ} {l : L.Lock} (takes : L.takes action = none)
    (gives : L.gives action = some l) :
    L.Orderly t held (Prog.perform action) fun _ => held \ {l} := by
  intro some_ subset
  refine Protocol.Triple.perform (fun l' same => ?_) fun s ghosts result s' inv mine _ ran => ?_
  · cases takes.symm.trans same
  · refine ⟨(some_ \ {l} : Set L.Lock), protocol_act inv mine ran
      (fun l' member other => ⟨member, ?_⟩) fun l' same => ?_, Set.sdiff_subset_sdiff_left subset⟩
    · rintro rfl
      exact other gives
    · cases takes.symm.trans same

theorem takesNone (performs : program.Performs fun _ action => L.takes action = none) :
    L.Orderly t held program fun _ => held := by
  have keeps : ∀ some_ : Set L.Lock, L.Triple t some_ program fun _ rest => rest = some_ := by
    intro some_ n
    induction n generalizing program with
    | zero => exact trivial
    | succ n ih =>
        cases program with
        | ret value => exact rfl
        | act action next =>
            refine ⟨fun l same => ?_, fun s ghosts result s' inv mine _ ran => ?_⟩
            · cases performs.1.symm.trans same
            · refine ⟨some_, protocol_act inv mine ran (fun l member _ => member) fun l same => ?_,
                ih (performs.2 result)⟩
              cases performs.1.symm.trans same
        | loop body start next => exact ih performs.unroll
  intro some_ subset
  refine (keeps some_).mono ?_
  rintro value rest rfl
  exact subset

theorem giveBack {action : M.Act ρ} {l : L.Lock} (takes : L.takes action = none)
    (gives : L.gives action = some l) :
    L.Orderly t (insert l held) (Prog.perform action) fun _ => held := by
  refine (give takes gives).mono fun _ l' member => ?_
  obtain ⟨same | inHeld, other⟩ := member
  · exact absurd same other
  · exact inHeld

theorem forEach {body : ι → Prog M.Act Unit} {items : List ι}
    (round : ∀ item ∈ items, L.Orderly t held (body item) fun _ => held) :
    L.Orderly t held (Prog.forEach items body) fun _ => held := by
  induction items with
  | nil => exact ret fun l member => member
  | cons item rest ih =>
      refine bind (round item (List.mem_cons_self ..)) fun _ => ih fun later member => ?_
      exact round later (List.mem_cons_of_mem item member)

end Orderly

/-! ### Waiting -/

variable (L) {S : ThreadSystem M}

def wanted : S.Thread → Option L.Lock
  | .busy _ (.act action _) => L.takes action
  | .busy _ (.ret _) | .busy _ (.loop _ _ _) | .idle _ => none

def Wants (c : S.Config) (t : Nat) (l : L.Lock) : Prop := L.wanted (c.thread t) = some l

/-- Thread `t` cannot go on before thread `u` has given back a lock. -/
def WaitsFor (c : S.Config) (t u : Nat) : Prop := ∃ l, L.Wants c t l ∧ L.owner c.st l = some u

/-- Every thread wants a lock of higher rank than all that it holds. -/
def Ranked (c : S.Config) : Prop :=
  ∀ t l l', L.Wants c t l → L.owner c.st l' = some t → L.rank l' < L.rank l

/-- No threads wait for each other in a circle: none of a set of threads waits for another one of
the set, and from every thread on waiting comes to an end. -/
structure DeadlockFree (c : S.Config) : Prop where
  noCircle : ∀ threads : Set Nat, threads.Nonempty →
    ¬ ∀ t ∈ threads, ∃ u ∈ threads, L.WaitsFor c t u
  ends : ∀ t, ∃ u, Relation.ReflTransGen (L.WaitsFor c) t u ∧
    ((∃ kept, c.thread u = .idle kept) ∨ ∃ event c', Step c u event c')

variable {L} {c : S.Config}

theorem Wants.unique {l l' : L.Lock} (first : L.Wants c t l) (second : L.Wants c t l') :
    l = l' :=
  Option.some.inj (first.symm.trans second)

theorem Wants.action {l : L.Lock} (wants : L.Wants c t l) :
    ∃ (call : S.Call) (ρ : Type) (action : M.Act ρ) (next : ρ → Prog M.Act (S.Res × S.Loc)),
      c.thread t = .busy call (.act action next) ∧ L.takes action = some l := by
  unfold Wants wanted at wants
  split at wants
  · rename_i call ρ action next busy
    exact ⟨call, ρ, action, next, busy, wants⟩
  · cases wants
  · cases wants
  · cases wants

theorem WaitsFor.unique {u v : Nat} (first : L.WaitsFor c t u) (second : L.WaitsFor c t v) :
    u = v := by
  obtain ⟨l, wants, owner⟩ := first
  obtain ⟨l', wants', owner'⟩ := second
  cases wants.unique wants'
  exact Option.some.inj (owner.symm.trans owner')

theorem moves_of_not_waits {u : Nat} (free : ∀ v, ¬ L.WaitsFor c u v) :
    (∃ kept, c.thread u = .idle kept) ∨ ∃ event c', Step c u event c' := by
  cases thread : c.thread u with
  | idle kept => exact Or.inl ⟨kept, rfl⟩
  | busy call program =>
      refine Or.inr ?_
      cases program with
      | ret outcome =>
          obtain ⟨result, kept⟩ := outcome
          exact ⟨_, _, .finish thread⟩
      | loop body start next => exact ⟨_, _, .unroll thread⟩
      | act action next =>
          cases ran : M.exec u action c.st with
          | some outcome =>
              obtain ⟨result, after⟩ := outcome
              exact ⟨_, _, .act thread ran⟩
          | none =>
              obtain ⟨l, v, takes, owner⟩ := L.blocked ran
              refine absurd ⟨l, ?_, owner⟩ (free v)
              unfold Wants
              rw [thread]
              exact takes

/-- Waiting goes up the ranks, so among finitely many threads it ends. -/
theorem Ranked.ends (ranked : L.Ranked c) {movers : Finset Nat}
    (owners : ∀ l u, L.owner c.st l = some u → u ∈ movers) (t : Nat) :
    ∃ u, Relation.ReflTransGen (L.WaitsFor c) t u ∧ ∀ v, ¬ L.WaitsFor c u v := by
  obtain ⟨top, highest⟩ : ∃ top, ∀ u ∈ movers, ∀ l, L.Wants c u l → L.rank l ≤ top := by
    clear owners
    induction movers using Finset.induction_on with
    | empty => exact ⟨0, fun u member => absurd member (Finset.notMem_empty u)⟩
    | insert u rest _ ih =>
        obtain ⟨top, highest⟩ := ih
        by_cases wants : ∃ l, L.Wants c u l
        · obtain ⟨l, wants⟩ := wants
          refine ⟨max top (L.rank l), fun v member l' wants' => ?_⟩
          rcases Finset.mem_insert.mp member with rfl | earlier
          · rw [wants'.unique wants]
            exact Nat.le_max_right ..
          · exact Nat.le_trans (highest v earlier l' wants') (Nat.le_max_left ..)
        · refine ⟨top, fun v member l' wants' => ?_⟩
          rcases Finset.mem_insert.mp member with rfl | earlier
          · exact absurd ⟨l', wants'⟩ wants
          · exact highest v earlier l' wants'
  have climb : ∀ d u, u ∈ movers → (∀ l, L.Wants c u l → top < L.rank l + d) →
      ∃ v, Relation.ReflTransGen (L.WaitsFor c) u v ∧ ∀ w, ¬ L.WaitsFor c v w := by
    intro d
    induction d with
    | zero =>
        intro u member above
        refine ⟨u, .refl, fun v waits => ?_⟩
        obtain ⟨l, wants, _⟩ := waits
        have below := highest u member l wants
        have := above l wants
        omega
    | succ d ih =>
        intro u member above
        by_cases waiting : ∃ v, L.WaitsFor c u v
        · obtain ⟨v, l, wants, owner⟩ := waiting
          obtain ⟨w, path, free⟩ := ih v (owners l v owner) fun l' wants' => by
            have rises := ranked v l' l wants' owner
            have := above l wants
            omega
          exact ⟨w, .head ⟨l, wants, owner⟩ path, free⟩
        · exact ⟨u, .refl, fun v waits => waiting ⟨v, waits⟩⟩
  by_cases waiting : ∃ v, L.WaitsFor c t v
  · obtain ⟨v, l, wants, owner⟩ := waiting
    obtain ⟨w, path, free⟩ := climb (top + 1) v (owners l v owner) fun l' _ => by omega
    exact ⟨w, .head ⟨l, wants, owner⟩ path, free⟩
  · exact ⟨t, .refl, fun v waits => waiting ⟨v, waits⟩⟩

theorem Ranked.deadlockFree (ranked : L.Ranked c) {movers : Finset Nat}
    (owners : ∀ l u, L.owner c.st l = some u → u ∈ movers) : L.DeadlockFree c := by
  constructor
  · intro threads nonempty circle
    obtain ⟨t, member⟩ := nonempty
    obtain ⟨u, path, free⟩ := ranked.ends owners t
    have inside : u ∈ threads := by
      clear free
      induction path with
      | refl => exact member
      | tail _ waits ih =>
          obtain ⟨v, within, waits'⟩ := circle _ ih
          rw [waits.unique waits']
          exact within
    obtain ⟨v, _, waits⟩ := circle u inside
    exact free v waits
  · intro t
    obtain ⟨u, path, free⟩ := ranked.ends owners t
    exact ⟨u, path, moves_of_not_waits free⟩

theorem ranked_of_covers {F : Protocol.Fit S L.protocol} {m : Nat}
    {ghosts : Nat → L.protocol.Kind × L.protocol.Ghost} (covers : F.Covers (m + 1) c ghosts) :
    L.Ranked c := by
  intro t l l' wants owner
  obtain ⟨call, ρ, action, next, busy, takes⟩ := wants.action
  exact covers.permitted busy l takes l' (covers.inv l' t owner)

/-! ### Systems -/

variable (L) in
def fit (S : ThreadSystem M) (kept : S.Loc → Set L.Lock) : Protocol.Fit S L.protocol where
  condition _ _ _ := True
  idleKind := ()
  kind _ := ()
  promise _ _ := fun _ _ _ _ => True
  Idle _ loc (held : Set L.Lock) := held ⊆ kept loc
  Done _ _ _ loc (held : Set L.Lock) := held ⊆ kept loc

variable {kept : S.Loc → Set L.Lock}

theorem fit_laws (calls : ∀ t call loc,
    L.Orderly t (kept loc) (S.code t call loc) fun outcome => kept outcome.2) :
    (L.fit S kept).Laws where
  promised _ _ _ _ _ := trivial
  start {c ghosts t call loc} inv kinds _ within _ _ := by
    refine ⟨(ghosts t).2, ?_, calls t call loc (ghosts t).2 within⟩
    rw [show (((L.fit S kept).kind call, (ghosts t).2) : L.protocol.Kind × L.protocol.Ghost) =
      ghosts t from rfl, Function.update_eq_self]
    exact inv
  finish {s ghosts t call result loc held} inv mine done := by
    refine ⟨held, ?_, done⟩
    rw [show (((L.fit S kept).idleKind, held) : L.protocol.Kind × L.protocol.Ghost) = ghosts t from
      mine.symm, Function.update_eq_self]
    exact inv

theorem owners_moved {R : S.Run} (free : ∀ l, L.owner (R.st 0) l = none) :
    ∀ i, i ≤ R.len → ∀ l u, L.owner (R.st i) l = some u → u ∈ (Finset.range i).image R.tid := by
  intro i
  induction i with
  | zero =>
      intro _ l u owner
      rw [free l] at owner
      cases owner
  | succ i ih =>
      intro bound l u owner
      have earlier : L.owner (R.st i) l = some u → u ∈ (Finset.range (i + 1)).image R.tid := by
        intro before
        refine Finset.image_subset_image ?_ (ih (Nat.le_of_succ_le bound) l u before)
        exact Finset.range_subset_range.mpr (Nat.le_succ i)
      have step := R.step i bound
      unfold Run.st at owner earlier
      generalize R.cfg (i + 1) = c' at step owner
      generalize R.ev i = event at step
      cases step with
      | act busy ran =>
          cases L.taken ran l u owner with
          | inl before => exact earlier before
          | inr took =>
              rw [took.2]
              exact Finset.mem_image_of_mem R.tid (Finset.self_mem_range_succ i)
      | start call idle promised => exact earlier owner
      | unroll busy => exact earlier owner
      | finish busy => exact earlier owner

theorem run_deadlockFree (kept : S.Loc → Set L.Lock) (calls : ∀ t call loc,
      L.Orderly t (kept loc) (S.code t call loc) fun outcome => kept outcome.2)
    {R : S.Run} {s : M.St} {loc : S.Loc} (starts : R.StartsIn s loc)
    (free : ∀ l, L.owner s l = none) : ∀ i, i ≤ R.len → L.DeadlockFree (R.cfg i) := by
  have initially : ∀ m, ∃ ghosts, (L.fit S kept).Covers m (R.cfg 0) ghosts := by
    intro m
    refine ⟨fun _ => ((), (∅ : Set L.Lock)), ⟨?_, fun _ => rfl, fun u => ?_⟩⟩
    · intro l t owner
      rw [starts] at owner
      cases (free l).symm.trans owner
    · rw [starts]
      exact Set.empty_subset (kept loc)
  intro i bound
  obtain ⟨ghosts, covers⟩ :=
    Protocol.Fit.covered (fit_laws calls) (fun _ _ => trivial) initially i bound 1
  refine (ranked_of_covers covers).deadlockFree (owners_moved (fun l => ?_) i bound)
  unfold Run.st
  rw [starts]
  exact free l

/-! ### Calls with ranks of their own -/

variable (L) in
/-- The same locks under other ranks. -/
abbrev reranked (rank : L.Lock → Nat) : Locking M := { L with rank := rank }

theorem DeadlockFree.of_reranked {rank : L.Lock → Nat}
    (free : (L.reranked rank).DeadlockFree c) : L.DeadlockFree c :=
  ⟨free.noCircle, free.ends⟩

section Kinds

variable {κ : Type} (rankOf : κ → L.Lock → Nat)

variable (L) in
def kindProtocol : Protocol M where
  Kind := κ
  Ghost := Set L.Lock
  Inv s ghosts := ∀ l t, L.owner s l = some t → l ∈ (ghosts t).2
  Attempt kind held action :=
    ∀ l, L.takes action = some l → ∀ l' ∈ held, rankOf kind l' < rankOf kind l

theorem update_snd {β γ : Type} (pairs : Nat → β × γ) (u v : Nat) (b : β) (c : γ) :
    (Function.update pairs u (b, c) v).2 = Function.update (fun w => (pairs w).2) u c v := by
  by_cases same : v = u
  · rw [same, Function.update_self, Function.update_self]
  · rw [Function.update_of_ne same, Function.update_of_ne same]

/-- A program that is in order by the ranks of a kind keeps to the protocol of all kinds. -/
theorem Orderly.ofKind {kind : κ} {program : Prog M.Act α} {left : α → Set L.Lock}
    (orderly : (L.reranked (rankOf kind)).Orderly t held program left) (some_ : Set L.Lock)
    (within : some_ ⊆ held) :
    (L.kindProtocol rankOf).Triple t kind (fun _ _ _ _ => True) some_ program
      fun value (rest : Set L.Lock) => rest ⊆ left value := by
  intro n
  have safe := orderly some_ within n
  clear orderly within
  induction n generalizing program some_ with
  | zero => exact trivial
  | succ n ih =>
      cases program with
      | ret value => exact safe
      | loop body start next => exact ih some_ safe
      | act action next =>
          refine ⟨safe.1, fun s ghosts result s' inv mine _ ran => ?_⟩
          obtain ⟨held', inv', rest⟩ := safe.2 s (fun u => ((), (ghosts u).2)) result s' inv
            (by rw [mine]) trivial ran
          refine ⟨held', fun l u owner => ?_, ih held' rest⟩
          have member := inv' l u owner
          have same := (update_snd (fun w => ((), (ghosts w).2)) t u () held').trans
            (update_snd ghosts t u kind held').symm
          exact (Set.ext_iff.mp same l).mp member

def StartsWith (may : S.Call → S.Loc → Prop) (c : S.Config) (t : Nat) (event : S.Event) : Prop :=
  ∀ call loc, event = .start call → c.thread t = .idle loc → may call loc

variable (L) in
/-- Every thread wants a lock that is above all it holds, by the ranks of its call. -/
def RankedByKind (kind : S.Call → κ) (c : S.Config) : Prop :=
  ∀ t call program l l', c.thread t = .busy call program → L.Wants c t l →
    L.owner c.st l' = some t → rankOf (kind call) l' < rankOf (kind call) l

theorem run_rankedByKind (kind : S.Call → κ) (resting : κ) (kept : S.Loc → Set L.Lock)
    (may : S.Call → S.Loc → Prop)
    (calls : ∀ t call loc, may call loc → (L.reranked (rankOf (kind call))).Orderly t (kept loc)
      (S.code t call loc) fun outcome => kept outcome.2)
    {R : S.Run} {s : M.St} {loc : S.Loc} (starts : R.StartsIn s loc)
    (free : ∀ l, L.owner s l = none) (meets : R.Meets (StartsWith may)) :
    ∀ i, i ≤ R.len → L.RankedByKind rankOf kind (R.cfg i) := by
  let fit : Protocol.Fit S (L.kindProtocol rankOf) :=
    { condition := StartsWith may
      idleKind := resting
      kind := kind
      promise := fun _ _ _ _ _ _ => True
      Idle := fun _ loc (held : Set L.Lock) => held ⊆ kept loc
      Done := fun _ _ _ loc (held : Set L.Lock) => held ⊆ kept loc }
  -- what the threads hold does not change when a call starts or returns
  have changed : ∀ {s : M.St} {ghosts : Nat → κ × Set L.Lock} {u : Nat} {k : κ},
      (L.kindProtocol rankOf).Inv s ghosts →
      (L.kindProtocol rankOf).Inv s (Function.update ghosts u (k, (ghosts u).2)) := by
    intro s ghosts u k inv l v owner
    have same : (Function.update ghosts u (k, (ghosts u).2) v).2 = (ghosts v).2 := by
      rw [update_snd, Function.update_eq_self]
    exact (Set.ext_iff.mp same l).mpr (inv l v owner)
  have laws : fit.Laws :=
    { promised := fun _ _ _ _ _ => trivial
      start := fun {c ghosts t call loc} inv _ idle within _ starting =>
        ⟨(ghosts t).2, changed inv, Orderly.ofKind rankOf
          (calls t call loc (starting call loc rfl idle)) (ghosts t).2 within⟩
      finish := fun {s ghosts t call result loc held} inv mine done => by
        refine ⟨held, ?_, done⟩
        have same := changed (u := t) (k := resting) inv
        rw [mine] at same
        exact same }
  have initially : ∀ m, ∃ ghosts, fit.Covers m (R.cfg 0) ghosts := by
    intro m
    refine ⟨fun _ => (resting, (∅ : Set L.Lock)), ⟨?_, fun u => ?_, fun u => ?_⟩⟩
    · intro l t owner
      rw [starts] at owner
      cases (free l).symm.trans owner
    · rw [starts]
      rfl
    · rw [starts]
      exact Set.empty_subset (kept loc)
  intro i bound t call program l l' busy wants owner
  obtain ⟨ghosts, covers⟩ := Protocol.Fit.covered laws meets initially i bound 1
  obtain ⟨call', ρ, action, next, busy', takes⟩ := wants.action
  obtain ⟨rfl, rfl⟩ : call = call' ∧ program = .act action next := by
    rw [busy] at busy'
    cases busy'
    exact ⟨rfl, rfl⟩
  exact covers.permitted busy l takes l' (covers.inv l' t owner)

end Kinds

end Locking
