/-
Handlers that open, create, close, drop and rename tables (ha_fastmem.cc).

Opening a table that is not registered takes several steps under the registry
mutex: a lookup that fails, a pinned fm_create, the registration of a handle,
and, where the handle cannot be allocated, the release of the pin. Steps of other
handlers fall between them. fm_create frees a share of the name that nobody uses
and fm_release_share the share whose last reference it gives back, whoever
created it and whatever rows it holds.
-/

import Fastmem.InterleavedSystem
import Fastmem.Registry.Counting

set_option autoImplicit false

namespace Fastmem

open Prog (perform Performs)
open ThreadSystem

/-! ### Handlers -/

/-- The atomic actions of a handler on the registry. `allocate` is the buffer of
fm_prepare_create_info; `markDelete` stores `delete_on_close` of a handle's share. -/
inductive RegistryAct : Type → Type
  | create (name : String) (pinShare : Bool) : RegistryAct (Option (Nat × Bool))
  | openTable (name : String) : RegistryAct Opened
  | openFromShareAndRegister (id : Nat) : RegistryAct (Option Nat)
  | close (handle : Nat) : RegistryAct Unit
  | releaseShare (id : Nat) : RegistryAct Unit
  | deleteTable (name : String) : RegistryAct Bool
  | rename (oldName newName : String) : RegistryAct Bool
  | markDelete (handle : Nat) : RegistryAct Unit
  | allocate : RegistryAct Bool

def setDeleteOnClose (r : Registry) (handle : Nat) : Registry :=
  match r.info handle with
  | none => r
  | some info => r.onShare info.s fun share => { share with deleteOnClose := true }

def RegistryAct.exec {ρ : Type} : RegistryAct ρ → Registry → ρ × Registry
  | .create name pinShare, r => (fmCreate r name false pinShare).swap
  | .openTable name, r => (fmOpen r name).swap
  | .openFromShareAndRegister id, r => (fmOpenFromShareAndRegister r id).swap
  | .close handle, r => ((), fmClose r handle)
  | .releaseShare id, r => ((), fmReleaseShare r id false)
  | .deleteTable name, r => (fmDeleteTable r name).swap
  | .rename oldName newName, r => (fmRename r oldName newName).swap
  | .markDelete handle, r => ((), setDeleteOnClose r handle)
  | .allocate, r => r.alloc

abbrev registryMachine : Machine where
  Act := RegistryAct
  St := Registry
  exec _ action r := some (action.exec r)

/-- The members of a handler that its calls on the registry use. -/
structure HaFile where
  file : Option Nat
  implicitEmptied : Bool
  deriving DecidableEq, Repr

abbrev HandlerProg := Prog RegistryAct (Int × HaFile)

def haOpen (name : String) (h : HaFile) : HandlerProg := do
  match ← perform (.openTable name) with
  | .handle file => return (0, { h with file := some file })
  | .enomem => return (1, { h with file := none })
  | .enoent =>
      if !(← perform .allocate) then return (1, { h with file := none })
      match ← perform (.create name true) with
      | none => return (1, { h with file := none })
      | some (id, created) =>
          match ← perform (.openFromShareAndRegister id) with
          | some file => return (0, ⟨some file, created⟩)
          | none =>
              perform (.releaseShare id)
              return (1, ⟨none, created⟩)

def haClose (h : HaFile) : HandlerProg := do
  match h.file with
  | none => return (0, h)
  | some file =>
      perform (.close file)
      return (0, { h with file := none })

def haCreate (name : String) (h : HaFile) : HandlerProg := do
  if !(← perform .allocate) then return (1, h)
  match ← perform (.create name false) with
  | none => return (1, h)
  | some _ => return (0, h)

/-- A table that is not there gives -1. -/
def haDeleteTable (name : String) (h : HaFile) : HandlerProg := do
  if ← perform (.deleteTable name) then return (0, h) else return (-1, h)

def haDropTable (h : HaFile) : HandlerProg := do
  match h.file with
  | none => return (0, h)
  | some file =>
      perform (.markDelete file)
      haClose h

def haRenameTable (oldName newName : String) (h : HaFile) : HandlerProg := do
  if ← perform (.rename oldName newName) then return (0, h) else return (1, h)

inductive HandlerCall
  | open_ (name : String)
  | close
  | create (name : String)
  | deleteTable (name : String)
  | dropTable
  | renameTable (oldName newName : String)
  deriving DecidableEq, Repr

def HandlerCall.program (h : HaFile) : HandlerCall → HandlerProg
  | .open_ name => haOpen name h
  | .close => haClose h
  | .create name => haCreate name h
  | .deleteTable name => haDeleteTable name h
  | .dropTable => haDropTable h
  | .renameTable oldName newName => haRenameTable oldName newName h

def handlers : ThreadSystem registryMachine where
  Call := HandlerCall
  Res := Int
  Loc := HaFile
  code _ call h := call.program h
  allowed _ call h _ :=
    match call with
    | .open_ _ => h.file.isNone
    | .close | .dropTable => h.file.isSome
    | .create _ | .deleteTable _ | .renameTable .. => true

/-! ### What frees a share -/

section

variable {r : Registry} {id other handle : Nat} {share : FmShare} {name : String}

theorem onShare_keeps (found : r.share id = some share) (change : FmShare → FmShare) :
    (r.onShare other change).share id ≠ none := by
  unfold Registry.onShare
  by_cases same : id = other
  · subst same
    rw [found]
    simp
  · simp [Function.update_of_ne same, found]

theorem fmFree_keeps (found : r.share id = some share) (different : id ≠ other) :
    (fmFree r other).share id = some share := by
  rw [fmFree_share, Function.update_of_ne different, found]

theorem newShare_keeps (found : r.share id = some share) (internalTable : Bool) :
    (newShare r name internalTable).1.share id ≠ none := by
  have kept : ∀ new, Function.update r.share r.shares (some new) id ≠ none := by
    intro new
    by_cases same : id = r.shares
    · subst same
      simp
    · simp [Function.update_of_ne same, found]
  have still : r.share id ≠ none := by
    rw [found]
    simp
  unfold newShare Registry.alloc
  dsimp only
  split
  · exact still
  · split
    · exact still
    · split
      · exact still
      · cases internalTable
        · exact kept _
        · exact kept _

/-- The end of fm_create for a name without a share. -/
def createNew (r : Registry) (name : String) (pinShare : Bool) : Registry × Option (Nat × Bool) :=
  match newShare r name false with
  | (r, none) => (r, none)
  | (r, some new) => (pinned r new false pinShare, some (new, true))

/-- fm_create frees the share it finds under its name when nobody uses it. -/
theorem fmCreate_removes {pinShare : Bool} (found : r.share id = some share)
    (removed : (fmCreate r name false pinShare).1.share id = none) :
    fmFindNamedShare r name = some id ∧ r.openCount id = 0 := by
  have pinned_keeps : ∀ {r' : Registry} {other : Nat} (kept : r'.share id ≠ none),
      (pinned r' other false pinShare).share id ≠ none := by
    intro r' other kept
    obtain ⟨share', at_⟩ := Option.ne_none_iff_exists'.mp kept
    unfold pinned
    split
    · exact onShare_keeps at_ _
    · exact kept
  have new_keeps : ∀ {r' : Registry} {share' : FmShare}, r'.share id = some share' →
      (createNew r' name pinShare).1.share id ≠ none := by
    intro r' share' at_
    unfold createNew
    have kept : (newShare r' name false).1.share id ≠ none := newShare_keeps at_ false
    cases made : newShare r' name false with
    | mk r₂ result =>
        rw [made] at kept
        cases result with
        | none => exact kept
        | some new => exact pinned_keeps kept
  unfold fmCreate claimNamed at removed
  simp only [Bool.false_eq_true, if_false] at removed
  cases named : fmFindNamedShare r name with
  | none =>
      rw [named] at removed
      exact absurd removed (new_keeps found)
  | some other =>
      rw [named] at removed
      dsimp only at removed
      by_cases unused : r.openCount other = 0
      · rw [if_pos unused] at removed
        by_cases same : id = other
        · subst same
          exact ⟨rfl, unused⟩
        · exact absurd removed (new_keeps (fmFree_keeps found same))
      · rw [if_neg unused] at removed
        refine absurd removed (pinned_keeps ?_)
        rw [found]
        simp

theorem fmOpenFromShareLocked_keeps (found : r.share id = some share) :
    (fmOpenFromShareLocked r other).1.share id ≠ none := by
  unfold fmOpenFromShareLocked Registry.alloc
  dsimp only
  split
  · rw [found]
    simp
  · exact @onShare_keeps { r with asked := r.asked + 1 } id other share found _

theorem listHandle_keeps (found : r.share id ≠ none) :
    (listHandle r other handle).share id ≠ none := by
  obtain ⟨share, at_⟩ := Option.ne_none_iff_exists'.mp found
  exact onShare_keeps at_ _

theorem fmOpen_keeps (found : r.share id = some share) : (fmOpen r name).1.share id ≠ none := by
  unfold fmOpen
  cases fmFindNamedShare r name with
  | none =>
      rw [found]
      simp
  | some other =>
      have kept : (fmOpenFromShareLocked r other).1.share id ≠ none :=
        fmOpenFromShareLocked_keeps found
      dsimp only
      cases locked : fmOpenFromShareLocked r other with
      | mk r₁ opened =>
          rw [locked] at kept
          cases opened with
          | none => exact kept
          | some handle => exact listHandle_keeps kept

theorem fmOpenFromShareAndRegister_keeps (found : r.share id = some share) :
    (fmOpenFromShareAndRegister r other).1.share id ≠ none := by
  have kept : (fmOpenFromShareLocked r other).1.share id ≠ none :=
    fmOpenFromShareLocked_keeps found
  unfold fmOpenFromShareAndRegister
  cases locked : fmOpenFromShareLocked r other with
  | mk r₁ opened =>
      rw [locked] at kept
      cases opened with
      | none => exact kept
      | some handle =>
          obtain ⟨share₁, at_⟩ := Option.ne_none_iff_exists'.mp (listHandle_keeps kept)
          exact onShare_keeps at_ _

theorem fmClose_keeps (found : r.share id = some share) (unmarked : share.deleteOnClose = false) :
    (fmClose r handle).share id ≠ none := by
  unfold fmClose
  cases r.info handle with
  | none =>
      rw [found]
      simp
  | some info =>
      dsimp only
      have kept := @onShare_keeps r id info.s share found fun share =>
        { share with
          openList := if info.openListed then share.openList.erase handle else share.openList
          openCount := share.openCount - 1 }
      split
      · rename_i frees
        have different : id ≠ info.s := by
          rintro rfl
          have marked := frees.2
          unfold unlistHandle Registry.onShare at marked
          rw [found] at marked
          simp [unmarked] at marked
        rw [fmFree_share, Function.update_of_ne different]
        exact kept
      · exact kept

theorem fmReleaseShare_removes (found : r.share id = some share)
    (removed : (fmReleaseShare r other false).share id = none) :
    id = other ∧ r.openCount id ≤ 1 := by
  have kept := @onShare_keeps r id other share found fun share =>
    { share with openCount := share.openCount - 1 }
  unfold fmReleaseShare at removed
  rw [if_neg Bool.false_ne_true] at removed
  dsimp only at removed
  split at removed
  · rename_i zero
    by_cases same : id = other
    · subst same
      refine ⟨rfl, ?_⟩
      rw [openCount_found found]
      have at_ := congrFun (onShare_found found fun share =>
        { share with openCount := share.openCount - 1 }) id
      rw [Function.update_self] at at_
      rw [openCount_found at_] at zero
      dsimp only at zero
      omega
    · rw [fmFree_share, Function.update_of_ne same] at removed
      exact absurd removed kept
  · exact absurd removed kept

theorem fmDeleteTable_removes (found : r.share id = some share)
    (removed : (fmDeleteTable r name).1.share id = none) : share.name = name := by
  unfold fmDeleteTable at removed
  cases named : fmFindNamedShare r name with
  | none =>
      rw [named] at removed
      rw [found] at removed
      cases removed
  | some other =>
      rw [named] at removed
      dsimp only at removed
      unfold fmTryFree at removed
      split at removed
      · by_cases same : id = other
        · subst same
          have matched := List.find?_some named
          rw [found] at matched
          simpa using matched
        · rw [fmFree_keeps found same] at removed
          cases removed
      · exact absurd removed (onShare_keeps found _)

theorem fmRename_keeps (found : r.share id = some share) (newName : String) :
    (fmRename r name newName).1.share id ≠ none := by
  unfold fmRename Registry.alloc
  cases fmFindNamedShare r name with
  | none =>
      rw [found]
      simp
  | some other =>
      dsimp only
      split
      · rw [found]
        simp
      · exact @onShare_keeps { r with asked := r.asked + 1 } id other share found _

theorem setDeleteOnClose_keeps (found : r.share id = some share) :
    (setDeleteOnClose r handle).share id ≠ none := by
  unfold setDeleteOnClose
  cases r.info handle with
  | none =>
      rw [found]
      simp
  | some info => exact onShare_keeps found _

end

/-! ### Runs -/

def HandlerCall.performs (call : HandlerCall) (ρ : Type) : RegistryAct ρ → Prop
  | .create name pinShare => call = if pinShare then .open_ name else .create name
  | .deleteTable name => call = .deleteTable name
  | _ => True

theorem haClose_performs (call : HandlerCall) (h : HaFile) :
    (haClose h).Performs call.performs := by
  unfold haClose
  cases h.file with
  | none => exact .ret _
  | some file => exact .step trivial fun _ => .ret _

theorem handlers_perform (t : Nat) (call : HandlerCall) (h : HaFile) :
    (handlers.code t call h).Performs call.performs := by
  cases call with
  | open_ name =>
      refine .step trivial fun opened => ?_
      cases opened with
      | handle file => exact .ret _
      | enomem => exact .ret _
      | enoent =>
          refine .step trivial fun granted => ?_
          cases granted with
          | false => exact .ret _
          | true =>
              refine .step rfl fun result => ?_
              cases result with
              | none => exact .ret _
              | some pair =>
                  refine .step trivial fun opened => ?_
                  cases opened with
                  | some file => exact .ret _
                  | none => exact .step trivial fun _ => .ret _
  | close => exact haClose_performs .close h
  | create name =>
      refine .step trivial fun granted => ?_
      cases granted with
      | false => exact .ret _
      | true =>
          refine .step rfl fun result => ?_
          cases result with
          | none => exact .ret _
          | some pair => exact .ret _
  | deleteTable name =>
      refine .step rfl fun found => ?_
      cases found with
      | false => exact .ret _
      | true => exact .ret _
  | dropTable =>
      change (haDropTable h).Performs _
      unfold haDropTable
      cases h.file with
      | none => exact .ret _
      | some file => exact .step trivial fun _ => haClose_performs .dropTable h
  | renameTable oldName newName =>
      refine .step trivial fun renamed => ?_
      cases renamed with
      | false => exact .ret _
      | true => exact .ret _

/-- When an open creates a share nobody left one of its name unused, and when it gives a pin
back another reference is left; shares that are marked for deletion do not matter. -/
def OpensApart (c : handlers.Config) (_ : Nat) : handlers.Event → Prop
  | .act (.create name true) _ => ∀ id share, fmFindNamedShare c.st name = some id →
      c.st.share id = some share → share.deleteOnClose = false → share.openCount ≠ 0
  | .act (.releaseShare id) _ => ∀ share, c.st.share id = some share →
      share.deleteOnClose = false → 1 < share.openCount
  | _ => True

/-- In a run whose opens keep apart, a share that is not marked for deletion is freed by the
drop of its table or by an explicit create of its name, never by an open or a close. -/
theorem opens_keep_shares (R : handlers.Run) (outcome : Nat → Bool)
    (starts : R.StartsIn (.empty outcome) ⟨none, false⟩) (apart : R.Meets OpensApart) (i : Nat)
    (bound : i < R.len) (id : Nat) (share : FmShare) (found : (R.st i).share id = some share)
    (unmarked : share.deleteOnClose = false) (freed : (R.st (i + 1)).share id = none) :
    ∃ call program, (R.cfg i).thread (R.tid i) = .busy call program ∧
      (call = HandlerCall.deleteTable share.name ∨ call = HandlerCall.create share.name) := by
  have performed : ∀ {ρ : Type} {action : RegistryAct ρ} {result : ρ},
      R.ev i = .act action result → ∃ call program,
        (R.cfg i).thread (R.tid i) = .busy call program ∧ call.performs ρ action :=
    fun event => R.performs starts handlers_perform bound event
  have step := R.step i bound
  have kept := apart i bound
  unfold Run.st at found freed
  generalize R.ev i = event at step performed kept
  generalize R.cfg (i + 1) = after at step freed
  have unchanged : after.st = (R.cfg i).st → False := by
    intro same
    rw [same, found] at freed
    cases freed
  cases step with
  | start call idle promised => exact (unchanged rfl).elim
  | unroll busy => exact (unchanged rfl).elim
  | finish busy => exact (unchanged rfl).elim
  | @act _ ρ action _ result after busy ran =>
      obtain ⟨call, program, at_, belongs⟩ := performed rfl
      have moved : action.exec (R.cfg i).st = (result, after) := Option.some.inj ran
      have removed : (action.exec (R.cfg i).st).2.share id = none := by
        rw [moved]
        exact freed
      refine ⟨call, program, at_, ?_⟩
      cases action with
      | create name pinShare =>
          obtain ⟨named, unused⟩ := fmCreate_removes found removed
          cases pinShare with
          | true =>
              rw [openCount_found found] at unused
              exact absurd unused (kept id share named found unmarked)
          | false =>
              have matched := List.find?_some named
              rw [found] at matched
              have same : share.name = name := by simpa using matched
              rw [same]
              exact .inr belongs
      | openTable name => exact absurd removed (fmOpen_keeps found)
      | openFromShareAndRegister other =>
          exact absurd removed (fmOpenFromShareAndRegister_keeps found)
      | close handle => exact absurd removed (fmClose_keeps found unmarked)
      | releaseShare other =>
          obtain ⟨rfl, last⟩ := fmReleaseShare_removes found removed
          rw [openCount_found found] at last
          exact absurd (kept share found unmarked) (Nat.not_lt.mpr last)
      | deleteTable name =>
          rw [fmDeleteTable_removes found removed]
          exact .inl belongs
      | rename oldName newName => exact absurd removed (fmRename_keeps found newName)
      | markDelete handle => exact absurd removed (setDeleteOnClose_keeps found)
      | allocate =>
          have still : (R.cfg i).st.share id = none := removed
          rw [found] at still
          cases still

/-- Handler 0 looks for the table and does not find it; handler 1 opens it, which creates it,
and closes it again; handler 0 goes on. -/
def openRace : List (Nat × Option HandlerCall) :=
  [(0, some (.open_ "t")), (0, none), (1, some (.open_ "t")), (1, none), (1, none), (1, none),
    (1, none), (1, none), (1, some .close), (1, none), (1, none), (0, none), (0, none)]

def openStart : handlers.Config := ⟨.empty fun _ => true, fun _ => .idle ⟨none, false⟩⟩

theorem openRace_played : (play openStart openRace).isSome = true := by
  decide +kernel

def openRaceRun : handlers.Run := Run.ofSchedule openStart openRace openRace_played

/-- The last step, an open, frees the share that handler 1 left behind with its rows. -/
theorem opens_keep_shares_broken : ¬ ∀ (R : handlers.Run) (outcome : Nat → Bool),
    R.StartsIn (.empty outcome) ⟨none, false⟩ → ∀ i, i < R.len → ∀ id share,
      (R.st i).share id = some share → share.deleteOnClose = false →
      (R.st (i + 1)).share id = none →
      ∃ call program, (R.cfg i).thread (R.tid i) = .busy call program ∧
        (call = HandlerCall.deleteTable share.name ∨ call = HandlerCall.create share.name) := by
  intro claim
  have found : (openRaceRun.st 12).share 0 = some ⟨"t", 0, false, false, []⟩ := by decide +kernel
  have freed : (openRaceRun.st 13).share 0 = none := by decide +kernel
  obtain ⟨call, program, busy, explicit⟩ :=
    claim openRaceRun _ rfl 12 (by decide) 0 _ found rfl freed
  have opening : ∃ program, (openRaceRun.cfg 12).thread (openRaceRun.tid 12) =
      .busy (HandlerCall.open_ "t") program := ⟨_, rfl⟩
  obtain ⟨program', opens⟩ := opening
  rw [opens] at busy
  cases busy
  rcases explicit with impossible | impossible <;> cases impossible

section Test

variable {R : handlers.Run}

def opensStep (c : handlers.Config) (_ : Nat) (event : handlers.Event) : Bool :=
  match event with
  | .act (.create name true) _ =>
      ((fmFindNamedShare c.st name).bind c.st.share).all fun share =>
        share.deleteOnClose || decide (share.openCount ≠ 0)
  | .act (.releaseShare id) _ =>
      (c.st.share id).all fun share => share.deleteOnClose || decide (1 < share.openCount)
  | _ => true

theorem opensApart_of_steps
    (steps : ∀ i, i < R.len → opensStep (R.cfg i) (R.tid i) (R.ev i) = true) :
    R.Meets OpensApart := by
  intro i bound
  have passed := steps i bound
  unfold opensStep at passed
  unfold OpensApart
  generalize R.ev i = event at passed
  cases event with
  | act action result =>
      cases action with
      | create name pinShare =>
          cases pinShare with
          | false => trivial
          | true =>
              intro id share named found unmarked
              change ((fmFindNamedShare (R.cfg i).st name).bind (R.cfg i).st.share).all _ = true
                at passed
              rw [named, Option.bind_some, found] at passed
              simpa [unmarked] using passed
      | releaseShare id =>
          intro share found unmarked
          change ((R.cfg i).st.share id).all _ = true at passed
          rw [found] at passed
          simpa [unmarked] using passed
      | _ => trivial
  | _ => trivial

end Test

/-- Handlers 0 and 2 look for the table and do not find it; handler 0 creates and opens it, and
handler 2, for which the same share is pinned, gets no handle and gives the pin back. Handler 1
finds the share. It stays when both have closed it, until handler 2 deletes the table. -/
def openTurns : List (Nat × Option HandlerCall) :=
  List.flatten [callSteps 2 (.open_ "t") 1, callSteps 0 (.open_ "t") 3, List.replicate 2 (2, none),
    List.replicate 2 (0, none), List.replicate 3 (2, none), callSteps 1 (.open_ "t") 2,
    callSteps 0 .close 2, callSteps 1 .close 2, callSteps 2 (.deleteTable "t") 1]

/-- The seventh request is refused, the handle of handler 2. -/
def openTurnsStart : handlers.Config := ⟨.empty fun i => i != 6, fun _ => .idle ⟨none, false⟩⟩

theorem openTurns_played : (play openTurnsStart openTurns).isSome = true := by
  decide +kernel

def openTurnsRun : handlers.Run := Run.ofSchedule openTurnsStart openTurns openTurns_played

theorem opens_keep_shares_openTurns :
    (openTurnsRun.st 13).share 0 = some ⟨"t", 1, false, false, [0]⟩ ∧
      (openTurnsRun.st 16).share 0 = some ⟨"t", 2, false, false, [1, 0]⟩ ∧
      ∃ call program, (openTurnsRun.cfg 23).thread 2 = .busy call program ∧
        (call = HandlerCall.deleteTable "t" ∨ call = HandlerCall.create "t") := by
  have apart : openTurnsRun.Meets OpensApart :=
    opensApart_of_steps (Run.ofSchedule_passes opensStep (by decide +kernel))
  have found : (openTurnsRun.st 23).share 0 = some ⟨"t", 0, false, false, []⟩ := by decide +kernel
  exact ⟨by decide +kernel, by decide +kernel,
    opens_keep_shares openTurnsRun _ rfl apart 23 (by decide) 0 _ found rfl (by decide +kernel)⟩

end Fastmem
