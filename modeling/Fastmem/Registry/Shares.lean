/-
The registry of shares (fm_create.cc): creating, opening, closing, dropping and
renaming tables.

Every function here runs under THR_LOCK_fastmem from its first access to the
registry to its last, so each is one atomic step. Shares and handles are named by
the order of their allocation; a block that was freed is gone for good. The two
intrusive lists, `share_next` and `next_open`, are lists of names. An allocation
takes the next outcome of the allocator, whatever it is.
-/

import Mathlib.Logic.Function.Basic

set_option autoImplicit false

namespace Fastmem

/-- What the registry keeps in an FM_SHARE. -/
structure FmShare where
  name : String
  openCount : Nat
  deleteOnClose : Bool
  internal : Bool
  openList : List Nat
  deriving DecidableEq, Repr

/-- What the registry keeps in an FM_INFO. -/
structure FmInfo where
  s : Nat
  openListed : Bool
  deriving DecidableEq, Repr

/-- `freed` holds the argument of every call of fm_free, the latest first. -/
structure Registry where
  share : Nat → Option FmShare
  info : Nat → Option FmInfo
  list : List Nat
  shares : Nat
  infos : Nat
  freed : List Nat
  outcome : Nat → Bool
  asked : Nat

namespace Registry

def empty (outcome : Nat → Bool) : Registry where
  share _ := none
  info _ := none
  list := []
  shares := 0
  infos := 0
  freed := []
  outcome := outcome
  asked := 0

def alloc (r : Registry) : Bool × Registry :=
  (r.outcome r.asked, { r with asked := r.asked + 1 })

def onShare (r : Registry) (id : Nat) (change : FmShare → FmShare) : Registry :=
  { r with share := Function.update r.share id ((r.share id).map change) }

def openCount (r : Registry) (id : Nat) : Nat := ((r.share id).map FmShare.openCount).getD 0

end Registry

variable (r : Registry)

def fmFindNamedShare (name : String) : Option Nat :=
  r.list.find? fun id => (r.share id).any fun share => share.name == name

def fmShareListAdd (id : Nat) : Registry := { r with list := id :: r.list }

def fmShareListRemove (id : Nat) : Registry := { r with list := r.list.erase id }

/-- Also a second call for one share is recorded. -/
def fmFree (id : Nat) : Registry :=
  let internal := (r.share id).any FmShare.internal
  let r := if internal then r else fmShareListRemove r id
  { r with share := Function.update r.share id none, freed := id :: r.freed }

/-! ### fm_create -/

/-- Allocation of the block, of the chunk array and of the name. Where one fails the others
are released again. -/
def newShare (name : String) (internalTable : Bool) : Registry × Option Nat :=
  let (block, r) := r.alloc
  if !block then (r, none)
  else
    let (chunks, r) := r.alloc
    if !chunks then (r, none)
    else
      let (copied, r) := r.alloc
      if !copied then (r, none)
      else
        let id := r.shares
        let share : FmShare := ⟨name, 0, internalTable, internalTable, []⟩
        let r := { r with share := Function.update r.share id (some share), shares := id + 1 }
        (if internalTable then r else fmShareListAdd r id, some id)

/-- The share to use: a registered one that is in use, else none; one that is not in use is
freed. -/
def claimNamed (name : String) : Registry × Option Nat :=
  match fmFindNamedShare r name with
  | none => (r, none)
  | some id => if r.openCount id = 0 then (fmFree r id, none) else (r, some id)

def pinned (id : Nat) (internalTable pinShare : Bool) : Registry :=
  if !internalTable && pinShare then
    r.onShare id fun share => { share with openCount := share.openCount + 1 }
  else r

/-- The share and `*created_new_share`, or `none` for the return of 1. -/
def fmCreate (name : String) (internalTable pinShare : Bool) : Registry × Option (Nat × Bool) :=
  match if internalTable then (r, none) else claimNamed r name with
  | (r, some id) => (pinned r id internalTable pinShare, some (id, false))
  | (r, none) =>
      match newShare r name internalTable with
      | (r, none) => (r, none)
      | (r, some id) => (pinned r id internalTable pinShare, some (id, true))

/-! ### Open and close -/

def fmOpenFromShareLocked (id : Nat) : Registry × Option Nat :=
  let (block, r) := r.alloc
  if !block then (r, none)
  else
    let r := r.onShare id fun share => { share with openCount := share.openCount + 1 }
    let handle := r.infos
    ({ r with info := Function.update r.info handle (some ⟨id, false⟩), infos := handle + 1 },
      some handle)

def listHandle (id handle : Nat) : Registry :=
  let r := r.onShare id fun share => { share with openList := handle :: share.openList }
  let listed := (r.info handle).map fun info => { info with openListed := true }
  { r with info := Function.update r.info handle listed }

def fmOpenFromShareAndRegister (id : Nat) : Registry × Option Nat :=
  match fmOpenFromShareLocked r id with
  | (r, none) => (r, none)
  | (r, some handle) =>
      ((listHandle r id handle).onShare id fun share =>
        { share with openCount := share.openCount - 1 }, some handle)

inductive Opened
  | handle (handle : Nat)
  | enoent
  | enomem
  deriving DecidableEq, Repr

def fmOpen (name : String) : Registry × Opened :=
  match fmFindNamedShare r name with
  | none => (r, .enoent)
  | some id =>
      match fmOpenFromShareLocked r id with
      | (r, none) => (r, .enomem)
      | (r, some handle) => (listHandle r id handle, .handle handle)

def unlistHandle (id handle : Nat) (listed : Bool) : Registry :=
  r.onShare id fun share =>
    { share with
      openList := if listed then share.openList.erase handle else share.openList
      openCount := share.openCount - 1 }

def fmClose (handle : Nat) : Registry :=
  match r.info handle with
  | none => r
  | some info =>
      let r := unlistHandle r info.s handle info.openListed
      let r :=
        if r.openCount info.s = 0 ∧ (r.share info.s).any FmShare.deleteOnClose then
          fmFree r info.s
        else r
      { r with info := Function.update r.info handle none }

def fmReleaseShare (id : Nat) (internalTable : Bool) : Registry :=
  if internalTable then fmFree r id
  else
    let r := r.onShare id fun share => { share with openCount := share.openCount - 1 }
    if r.openCount id = 0 then fmFree r id else r

/-! ### Drop and rename -/

def fmTryFree (id : Nat) : Registry :=
  if r.openCount id = 0 then fmFree r id
  else r.onShare id fun share => { share with deleteOnClose := true }

/-- The result is whether the table was there. -/
def fmDeleteTable (name : String) : Registry × Bool :=
  match fmFindNamedShare r name with
  | none => (r, false)
  | some id => (fmTryFree r id, true)

def fmDropTable (handle : Nat) : Registry :=
  match r.info handle with
  | none => r
  | some info => fmTryFree r info.s

/-- Only the copy of the new name can fail; a table that is not there is no error. -/
def fmRename (oldName newName : String) : Registry × Bool :=
  match fmFindNamedShare r oldName with
  | none => (r, true)
  | some id =>
      let (copied, r) := r.alloc
      if !copied then (r, false)
      else (r.onShare id fun share => { share with name := newName }, true)

end Fastmem
