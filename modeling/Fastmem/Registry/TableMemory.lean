/-
The blocks of tables over their whole life (fm_create.cc, fm_core.h).

Tables are created, opened, grown, renamed, closed and dropped in any order, and
any request to the allocator can be refused. The functions of the registry run
under THR_LOCK_fastmem and fm_core_grow_chunk under the mutex of a share that an
open handle keeps alive, so each call is one step. At every time a granted block
is either held in one place or has been released once, and handles and pins are
of shares that are still there. Internal tables are left out.
-/

import Fastmem.Registry.BlockLedger
import Mathlib.Logic.Function.Basic

set_option autoImplicit false

namespace Fastmem

open Allocator

/-- The block of an FM_INFO and that of its share. -/
structure InfoBlock where
  block : Nat
  s : Nat
  deriving DecidableEq, Repr

/-- `pins` are the callers of fm_create that have yet to open their share or to release it;
`deleteOnClose` is the flag of the share with this block. -/
structure TableMemory extends ShareMemory where
  infos : List InfoBlock
  deleteOnClose : Nat → Bool
  pins : List Nat

/-- A call that does not return: it follows a pointer to a released share, or goes through an
array that was not granted. -/
inductive Fault
  | dangling
  | missing
  deriving DecidableEq, Repr

namespace TableMemory

def empty (outcome : Nat → Bool) : TableMemory where
  toShareMemory := .untouched outcome
  infos := []
  deleteOnClose _ := false
  pins := []

variable (tables : TableMemory)

def share (block : Nat) : Except Fault ShareBlock :=
  match tables.shares.find? fun share => share.block == block with
  | none => .error .dangling
  | some share => .ok share

def onShare (block : Nat) (change : ShareBlock → ShareBlock) : TableMemory :=
  { tables with
    shares := tables.shares.map fun share => if share.block = block then change share else share }

def onHeap (heap : Allocator) : TableMemory := { tables with heap := heap }

def fmFree (share : ShareBlock) : Except Fault TableMemory :=
  match tables.free share with
  | none => .error .missing
  | some memory => .ok { tables with toShareMemory := memory }

/-! ### Create, open and close -/

def create (name : String) (keys : Nat) (pinShare : Bool) : Except Fault TableMemory :=
  match tables.fmCreate ⟨name, keys, false, pinShare⟩ with
  | none => .error .missing
  | some result =>
      let tables := { tables with toShareMemory := result.memory }
      match result.res with
      | none => .ok tables
      | some share =>
          .ok (if pinShare then { tables with pins := share.block :: tables.pins } else tables)

/-- fm_open_from_share_locked, and whether it has made a handle. -/
def fmOpenFromShareLocked (block : Nat) : Bool × TableMemory :=
  let (info, heap) := tables.heap.alloc
  let tables := tables.onHeap heap
  match info with
  | none => (false, tables)
  | some info =>
      let tables := tables.onShare block fun share =>
        { share with openCount := share.openCount + 1 }
      (true, { tables with infos := ⟨info, block⟩ :: tables.infos })

def fmOpen (name : String) : TableMemory :=
  match tables.find name with
  | none => tables
  | some share => (tables.fmOpenFromShareLocked share.block).2

/-- A share that cannot be opened keeps its pin; the caller releases it. -/
def fmOpenFromShareAndRegister (block : Nat) : Except Fault TableMemory := do
  let _ ← tables.share block
  match tables.fmOpenFromShareLocked block with
  | (false, tables) => .ok tables
  | (true, tables) =>
      let tables := tables.onShare block fun share =>
        { share with openCount := share.openCount - 1 }
      .ok { tables with pins := tables.pins.erase block }

def fmClose (info : InfoBlock) : Except Fault TableMemory := do
  let _ ← tables.share info.s
  let tables := tables.onShare info.s fun share =>
    { share with openCount := share.openCount - 1 }
  let share ← tables.share info.s
  let tables ← if share.openCount = 0 ∧ tables.deleteOnClose info.s = true then tables.fmFree share
    else .ok tables
  .ok { tables.onHeap (tables.heap.release (some info.block)) with
    infos := tables.infos.erase info }

def fmReleaseShare (block : Nat) : Except Fault TableMemory := do
  let _ ← tables.share block
  let tables := tables.onShare block fun share => { share with openCount := share.openCount - 1 }
  let share ← tables.share block
  let tables ← if share.openCount = 0 then tables.fmFree share else .ok tables
  .ok { tables with pins := tables.pins.erase block }

/-! ### Drop, rename and grow -/

def fmTryFree (share : ShareBlock) : Except Fault TableMemory :=
  if share.openCount = 0 then tables.fmFree share
  else .ok { tables with deleteOnClose := Function.update tables.deleteOnClose share.block true }

def fmDeleteTable (name : String) : Except Fault TableMemory :=
  match tables.find name with
  | none => .ok tables
  | some share => tables.fmTryFree share

def fmDropTable (info : InfoBlock) : Except Fault TableMemory := do
  let share ← tables.share info.s
  tables.fmTryFree share

def dropTable (info : InfoBlock) : Except Fault TableMemory := do
  let share ← tables.share info.s
  let tables := { tables with
    deleteOnClose := Function.update tables.deleteOnClose share.block true }
  tables.fmClose info

def fmRename (oldName newName : String) : TableMemory :=
  match tables.find oldName with
  | none => tables
  | some share =>
      let (copy, heap) := tables.heap.alloc
      match copy with
      | none => tables.onHeap heap
      | some copy =>
          (tables.onHeap (heap.release share.nameBlock)).onShare share.block fun share =>
            { share with name := newName, nameBlock := some copy }

/-- An insert through the handle asks for a chunk. `chunkCap` is the `chunk_cap` of each share. -/
def grow (chunkCap : Nat → Nat) (info : InfoBlock) : Except Fault TableMemory := do
  let share ← tables.share info.s
  match share.core.fmCoreGrowChunk (chunkCap info.s) tables.heap with
  | none => .error .missing
  | some (core, heap) =>
      .ok ((tables.onHeap heap).onShare info.s fun share => { share with core := core })

end TableMemory

/-! ### Runs -/

inductive TableCall
  | create (name : String) (keys : Nat) (pinShare : Bool)
  | fmOpen (name : String)
  | fmOpenFromShareAndRegister (block : Nat)
  | fmClose (info : InfoBlock)
  | fmReleaseShare (block : Nat)
  | fmDeleteTable (name : String)
  | fmDropTable (info : InfoBlock)
  | dropTable (info : InfoBlock)
  | fmRename (oldName newName : String)
  | grow (info : InfoBlock)
  deriving DecidableEq, Repr

def TableCall.allowed (tables : TableMemory) : TableCall → Bool
  | .fmClose info | .fmDropTable info | .dropTable info | .grow info => decide (info ∈ tables.infos)
  | .fmOpenFromShareAndRegister block | .fmReleaseShare block => decide (block ∈ tables.pins)
  | .create .. | .fmOpen _ | .fmDeleteTable _ | .fmRename .. => true

def TableMemory.step (chunkCap : Nat → Nat) (tables : TableMemory) :
    TableCall → Except Fault TableMemory
  | .create name keys pinShare => tables.create name keys pinShare
  | .fmOpen name => .ok (tables.fmOpen name)
  | .fmOpenFromShareAndRegister block => tables.fmOpenFromShareAndRegister block
  | .fmClose info => tables.fmClose info
  | .fmReleaseShare block => tables.fmReleaseShare block
  | .fmDeleteTable name => tables.fmDeleteTable name
  | .fmDropTable info => tables.fmDropTable info
  | .dropTable info => tables.dropTable info
  | .fmRename oldName newName => .ok (tables.fmRename oldName newName)
  | .grow info => tables.grow chunkCap info

/-- The calls are made one after the other and all return. -/
def TableMemory.run (chunkCap : Nat → Nat) (tables : TableMemory) :
    List TableCall → Option TableMemory
  | [] => some tables
  | call :: rest =>
      if call.allowed tables then
        match tables.step chunkCap call with
        | .ok after => after.run chunkCap rest
        | .error _ => none
      else none

/-! ### Shares and their references -/

/-- Each share counts its references, and there are none of other blocks. -/
structure Referenced (shares : List ShareBlock) (refs : Nat → Nat) : Prop where
  external : ∀ share ∈ shares, share.internal = false
  counted : ∀ share ∈ shares, share.openCount = refs share.block
  alive : ∀ block, refs block ≠ 0 → ∃ share ∈ shares, share.block = block

namespace Referenced

variable {shares : List ShareBlock} {refs refs' : Nat → Nat} {block : Nat}
  {change : ShareBlock → ShareBlock}

theorem onShare (referenced : Referenced shares refs)
    (blocks : ∀ share, (change share).block = share.block)
    (internal : ∀ share, (change share).internal = share.internal)
    (counted : ∀ share ∈ shares, share.block = block → (change share).openCount = refs' block)
    (others : ∀ other, other ≠ block → refs' other = refs other)
    (present : refs' block ≠ 0 → ∃ share ∈ shares, share.block = block) :
    Referenced (shares.map fun share => if share.block = block then change share else share)
      refs' := by
  constructor
  · intro share member
    obtain ⟨old, was, rfl⟩ := List.mem_map.mp member
    split
    · rw [internal]
      exact referenced.external old was
    · exact referenced.external old was
  · intro share member
    obtain ⟨old, was, rfl⟩ := List.mem_map.mp member
    split
    · rename_i here
      rw [counted old was here, blocks, here]
    · rename_i other
      rw [others _ other]
      exact referenced.counted old was
  · intro other used
    have alive : ∃ share ∈ shares, share.block = other := by
      by_cases same : other = block
      · subst same
        exact present used
      · exact referenced.alive other (others other same ▸ used)
    obtain ⟨old, was, rfl⟩ := alive
    refine ⟨_, List.mem_map_of_mem was, ?_⟩
    split
    · exact blocks old
    · rfl

theorem more (referenced : Referenced shares refs) (present : ∃ share ∈ shares, share.block = block)
    (used : refs' block = refs block + 1) (others : ∀ other, other ≠ block → refs' other = refs other) :
    Referenced (shares.map fun share =>
      if share.block = block then { share with openCount := share.openCount + 1 } else share)
      refs' := by
  refine referenced.onShare (fun _ => rfl) (fun _ => rfl) (fun share member here => ?_) others
    fun _ => present
  rw [used, ← here, ← referenced.counted share member]

theorem less (referenced : Referenced shares refs) (used : refs block = refs' block + 1)
    (others : ∀ other, other ≠ block → refs' other = refs other) :
    Referenced (shares.map fun share =>
      if share.block = block then { share with openCount := share.openCount - 1 } else share)
      refs' := by
  refine referenced.onShare (fun _ => rfl) (fun _ => rfl) (fun share member here => ?_) others
    fun _ => referenced.alive block (by omega)
  have counted := referenced.counted share member
  rw [here, used] at counted
  simp only [counted, Nat.add_sub_cancel]

theorem same (referenced : Referenced shares refs)
    (blocks : ∀ share, (change share).block = share.block)
    (internal : ∀ share, (change share).internal = share.internal)
    (counts : ∀ share, (change share).openCount = share.openCount) :
    Referenced (shares.map fun share => if share.block = block then change share else share)
      refs := by
  refine referenced.onShare blocks internal (fun share member here => ?_) (fun _ _ => rfl)
    (referenced.alive block)
  rw [counts, referenced.counted share member, here]

theorem add (referenced : Referenced shares refs) {share : ShareBlock}
    (external : share.internal = false) (unused : share.openCount = 0)
    (fresh : refs share.block = 0) : Referenced (share :: shares) refs := by
  constructor
  · intro other member
    cases List.mem_cons.mp member with
    | inl same => rw [same, external]
    | inr older => exact referenced.external other older
  · intro other member
    cases List.mem_cons.mp member with
    | inl same => rw [same, unused, fresh]
    | inr older => exact referenced.counted other older
  · intro other used
    obtain ⟨old, was, here⟩ := referenced.alive other used
    exact ⟨old, List.mem_cons_of_mem _ was, here⟩

theorem remove (referenced : Referenced shares refs) (unused : refs block = 0) :
    Referenced (shares.eraseP fun share => share.block == block) refs := by
  constructor
  · exact fun other member => referenced.external other (List.mem_of_mem_eraseP member)
  · exact fun other member => referenced.counted other (List.mem_of_mem_eraseP member)
  · intro other used
    obtain ⟨old, was, here⟩ := referenced.alive other used
    refine ⟨old, (List.mem_eraseP_of_neg ?_).mpr was, here⟩
    intro clash
    rw [here] at clash
    rw [eq_of_beq clash] at used
    exact used unused

end Referenced

def refsOf (infos : List InfoBlock) (pins : List Nat) (block : Nat) : Nat :=
  infos.countP (fun info => info.s == block) + pins.count block

section Refs

variable (infos : List InfoBlock) (pins : List Nat) (info : InfoBlock) (block : Nat)

theorem refsOf_open : refsOf (info :: infos) pins info.s = refsOf infos pins info.s + 1 := by
  unfold refsOf
  simp only [List.countP_cons, beq_self_eq_true, if_true]
  omega

theorem refsOf_open_other {other : Nat} (different : other ≠ info.s) :
    refsOf (info :: infos) pins other = refsOf infos pins other := by
  unfold refsOf
  rw [List.countP_cons_of_neg]
  simpa using different.symm

variable {infos pins info block}

theorem refsOf_close (member : info ∈ infos) :
    refsOf infos pins info.s = refsOf (infos.erase info) pins info.s + 1 := by
  rw [← refsOf_open]
  unfold refsOf
  rw [(List.perm_cons_erase member).countP_eq]

theorem refsOf_close_other {other : Nat} (member : info ∈ infos) (different : other ≠ info.s) :
    refsOf (infos.erase info) pins other = refsOf infos pins other := by
  rw [← refsOf_open_other (infos.erase info) pins info different]
  unfold refsOf
  rw [(List.perm_cons_erase member).countP_eq]

theorem refsOf_pin : refsOf infos (block :: pins) block = refsOf infos pins block + 1 := by
  unfold refsOf
  rw [List.count_cons_self]
  omega

theorem refsOf_pin_other {other : Nat} (different : other ≠ block) :
    refsOf infos (block :: pins) other = refsOf infos pins other := by
  unfold refsOf
  rw [List.count_cons_of_ne different.symm]

theorem refsOf_unpin (member : block ∈ pins) :
    refsOf infos pins block = refsOf infos (pins.erase block) block + 1 := by
  rw [← refsOf_pin]
  unfold refsOf
  rw [(List.perm_cons_erase member).count_eq]

theorem refsOf_unpin_other {other : Nat} (different : other ≠ block) :
    refsOf infos (pins.erase block) other = refsOf infos pins other := by
  unfold refsOf
  rw [List.count_erase_of_ne different]

end Refs

/-! ### The invariant -/

/-- Every granted block is held once or was released once, by shares that count their references
or by others. -/
structure Accounts (outcome : Nat → Bool) (shares : List ShareBlock) (refs : Nat → Nat) (others : Multiset Nat)
    (heap : Allocator) : Prop where
  outcomes : heap.outcome = outcome
  blocks : shareBlocks shares + others + (heap.freed : Multiset Nat) = grants outcome 0 heap.asked
  referenced : Referenced shares refs

namespace Accounts

variable {outcome : Nat → Bool} {shares shares' : List ShareBlock} {refs refs' : Nat → Nat}
  {others others' : Multiset Nat} {heap heap' : Allocator}

theorem moved (accounts : Accounts outcome shares refs others heap)
    (conserves : Conserves (shareBlocks shares + others) (shareBlocks shares' + others') heap heap')
    (referenced : Referenced shares' refs') : Accounts outcome shares' refs' others' heap' := by
  refine ⟨conserves.outcome.trans accounts.outcomes, ?_, referenced⟩
  have order := conserves.asked
  have total := grants_add outcome 0 heap.asked (heap'.asked - heap.asked)
  rw [show heap.asked + (heap'.asked - heap.asked) = heap'.asked by omega, zero_add] at total
  rw [conserves.blocks, accounts.blocks, accounts.outcomes, total, Multiset.coe_add]

theorem held_granted (accounts : Accounts outcome shares refs others heap) :
    shareBlocks shares ≤ (grants outcome 0 heap.asked : Multiset Nat) := by
  rw [← accounts.blocks, add_assoc]
  exact Multiset.le_add_right _ _

theorem distinct (accounts : Accounts outcome shares refs others heap) :
    (shares.map ShareBlock.block).Nodup :=
  shareBlocks_distinct (Multiset.nodup_of_le accounts.held_granted
    (Multiset.coe_nodup.mpr (grants_nodup _ _ _)))

theorem fresh (accounts : Accounts outcome shares refs others heap) : refs heap.asked = 0 := by
  apply Classical.byContradiction
  intro used
  obtain ⟨share, member, same⟩ := accounts.referenced.alive heap.asked used
  have granted := Multiset.mem_of_le accounts.held_granted (block_mem_shareBlocks member)
  have below := (mem_grants.mp (Multiset.mem_coe.mp granted)).1.2
  omega

theorem free {memory memory' : ShareMemory}
    (accounts : Accounts outcome memory.shares refs others memory.heap) {share : ShareBlock}
    (member : share ∈ memory.shares) (unused : share.openCount = 0)
    (freed : memory.free share = some memory') :
    Accounts outcome memory'.shares refs others memory'.heap := by
  obtain ⟨erased, conserves⟩ := ShareMemory.free_inv (accounts.referenced.external share member) freed
  have removed := shareBlocks_eraseP (find_of_mem accounts.distinct member)
  have counted := accounts.referenced.counted share member
  refine accounts.moved ?_ ?_
  · have all := conserves.frame (shareBlocks memory'.shares + others)
    rw [zero_add, ← add_assoc, erased, removed, ← erased] at all
    exact all
  · rw [erased]
    exact accounts.referenced.remove (by omega)

end Accounts

namespace TableMemory

def infoBlocks (infos : List InfoBlock) : Multiset Nat := (infos.map InfoBlock.block : List Nat)

def Accounted (outcome : Nat → Bool) (tables : TableMemory) : Prop :=
  Accounts outcome tables.shares (refsOf tables.infos tables.pins) (infoBlocks tables.infos) tables.heap

/-- A call ends in such a state or at a missing array. -/
def Sound (outcome : Nat → Bool) : Except Fault TableMemory → Prop
  | .ok after => after.Accounted outcome
  | .error fault => fault = .missing

variable {outcome : Nat → Bool} {tables : TableMemory} {block : Nat} {share : ShareBlock}
  {info : InfoBlock} {name : String}

/-! ### Parts of the calls -/

theorem share_ok (present : ∃ share ∈ tables.shares, share.block = block) :
    ∃ share, tables.share block = .ok share ∧ share ∈ tables.shares ∧ share.block = block := by
  unfold TableMemory.share
  cases found : tables.shares.find? (fun share => share.block == block) with
  | none =>
      obtain ⟨share, member, same⟩ := present
      have absent := List.find?_eq_none.mp found share member
      rw [same, beq_self_eq_true] at absent
      exact absurd rfl absent
  | some share =>
      have here := List.find?_some found
      exact ⟨share, rfl, List.mem_of_find?_eq_some found, eq_of_beq here⟩

theorem onShare_present (change : ShareBlock → ShareBlock)
    (blocks : ∀ share, (change share).block = share.block)
    (present : ∃ share ∈ tables.shares, share.block = block) :
    ∃ share ∈ (tables.onShare block change).shares, share.block = block := by
  obtain ⟨share, member, same⟩ := present
  refine ⟨_, List.mem_map_of_mem member, ?_⟩
  rw [if_pos same, blocks, same]

theorem onCount_blocks (count : ShareBlock → Nat) :
    shareBlocks (tables.onShare block fun share => { share with openCount := count share }).shares =
      shareBlocks tables.shares := by
  refine shareBlocks_map (fun share => ?_) tables.shares
  split
  · rfl
  · rfl

/-- fm_free, of a share without references. -/
theorem fmFree_cases {refs : Nat → Nat} {others : Multiset Nat}
    (accounts : Accounts outcome tables.shares refs others tables.heap) (member : share ∈ tables.shares)
    (unused : share.openCount = 0) :
    tables.fmFree share = .error .missing ∨ ∃ after, tables.fmFree share = .ok after ∧
      Accounts outcome after.shares refs others after.heap ∧ after.infos = tables.infos ∧
      after.pins = tables.pins := by
  unfold fmFree
  cases freed : tables.free share with
  | none => exact Or.inl rfl
  | some memory => exact Or.inr ⟨_, rfl, accounts.free member unused freed, rfl, rfl⟩

theorem fmOpenFromShareLocked_accounted (accounted : tables.Accounted outcome)
    (present : ∃ share ∈ tables.shares, share.block = block) :
    (tables.fmOpenFromShareLocked block).2.Accounted outcome := by
  have allocated := (Conserves.alloc tables.heap).frame (shareBlocks tables.shares + infoBlocks tables.infos)
  unfold fmOpenFromShareLocked
  generalize tables.heap.alloc = request at allocated
  obtain ⟨made, heap⟩ := request
  rw [zero_add] at allocated
  cases made with
  | none =>
      refine Accounts.moved accounted ?_ accounted.referenced
      change Conserves _ (0 + (shareBlocks tables.shares + infoBlocks tables.infos)) _ _ at allocated
      rw [zero_add] at allocated
      exact allocated
  | some made =>
      refine Accounts.moved accounted ?_ (accounted.referenced.more present
        (refsOf_open tables.infos tables.pins ⟨made, block⟩) fun _ =>
          refsOf_open_other tables.infos tables.pins ⟨made, block⟩)
      have more : shareBlocks (tables.onShare block fun share =>
          { share with openCount := share.openCount + 1 }).shares + ({made} + infoBlocks tables.infos) =
          {made} + (shareBlocks tables.shares + infoBlocks tables.infos) := by
        rw [onCount_blocks]
        abel
      exact more ▸ allocated

/-! ### The calls -/

theorem Accounted.opened (accounted : tables.Accounted outcome) (member : info ∈ tables.infos) :
    ∃ share ∈ tables.shares, share.block = info.s := by
  refine accounted.referenced.alive info.s ?_
  rw [refsOf_close member]
  exact Nat.succ_ne_zero _

theorem Accounted.pinned (accounted : tables.Accounted outcome) (member : block ∈ tables.pins) :
    ∃ share ∈ tables.shares, share.block = block := by
  refine accounted.referenced.alive block ?_
  rw [refsOf_unpin member]
  exact Nat.succ_ne_zero _

theorem fmOpen_sound (accounted : tables.Accounted outcome) : (tables.fmOpen name).Accounted outcome := by
  unfold fmOpen
  cases found : tables.find name with
  | none => exact accounted
  | some share =>
      exact fmOpenFromShareLocked_accounted accounted
        ⟨share, List.mem_of_find?_eq_some found, rfl⟩

theorem fmOpenFromShareAndRegister_sound (accounted : tables.Accounted outcome)
    (member : block ∈ tables.pins) : Sound outcome (tables.fmOpenFromShareAndRegister block) := by
  have present := accounted.pinned member
  obtain ⟨share, lookup, _, _⟩ := share_ok present
  have opened := fmOpenFromShareLocked_accounted accounted present
  have pins : (tables.fmOpenFromShareLocked block).2.pins = tables.pins := by
    unfold fmOpenFromShareLocked
    dsimp only
    split
    · rfl
    · rfl
  unfold fmOpenFromShareAndRegister
  rw [lookup]
  dsimp only [bind, Except.bind]
  generalize tables.fmOpenFromShareLocked block = result at opened pins
  obtain ⟨made, after⟩ := result
  cases made with
  | false => exact opened
  | true =>
      have pinned : block ∈ after.pins := pins ▸ member
      refine Accounts.moved opened ?_ (opened.referenced.less (refsOf_unpin pinned)
        fun _ => refsOf_unpin_other)
      rw [onCount_blocks]
      exact Conserves.refl _ _

theorem less_accounts (refs : Nat → Nat) (accounted : tables.Accounted outcome)
    (used : refsOf tables.infos tables.pins block = refs block + 1)
    (others : ∀ other, other ≠ block → refs other = refsOf tables.infos tables.pins other) :
    Accounts outcome (tables.onShare block fun share =>
      { share with openCount := share.openCount - 1 }).shares refs (infoBlocks tables.infos)
        tables.heap := by
  refine Accounts.moved accounted ?_ (accounted.referenced.less used others)
  rw [onCount_blocks]
  exact Conserves.refl _ _

theorem fmReleaseShare_sound (accounted : tables.Accounted outcome) (member : block ∈ tables.pins) :
    Sound outcome (tables.fmReleaseShare block) := by
  have present := accounted.pinned member
  obtain ⟨share, lookup, _, _⟩ := share_ok present
  have lower := less_accounts (refsOf tables.infos (tables.pins.erase block)) accounted
    (refsOf_unpin member) fun _ => refsOf_unpin_other
  obtain ⟨counted, lookup', member', _⟩ := share_ok (onShare_present
    (fun share => { share with openCount := share.openCount - 1 }) (fun _ => rfl) present)
  unfold fmReleaseShare
  rw [lookup]
  dsimp only [bind, Except.bind]
  rw [lookup']
  dsimp only
  split
  · rename_i unused
    obtain broken | ⟨after, freed, accounts, infos, pins⟩ := fmFree_cases lower member' unused
    · rw [broken]
      rfl
    · rw [freed]
      unfold Sound Accounted
      dsimp only
      rw [infos, pins]
      exact accounts
  · exact lower

theorem fmClose_sound (accounted : tables.Accounted outcome) (member : info ∈ tables.infos) :
    Sound outcome (tables.fmClose info) := by
  have present := accounted.opened member
  obtain ⟨share, lookup, _, _⟩ := share_ok present
  have lower := less_accounts (refsOf (tables.infos.erase info) tables.pins) accounted
    (refsOf_close member) fun _ => refsOf_close_other member
  obtain ⟨counted, lookup', member', _⟩ := share_ok (onShare_present
    (fun share => { share with openCount := share.openCount - 1 }) (fun _ => rfl) present)
  -- what is left is the block of the handle
  have split : infoBlocks tables.infos = {info.block} + infoBlocks (tables.infos.erase info) := by
    unfold infoBlocks
    exact Multiset.coe_eq_coe.mpr ((List.perm_cons_erase member).map InfoBlock.block)
  have given : ∀ (shares : List ShareBlock) (heap : Allocator),
      Accounts outcome shares (refsOf (tables.infos.erase info) tables.pins) (infoBlocks tables.infos) heap →
      Accounts outcome shares (refsOf (tables.infos.erase info) tables.pins)
        (infoBlocks (tables.infos.erase info)) (heap.release (some info.block)) := by
    intro shares heap accounts
    refine accounts.moved ?_ accounts.referenced
    have released := (Conserves.releaseAll [some info.block] heap).frame
      (shareBlocks shares + infoBlocks (tables.infos.erase info))
    rw [zero_add] at released
    have before : shareBlocks shares + infoBlocks tables.infos = blocksOf [some info.block] +
        (shareBlocks shares + infoBlocks (tables.infos.erase info)) := by
      rw [split, blocksOf_some, blocksOf_nil]
      abel
    rw [before]
    exact released
  unfold fmClose
  rw [lookup]
  dsimp only [bind, Except.bind]
  rw [lookup']
  dsimp only
  split
  · rename_i last
    obtain broken | ⟨after, freed, accounts, infos, pins⟩ := fmFree_cases lower member' last.1
    · rw [broken]
      rfl
    · rw [freed]
      have released := given _ _ accounts
      unfold Sound Accounted onHeap
      dsimp only
      rw [infos, pins]
      exact released
  · exact given _ _ lower

theorem fmTryFree_sound (accounted : tables.Accounted outcome) (member : share ∈ tables.shares) :
    Sound outcome (tables.fmTryFree share) := by
  unfold fmTryFree
  split
  · rename_i unused
    obtain broken | ⟨after, freed, accounts, infos, pins⟩ := fmFree_cases accounted member unused
    · rw [broken]
      rfl
    · rw [freed]
      unfold Sound Accounted
      dsimp only
      rw [infos, pins]
      exact accounts
  · exact accounted

theorem fmDeleteTable_sound (accounted : tables.Accounted outcome) : Sound outcome (tables.fmDeleteTable name) := by
  unfold fmDeleteTable
  cases found : tables.find name with
  | none => exact accounted
  | some share => exact fmTryFree_sound accounted (List.mem_of_find?_eq_some found)

theorem fmDropTable_sound (accounted : tables.Accounted outcome) (member : info ∈ tables.infos) :
    Sound outcome (tables.fmDropTable info) := by
  obtain ⟨share, lookup, here, _⟩ := share_ok (accounted.opened member)
  unfold fmDropTable
  rw [lookup]
  exact fmTryFree_sound accounted here

theorem dropTable_sound (accounted : tables.Accounted outcome) (member : info ∈ tables.infos) :
    Sound outcome (tables.dropTable info) := by
  obtain ⟨share, lookup, _, _⟩ := share_ok (accounted.opened member)
  unfold dropTable
  rw [lookup]
  let marked : TableMemory := { tables with
    deleteOnClose := Function.update tables.deleteOnClose share.block true }
  have kept : marked.Accounted outcome := accounted
  exact fmClose_sound kept member

theorem fmRename_sound (accounted : tables.Accounted outcome) {newName : String} :
    (tables.fmRename name newName).Accounted outcome := by
  unfold fmRename
  cases found : tables.find name with
  | none => exact accounted
  | some share =>
      have member : share ∈ tables.shares := List.mem_of_find?_eq_some found
      have allocated := (Conserves.alloc tables.heap).frame
        (shareBlocks tables.shares + infoBlocks tables.infos)
      dsimp only
      generalize tables.heap.alloc = request at allocated
      obtain ⟨copy, heap⟩ := request
      rw [zero_add] at allocated
      cases copy with
      | none =>
          refine Accounts.moved accounted ?_ accounted.referenced
          change Conserves _ (0 + (shareBlocks tables.shares + infoBlocks tables.infos)) _ _ at allocated
          rw [zero_add] at allocated
          exact allocated
      | some copy =>
          obtain ⟨others, all, changed⟩ := shareBlocks_change accounted.distinct member fun share =>
            { share with name := newName, nameBlock := some copy }
          refine Accounts.moved accounted (allocated.trans ?_)
            (accounted.referenced.same (fun _ => rfl) (fun _ => rfl) fun _ => rfl)
          have released := (Conserves.releaseAll [share.nameBlock] heap).frame ({copy} +
            (share.core.blocks + {share.block}) + others + infoBlocks tables.infos)
          have before : blocksOf [some copy] + (shareBlocks tables.shares + infoBlocks tables.infos) =
              blocksOf [share.nameBlock] + ({copy} + (share.core.blocks + {share.block}) + others +
                infoBlocks tables.infos) := by
            rw [all, share.blocks_eq, blocksOf_some, blocksOf_nil]
            abel
          have after : shareBlocks (tables.shares.map fun other =>
              if other.block = share.block then
                { other with name := newName, nameBlock := some copy } else other) +
              infoBlocks tables.infos =
              0 + ({copy} + (share.core.blocks + {share.block}) + others +
                infoBlocks tables.infos) := by
            rw [changed, ShareBlock.blocks_eq, blocksOf_some, blocksOf_nil]
            abel
          rw [before]
          exact after ▸ released

theorem grow_sound (chunkCap : Nat → Nat) (accounted : tables.Accounted outcome)
    (member : info ∈ tables.infos) : Sound outcome (tables.grow chunkCap info) := by
  obtain ⟨share, lookup, here, same⟩ := share_ok (accounted.opened member)
  unfold grow
  rw [lookup]
  dsimp only [bind, Except.bind]
  cases grown : share.core.fmCoreGrowChunk (chunkCap info.s) tables.heap with
  | none => rfl
  | some result =>
      obtain ⟨core, heap⟩ := result
      obtain ⟨others, all, changed⟩ := shareBlocks_change accounted.distinct here fun share =>
        { share with core := core }
      rw [same] at changed
      refine Accounts.moved accounted ?_
        (accounted.referenced.same (fun _ => rfl) (fun _ => rfl) fun _ => rfl)
      have conserves := (fmCoreGrowChunk_conserves grown).frame (blocksOf [share.nameBlock] +
        {share.block} + others + infoBlocks tables.infos)
      have before : shareBlocks tables.shares + infoBlocks tables.infos = share.core.blocks +
          (blocksOf [share.nameBlock] + {share.block} + others + infoBlocks tables.infos) := by
        rw [all, share.blocks_eq]
        abel
      have after : shareBlocks (tables.shares.map fun other =>
          if other.block = info.s then { other with core := core } else other) +
          infoBlocks tables.infos = core.blocks +
          (blocksOf [share.nameBlock] + {share.block} + others + infoBlocks tables.infos) := by
        rw [changed, ShareBlock.blocks_eq, same]
        abel
      rw [before]
      exact after ▸ conserves

/-- The share of fm_create gets its pin. -/
theorem finish_accounts {memory : ShareMemory} {q : CreateRequest} (created : Bool)
    (external : q.internalTable = false) {infos : List InfoBlock} {pins : List Nat}
    (accounts : Accounts outcome memory.shares (refsOf infos pins) (infoBlocks infos) memory.heap)
    (member : share ∈ memory.shares) :
    ∃ returned, (memory.finish q created share).res = some returned ∧
      Accounts outcome (memory.finish q created share).memory.shares
        (refsOf infos (if q.pinShare then returned.block :: pins else pins)) (infoBlocks infos)
        (memory.finish q created share).memory.heap := by
  have shares := ShareMemory.finish_shares created external accounts.distinct member
  unfold ShareMemory.finish at shares ⊢
  rw [external, if_neg Bool.false_ne_true] at shares ⊢
  cases pin : q.pinShare with
  | false =>
      rw [pin] at shares
      refine ⟨share, rfl, ?_⟩
      dsimp only at shares ⊢
      rw [shares]
      exact accounts
  | true =>
      rw [pin] at shares
      refine ⟨{ share with openCount := share.openCount + 1 }, rfl, ?_⟩
      have kept : shareBlocks (memory.shares.map fun other => if other.block = share.block then
            { other with openCount := other.openCount + 1 } else other) =
          shareBlocks memory.shares := by
        refine shareBlocks_map (fun other => ?_) memory.shares
        split
        · rfl
        · rfl
      dsimp only at shares ⊢
      rw [shares, if_pos rfl]
      refine Accounts.moved accounts ?_ (accounts.referenced.more ⟨share, member, rfl⟩ refsOf_pin
        fun _ => refsOf_pin_other)
      rw [kept]
      exact Conserves.refl _ _

/-- fm_create goes on with a share in use or, where an unused one was freed, with a new one. -/
theorem fmCreate_inv {memory : ShareMemory} {q : CreateRequest} {result : CreateResult}
    (external : q.internalTable = false) {refs : Nat → Nat} {others : Multiset Nat}
    (accounts : Accounts outcome memory.shares refs others memory.heap)
    (made : memory.fmCreate q = some result) :
    ∃ cleared : ShareMemory, Accounts outcome cleared.shares refs others cleared.heap ∧
      ((∃ share ∈ cleared.shares, result = cleared.finish q false share) ∨
        cleared.build q = some result) := by
  let locked : ShareMemory := { memory with locked := true }
  have kept : Accounts outcome locked.shares refs others locked.heap := accounts
  unfold ShareMemory.fmCreate ShareMemory.claim at made
  rw [external, if_neg Bool.false_ne_true] at made
  cases found : locked.find q.name with
  | none =>
      rw [found] at made
      exact ⟨locked, kept, Or.inr made⟩
  | some share =>
      have member : share ∈ locked.shares := List.mem_of_find?_eq_some found
      rw [found] at made
      dsimp only at made
      split at made
      · rename_i unused
        cases freed : locked.free share with
        | none =>
            rw [freed] at made
            cases made
        | some cleared =>
            rw [freed] at made
            exact ⟨cleared, kept.free member unused freed, Or.inr made⟩
      · cases made
        exact ⟨locked, kept, Or.inl ⟨share, member, rfl⟩⟩

/-- Whatever fm_create returns is pinned as it asks. -/
theorem fmCreate_accounts {memory : ShareMemory} {q : CreateRequest} {result : CreateResult}
    (external : q.internalTable = false) {infos : List InfoBlock} {pins : List Nat}
    (accounts : Accounts outcome memory.shares (refsOf infos pins) (infoBlocks infos) memory.heap)
    (made : memory.fmCreate q = some result) :
    Accounts outcome result.memory.shares
      (refsOf infos (result.res.elim pins fun share =>
        if q.pinShare then share.block :: pins else pins))
      (infoBlocks infos) result.memory.heap := by
  obtain ⟨cleared, left, used | built⟩ := fmCreate_inv external accounts made
  · obtain ⟨share, member, rfl⟩ := used
    obtain ⟨returned, res, pinned⟩ := finish_accounts false external left member
    rw [res]
    exact pinned
  · obtain ⟨res, kept, conserves⟩ | ⟨share, heap, place, _, _, unused, outside, conserves, rfl⟩ :=
      ShareMemory.build_inv external built
    · rw [res, kept]
      have all := conserves.frame (shareBlocks cleared.shares + infoBlocks infos)
      rw [zero_add] at all
      exact left.moved all left.referenced
    · let grown : ShareMemory := { cleared with heap := heap, shares := share :: cleared.shares }
      have more : Accounts outcome grown.shares (refsOf infos pins) (infoBlocks infos) grown.heap := by
        have all := conserves.frame (shareBlocks cleared.shares + infoBlocks infos)
        rw [zero_add, ← add_assoc, ← shareBlocks_cons] at all
        exact left.moved all (left.referenced.add outside unused (place ▸ left.fresh))
      obtain ⟨returned, res, pinned⟩ := finish_accounts true external more List.mem_cons_self
      rw [res]
      exact pinned

theorem create_sound (accounted : tables.Accounted outcome) {keys : Nat} {pinShare : Bool} :
    Sound outcome (tables.create name keys pinShare) := by
  unfold create
  cases made : tables.fmCreate ⟨name, keys, false, pinShare⟩ with
  | none => rfl
  | some result =>
      have accounts := fmCreate_accounts rfl accounted made
      dsimp only
      cases res : result.res with
      | none =>
          rw [res] at accounts
          exact accounts
      | some share =>
          rw [res] at accounts
          cases pinShare with
          | false => exact accounts
          | true => exact accounts

/-! ### Runs -/

theorem step_sound (chunkCap : Nat → Nat) (accounted : tables.Accounted outcome) (call : TableCall)
    (allowed : call.allowed tables = true) : Sound outcome (tables.step chunkCap call) := by
  cases call with
  | create name keys pinShare => exact create_sound accounted
  | fmOpen name => exact fmOpen_sound accounted
  | fmOpenFromShareAndRegister block =>
      exact fmOpenFromShareAndRegister_sound accounted (of_decide_eq_true allowed)
  | fmClose info => exact fmClose_sound accounted (of_decide_eq_true allowed)
  | fmReleaseShare block => exact fmReleaseShare_sound accounted (of_decide_eq_true allowed)
  | fmDeleteTable name => exact fmDeleteTable_sound accounted
  | fmDropTable info => exact fmDropTable_sound accounted (of_decide_eq_true allowed)
  | dropTable info => exact dropTable_sound accounted (of_decide_eq_true allowed)
  | fmRename oldName newName => exact fmRename_sound accounted
  | grow info => exact grow_sound chunkCap accounted (of_decide_eq_true allowed)

theorem empty_accounted (outcome : Nat → Bool) : (empty outcome).Accounted outcome := by
  refine ⟨rfl, rfl, ?_, ?_, ?_⟩
  · intro share member
    cases member
  · intro share member
    cases member
  · intro block used
    exact absurd rfl used

theorem run_accounted (outcome : Nat → Bool) (chunkCap : Nat → Nat) (calls : List TableCall) :
    ∀ (tables after : TableMemory), tables.Accounted outcome → tables.run chunkCap calls = some after →
      after.Accounted outcome := by
  induction calls with
  | nil =>
      intro tables after accounted ran
      cases ran
      exact accounted
  | cons call rest ih =>
      intro tables after accounted ran
      unfold run at ran
      split at ran
      · rename_i allowed
        have sound := step_sound chunkCap accounted call allowed
        cases stepped : tables.step chunkCap call with
        | error fault =>
            rw [stepped] at ran
            cases ran
        | ok mid =>
            rw [stepped] at ran sound
            exact ih mid after sound ran
      · cases ran

def held (tables : TableMemory) : Multiset Nat := shareBlocks tables.shares + infoBlocks tables.infos

/-- Blocks of tables are neither lost nor released twice, and no call follows a pointer to a
released share. -/
theorem blocks_accounted (outcome : Nat → Bool) (chunkCap : Nat → Nat) (calls : List TableCall)
    (tables : TableMemory) (ran : (empty outcome).run chunkCap calls = some tables) :
    (∀ block, tables.held.count block + tables.heap.freed.count block =
      if block < tables.heap.asked ∧ outcome block = true then 1 else 0) ∧
    (∀ info ∈ tables.infos, ∃ share ∈ tables.shares, share.block = info.s) ∧
    (∀ block ∈ tables.pins, ∃ share ∈ tables.shares, share.block = block) ∧
    ∀ call : TableCall, call.allowed tables = true →
      tables.step chunkCap call ≠ .error .dangling := by
  have accounted := run_accounted outcome chunkCap calls _ tables (empty_accounted outcome) ran
  refine ⟨?_, fun info member => accounted.opened member,
    fun block member => accounted.pinned member, ?_⟩
  · intro block
    have total := congrArg (Multiset.count block) accounted.blocks
    rw [Multiset.count_add, Multiset.coe_count, Multiset.coe_count] at total
    rw [held, total]
    split
    · rename_i granted
      exact List.count_eq_one_of_mem (grants_nodup _ _ _)
        (mem_grants.mpr ⟨⟨Nat.zero_le _, (zero_add tables.heap.asked).symm ▸ granted.1⟩, granted.2⟩)
    · rename_i refused
      refine List.count_eq_zero.mpr fun member => refused ?_
      obtain ⟨⟨_, below⟩, granted⟩ := mem_grants.mp member
      exact ⟨zero_add tables.heap.asked ▸ below, granted⟩
  · intro call allowed dangling
    have sound := step_sound chunkCap accounted call allowed
    rw [dangling] at sound
    cases sound

/-- A table is created, opened and grown. A second chunk fails at its last array, the table gets
another name and another handle, is dropped and then closed twice. -/
def droppedTable : List TableCall :=
  [.create "t" 1 true, .fmOpenFromShareAndRegister 0, .grow ⟨6, 0⟩, .grow ⟨6, 0⟩,
    .fmRename "t" "u", .fmOpen "u", .fmDeleteTable "u", .fmClose ⟨6, 0⟩, .fmClose ⟨14, 0⟩]

theorem droppedTable_ends : ((empty fun n => n != 12).run (fun _ => 2) droppedTable).map
    (fun tables => (tables.shares.length, tables.infos, tables.heap.asked)) = some (0, [], 15) := by
  decide +kernel

/-- Nothing is held at the end, so all of it has been released, and once. -/
theorem blocks_accounted_droppedTable :
    ∃ tables, (empty fun n => n != 12).run (fun _ => 2) droppedTable = some tables ∧
      ∀ block, tables.heap.freed.count block =
        if block < 15 ∧ (block != 12) = true then 1 else 0 := by
  obtain ⟨tables, ran, ends⟩ := Option.map_eq_some_iff.mp droppedTable_ends
  have shares : tables.shares = [] := List.length_eq_zero_iff.mp (congrArg Prod.fst ends)
  have infos : tables.infos = [] := congrArg (fun ends => ends.2.1) ends
  have asked : tables.heap.asked = 15 := congrArg (fun ends => ends.2.2) ends
  refine ⟨tables, ran, fun block => ?_⟩
  have total := (blocks_accounted _ (fun _ => 2) droppedTable tables ran).1 block
  have none : tables.held = 0 := by
    unfold held
    rw [shares, infos]
    rfl
  rw [none, Multiset.count_zero, zero_add, asked] at total
  exact total

end TableMemory

end Fastmem
