/-
Tables with their memory as tables of the registry.

The registry of Shares names shares and handles by the order of their creation and
leaves out what they hold; TableMemory names them by their blocks. A call of the
second that returns is the call of the same name in the first, with an allocator
that grants what the call was granted: the two agree on the names, counts and marks
of the shares in the order of the list, and on the share of each handle.
-/

import Fastmem.Registry.Opening
import Fastmem.Registry.TableMemory
import Mathlib.Data.List.Find

set_option autoImplicit false

namespace Fastmem

/-- With an allocator that always grants or always refuses. -/
def Registry.granting (r : Registry) (granted : Bool) : Registry :=
  { r with outcome := fun _ => granted }

/-- `ids` and `handles` give the number of the share and of the handle with a block. -/
structure Mirrors (ids handles : Nat → Nat) (tables : TableMemory) (r : Registry) : Prop where
  list : r.list = (tables.shares.map ShareBlock.block).map ids
  share : ∀ share ∈ tables.shares, ∃ openList, r.share (ids share.block) =
    some ⟨share.name, share.openCount, tables.deleteOnClose share.block, false, openList⟩
  info : ∀ info ∈ tables.infos, r.info (handles info.block) = some ⟨ids info.s, true⟩
  distinct : (tables.shares.map ShareBlock.block).Nodup
  distinctInfos : (tables.infos.map InfoBlock.block).Nodup
  external : ∀ share ∈ tables.shares, share.internal = false
  asked : ∀ share ∈ tables.shares, share.block < tables.heap.asked
  askedInfos : ∀ info ∈ tables.infos, info.block < tables.heap.asked ∧ info.s < tables.heap.asked
  below : ∀ share ∈ tables.shares, ids share.block < r.shares
  belowInfos : ∀ info ∈ tables.infos, handles info.block < r.infos
  apart : ∀ share ∈ tables.shares, ∀ other ∈ tables.shares,
    ids share.block = ids other.block → share.block = other.block
  apartInfos : ∀ info ∈ tables.infos, ∀ other ∈ tables.infos,
    handles info.block = handles other.block → info.block = other.block
  unmarked : ∀ block, tables.heap.asked ≤ block → tables.deleteOnClose block = false

theorem map_erase_apart {items : List Nat} {f : Nat → Nat} {item : Nat}
    (apart : ∀ other ∈ items, f other = f item → other = item) :
    (items.map f).erase (f item) = (items.erase item).map f := by
  induction items with
  | nil => rfl
  | cons first rest ih =>
      have later := ih fun other member => apart other (List.mem_cons_of_mem _ member)
      by_cases here : first = item
      · rw [here, List.map_cons, List.erase_cons_head, List.erase_cons_head]
      · have differs : f first ≠ f item := fun same => here (apart first List.mem_cons_self same)
        rw [List.map_cons, List.erase_cons_tail (by simpa using differs),
          List.erase_cons_tail (by simpa using here), List.map_cons, later]

namespace Mirrors

variable {ids handles : Nat → Nat} {tables after : TableMemory} {r r' : Registry}
  {share : ShareBlock} {info : InfoBlock} {block : Nat} {name : String}

theorem empty (outcome outcome' : Nat → Bool) :
    Mirrors id id (.empty outcome) (.empty outcome') := by
  constructor
  case list => rfl
  case distinct => exact List.nodup_nil
  case distinctInfos => exact List.nodup_nil
  case unmarked => exact fun _ _ => rfl
  all_goals
    intro item member
    cases member

/-! ### Lookups -/

theorem named (mirrors : Mirrors ids handles tables r) (name : String) :
    fmFindNamedShare r name = (tables.find name).map fun share => ids share.block := by
  unfold fmFindNamedShare ShareMemory.find
  rw [mirrors.list, List.map_map, List.find?_map]
  refine congrArg _ (List.find?_congr fun share member => ?_)
  obtain ⟨openList, found⟩ := mirrors.share share member
  rw [Function.comp_apply, Function.comp_apply, found]
  rfl

theorem openCount (mirrors : Mirrors ids handles tables r) (member : share ∈ tables.shares) :
    r.openCount (ids share.block) = share.openCount := by
  obtain ⟨openList, found⟩ := mirrors.share share member
  exact openCount_found found

theorem shareOf (lookup : tables.share block = .ok share) :
    share ∈ tables.shares ∧ share.block = block := by
  unfold TableMemory.share at lookup
  cases found : tables.shares.find? (fun share => share.block == block) with
  | none =>
      rw [found] at lookup
      cases lookup
  | some other =>
      rw [found] at lookup
      cases lookup
      have here := List.find?_some found
      exact ⟨List.mem_of_find?_eq_some found, eq_of_beq here⟩

/-! ### What calls are made of -/

theorem congr (mirrors : Mirrors ids handles tables r) (heap : Allocator)
    (more : tables.heap.asked ≤ heap.asked) (list : r'.list = r.list) (share : r'.share = r.share)
    (info : r'.info = r.info) (shares : r'.shares = r.shares) (infos : r'.infos = r.infos) :
    Mirrors ids handles (tables.onHeap heap) r' where
  list := list.trans mirrors.list
  share := share ▸ mirrors.share
  info := info ▸ mirrors.info
  distinct := mirrors.distinct
  distinctInfos := mirrors.distinctInfos
  external := mirrors.external
  asked share member := Nat.lt_of_lt_of_le (mirrors.asked share member) more
  askedInfos info member := by
    obtain ⟨lower, lowerShare⟩ := mirrors.askedInfos info member
    exact ⟨Nat.lt_of_lt_of_le lower more, Nat.lt_of_lt_of_le lowerShare more⟩
  below := shares ▸ mirrors.below
  belowInfos := infos ▸ mirrors.belowInfos
  apart := mirrors.apart
  apartInfos := mirrors.apartInfos
  unmarked block above := mirrors.unmarked block (Nat.le_trans more above)

theorem withPins (mirrors : Mirrors ids handles tables r) (pins : List Nat) :
    Mirrors ids handles { tables with pins := pins } r :=
  ⟨mirrors.list, mirrors.share, mirrors.info, mirrors.distinct, mirrors.distinctInfos,
    mirrors.external, mirrors.asked, mirrors.askedInfos, mirrors.below, mirrors.belowInfos,
    mirrors.apart, mirrors.apartInfos, mirrors.unmarked⟩

theorem change (mirrors : Mirrors ids handles tables r) {step : ShareBlock → ShareBlock}
    {step' : FmShare → FmShare} {marked : Nat → Bool}
    (present : ∃ share ∈ tables.shares, share.block = block)
    (blocks : ∀ share, (step share).block = share.block)
    (internal : ∀ share, (step share).internal = share.internal)
    (marks : ∀ other, other ≠ block → marked other = tables.deleteOnClose other)
    (same : ∀ share ∈ tables.shares, share.block = block → ∀ openList, ∃ openList',
      step' ⟨share.name, share.openCount, tables.deleteOnClose block, false, openList⟩ =
        ⟨(step share).name, (step share).openCount, marked block, false, openList'⟩) :
    Mirrors ids handles { tables.onShare block step with deleteOnClose := marked }
      (r.onShare (ids block) step') := by
  obtain ⟨owner, owned, ownerBlock⟩ := present
  -- the blocks of the shares stay
  have kept : ∀ share, (if share.block = block then step share else share).block = share.block := by
    intro share
    split
    · exact blocks share
    · rfl
  have keptList : (tables.onShare block step).shares.map ShareBlock.block =
      tables.shares.map ShareBlock.block := by
    unfold TableMemory.onShare
    rw [List.map_map]
    exact List.map_congr_left fun share _ => kept share
  have from_ : ∀ {changed}, changed ∈ (tables.onShare block step).shares →
      ∃ share ∈ tables.shares, changed = if share.block = block then step share else share := by
    intro changed member
    obtain ⟨share, was, is⟩ := List.mem_map.mp member
    exact ⟨share, was, is.symm⟩
  constructor
  case list =>
    change r.list = ((tables.onShare block step).shares.map ShareBlock.block).map ids
    rw [mirrors.list, keptList]
  case share =>
    intro changed member
    obtain ⟨share, was, rfl⟩ := from_ member
    obtain ⟨openList, found⟩ := mirrors.share share was
    rw [kept]
    by_cases here : share.block = block
    · obtain ⟨openList', equal⟩ := same share was here openList
      refine ⟨openList', ?_⟩
      rw [here] at found ⊢
      rw [onShare_found found, Function.update_self, if_pos rfl]
      exact congrArg some equal
    · refine ⟨openList, ?_⟩
      have other : ids share.block ≠ ids block := by
        rw [← ownerBlock]
        exact fun clash => here ((mirrors.apart share was owner owned clash).trans ownerBlock)
      unfold Registry.onShare
      rw [if_neg here]
      dsimp only
      rw [Function.update_of_ne other, found, marks _ here]
  case info => exact mirrors.info
  case distinct => exact keptList ▸ mirrors.distinct
  case distinctInfos => exact mirrors.distinctInfos
  case external =>
    intro changed member
    obtain ⟨share, was, rfl⟩ := from_ member
    split
    · exact (internal share).trans (mirrors.external share was)
    · exact mirrors.external share was
  case asked =>
    intro changed member
    obtain ⟨share, was, rfl⟩ := from_ member
    rw [kept]
    exact mirrors.asked share was
  case askedInfos => exact mirrors.askedInfos
  case below =>
    intro changed member
    obtain ⟨share, was, rfl⟩ := from_ member
    rw [kept]
    exact mirrors.below share was
  case belowInfos => exact mirrors.belowInfos
  case apart =>
    intro changed member changed' member' equal
    obtain ⟨share, was, rfl⟩ := from_ member
    obtain ⟨share', was', rfl⟩ := from_ member'
    rw [kept, kept] at equal ⊢
    exact mirrors.apart share was share' was' equal
  case apartInfos => exact mirrors.apartInfos
  case unmarked =>
    intro other above
    have different : other ≠ block := by
      have := mirrors.asked owner owned
      rw [ownerBlock] at this
      exact fun clash => absurd above (by rw [clash]; exact Nat.not_le.mpr this)
    exact (marks other different).trans (mirrors.unmarked other above)

theorem onShare (mirrors : Mirrors ids handles tables r) {step : ShareBlock → ShareBlock}
    {step' : FmShare → FmShare} (present : ∃ share ∈ tables.shares, share.block = block)
    (blocks : ∀ share, (step share).block = share.block)
    (internal : ∀ share, (step share).internal = share.internal)
    (same : ∀ share marked openList, ∃ openList',
      step' ⟨share.name, share.openCount, marked, false, openList⟩ =
        ⟨(step share).name, (step share).openCount, marked, false, openList'⟩) :
    Mirrors ids handles (tables.onShare block step) (r.onShare (ids block) step') :=
  mirrors.change present blocks internal (fun _ _ => rfl) fun share _ _ => same share _

theorem more (mirrors : Mirrors ids handles tables r)
    (present : ∃ share ∈ tables.shares, share.block = block) {change : FmShare → FmShare}
    (raises : ∀ share, ∃ openList,
      change share = { share with openList := openList, openCount := share.openCount + 1 }) :
    Mirrors ids handles
      (tables.onShare block fun share => { share with openCount := share.openCount + 1 })
      (r.onShare (ids block) change) :=
  mirrors.onShare present (fun _ => rfl) (fun _ => rfl) fun share marked openList => by
    obtain ⟨openList', raised⟩ := raises ⟨share.name, share.openCount, marked, false, openList⟩
    exact ⟨openList', raised⟩

theorem less (mirrors : Mirrors ids handles tables r)
    (present : ∃ share ∈ tables.shares, share.block = block) {change : FmShare → FmShare}
    (lowers : ∀ share, ∃ openList,
      change share = { share with openList := openList, openCount := share.openCount - 1 }) :
    Mirrors ids handles
      (tables.onShare block fun share => { share with openCount := share.openCount - 1 })
      (r.onShare (ids block) change) :=
  mirrors.onShare present (fun _ => rfl) (fun _ => rfl) fun share marked openList => by
    obtain ⟨openList', lowered⟩ := lowers ⟨share.name, share.openCount, marked, false, openList⟩
    exact ⟨openList', lowered⟩

/-- `delete_on_close` is set. -/
theorem mark (mirrors : Mirrors ids handles tables r)
    (present : ∃ share ∈ tables.shares, share.block = block) :
    Mirrors ids handles
      { tables with deleteOnClose := Function.update tables.deleteOnClose block true }
      (r.onShare (ids block) fun share => { share with deleteOnClose := true }) := by
  have marked : Mirrors ids handles
      { tables.onShare block id with
        deleteOnClose := Function.update tables.deleteOnClose block true }
      (r.onShare (ids block) fun share => { share with deleteOnClose := true }) :=
    mirrors.change present (fun _ => rfl) (fun _ => rfl)
      (fun other different => Function.update_of_ne different ..)
      fun share _ _ openList => ⟨openList, by rw [Function.update_self]; rfl⟩
  have same : tables.onShare block id = tables := by
    unfold TableMemory.onShare
    simp only [id, ite_self, List.map_id']
  rwa [same] at marked

/-- fm_free. -/
theorem free (mirrors : Mirrors ids handles tables r) (member : share ∈ tables.shares)
    (freed : tables.fmFree share = .ok after) :
    Mirrors ids handles after (fmFree r (ids share.block)) := by
  unfold TableMemory.fmFree at freed
  cases released : tables.free share with
  | none =>
      rw [released] at freed
      cases freed
  | some memory =>
      rw [released] at freed
      cases freed
      obtain ⟨erased, conserves⟩ := ShareMemory.free_inv (mirrors.external share member) released
      have more := conserves.asked
      have remaining : memory.shares.map ShareBlock.block =
          (tables.shares.map ShareBlock.block).erase share.block := by
        rw [erased, List.erase_eq_eraseP, List.eraseP_map]
        refine congrArg (fun kind => (tables.shares.eraseP kind).map _) (funext fun other => ?_)
        exact Bool.beq_comm
      have left : ∀ other ∈ memory.shares, other ∈ tables.shares ∧ other.block ≠ share.block := by
        intro other there
        have kept := List.mem_map_of_mem (f := ShareBlock.block) there
        rw [remaining] at kept
        rw [erased] at there
        exact ⟨List.mem_of_mem_eraseP there, (mirrors.distinct.mem_erase_iff.mp kept).1⟩
      have others : ∀ other ∈ memory.shares,
          (fmFree r (ids share.block)).share (ids other.block) = r.share (ids other.block) := by
        intro other there
        obtain ⟨was, different⟩ := left other there
        rw [fmFree_share, Function.update_of_ne]
        exact fun clash => different (mirrors.apart other was share member clash)
      have external : (r.share (ids share.block)).any FmShare.internal = false := by
        obtain ⟨openList, found⟩ := mirrors.share share member
        rw [found]
        rfl
      have form : fmFree r (ids share.block) = { r with
          list := r.list.erase (ids share.block)
          share := Function.update r.share (ids share.block) none
          freed := ids share.block :: r.freed } := by
        unfold fmFree
        rw [external]
        rfl
      constructor
      case list =>
        rw [form]
        change r.list.erase _ = (memory.shares.map ShareBlock.block).map ids
        rw [mirrors.list, remaining]
        refine map_erase_apart fun other there equal => ?_
        obtain ⟨owner, owned, rfl⟩ := List.mem_map.mp there
        exact mirrors.apart owner owned share member equal
      case share =>
        intro other there
        rw [others other there]
        exact mirrors.share other (left other there).1
      case info =>
        rw [form]
        exact mirrors.info
      case distinct =>
        change (memory.shares.map ShareBlock.block).Nodup
        rw [remaining]
        exact mirrors.distinct.erase _
      case distinctInfos => exact mirrors.distinctInfos
      case external => exact fun other there => mirrors.external other (left other there).1
      case asked =>
        exact fun other there => Nat.lt_of_lt_of_le (mirrors.asked other (left other there).1) more
      case askedInfos =>
        intro info there
        obtain ⟨lower, lowerShare⟩ := mirrors.askedInfos info there
        exact ⟨Nat.lt_of_lt_of_le lower more, Nat.lt_of_lt_of_le lowerShare more⟩
      case below =>
        rw [form]
        exact fun other there => mirrors.below other (left other there).1
      case belowInfos =>
        rw [form]
        exact mirrors.belowInfos
      case apart =>
        exact fun other there other' there' =>
          mirrors.apart other (left other there).1 other' (left other' there').1
      case apartInfos => exact mirrors.apartInfos
      case unmarked => exact fun block above => mirrors.unmarked block (Nat.le_trans more above)

theorem fmFree_infos (freed : tables.fmFree share = .ok after) : after.infos = tables.infos := by
  unfold TableMemory.fmFree at freed
  split at freed
  · cases freed
  · cases freed
    rfl

theorem addHandle (mirrors : Mirrors ids handles tables r) (present : block < tables.heap.asked)
    (heap : Allocator) (more : tables.heap.asked < heap.asked)
    (info : r'.info = Function.update r.info r.infos (some ⟨ids block, true⟩))
    (infos : r'.infos = r.infos + 1) (list : r'.list = r.list) (share : r'.share = r.share)
    (shares : r'.shares = r.shares) :
    Mirrors ids (Function.update handles tables.heap.asked r.infos)
      { tables.onHeap heap with infos := ⟨tables.heap.asked, block⟩ :: tables.infos } r' := by
  have kept : ∀ info ∈ tables.infos, Function.update handles tables.heap.asked r.infos info.block =
      handles info.block := by
    intro info member
    exact Function.update_of_ne (Nat.ne_of_lt (mirrors.askedInfos info member).1) ..
  have new : Function.update handles tables.heap.asked r.infos tables.heap.asked = r.infos :=
    Function.update_self ..
  have moved : Mirrors ids handles (tables.onHeap heap) r :=
    mirrors.congr heap (Nat.le_of_lt more) rfl rfl rfl rfl rfl
  constructor
  case list => exact list.trans moved.list
  case share => exact share ▸ moved.share
  case info =>
    intro other member
    rw [info]
    rcases List.mem_cons.mp member with rfl | older
    · rw [new, Function.update_self]
    · rw [kept other older, Function.update_of_ne (Nat.ne_of_lt (mirrors.belowInfos other older))]
      exact mirrors.info other older
  case distinct => exact moved.distinct
  case distinctInfos =>
    refine List.nodup_cons.mpr ⟨fun clash => ?_, mirrors.distinctInfos⟩
    obtain ⟨other, member, same⟩ := List.mem_map.mp clash
    exact absurd (mirrors.askedInfos other member).1 (by rw [same]; exact Nat.lt_irrefl _)
  case external => exact moved.external
  case asked => exact moved.asked
  case askedInfos =>
    intro other member
    rcases List.mem_cons.mp member with rfl | older
    · exact ⟨more, Nat.lt_trans present more⟩
    · exact moved.askedInfos other older
  case below => exact shares ▸ moved.below
  case belowInfos =>
    intro other member
    rw [infos]
    rcases List.mem_cons.mp member with rfl | older
    · rw [new]
      exact Nat.lt_succ_self _
    · rw [kept other older]
      exact Nat.lt_succ_of_lt (mirrors.belowInfos other older)
  case apart => exact moved.apart
  case apartInfos =>
    intro other member other' member' same
    rcases List.mem_cons.mp member with rfl | older <;>
      rcases List.mem_cons.mp member' with rfl | older'
    · rfl
    · rw [new, kept other' older'] at same
      exact absurd same.symm (Nat.ne_of_lt (mirrors.belowInfos other' older'))
    · rw [new, kept other older] at same
      exact absurd same (Nat.ne_of_lt (mirrors.belowInfos other older))
    · rw [kept other older, kept other' older'] at same
      exact mirrors.apartInfos other older other' older' same
  case unmarked => exact moved.unmarked

theorem dropHandle (mirrors : Mirrors ids handles tables r) (member : info ∈ tables.infos)
    (heap : Allocator) (more : tables.heap.asked ≤ heap.asked) :
    Mirrors ids handles { tables.onHeap heap with infos := tables.infos.erase info }
      { r with info := Function.update r.info (handles info.block) none } := by
  have left : ∀ other ∈ tables.infos.erase info,
      other ∈ tables.infos ∧ other.block ≠ info.block := by
    intro other there
    have distinct := mirrors.distinctInfos.of_map
    obtain ⟨different, was⟩ := distinct.mem_erase_iff.mp there
    exact ⟨was, fun same =>
      different (List.inj_on_of_nodup_map mirrors.distinctInfos was member same)⟩
  have moved : Mirrors ids handles (tables.onHeap heap) r :=
    mirrors.congr heap more rfl rfl rfl rfl rfl
  constructor
  case list => exact moved.list
  case share => exact moved.share
  case info =>
    intro other there
    obtain ⟨was, different⟩ := left other there
    dsimp only
    rw [Function.update_of_ne fun clash =>
      different (mirrors.apartInfos other was info member clash)]
    exact mirrors.info other was
  case distinct => exact moved.distinct
  case distinctInfos =>
    exact mirrors.distinctInfos.sublist ((List.erase_sublist).map InfoBlock.block)
  case external => exact moved.external
  case asked => exact moved.asked
  case askedInfos => exact fun other there => moved.askedInfos other (left other there).1
  case below => exact moved.below
  case belowInfos => exact fun other there => moved.belowInfos other (left other there).1
  case apart => exact moved.apart
  case apartInfos =>
    exact fun other there other' there' =>
      mirrors.apartInfos other (left other there).1 other' (left other' there').1
  case unmarked => exact moved.unmarked

theorem addShare (mirrors : Mirrors ids handles tables r) (heap : Allocator)
    (new : share.block = tables.heap.asked) (more : share.block < heap.asked)
    (unused : share.openCount = 0) (outside : share.internal = false)
    (list : r'.list = r.shares :: r.list)
    (shares : r'.share = Function.update r.share r.shares (some ⟨share.name, 0, false, false, []⟩))
    (count : r'.shares = r.shares + 1) (info : r'.info = r.info) (infos : r'.infos = r.infos) :
    Mirrors (Function.update ids share.block r.shares) handles
      { tables.onHeap heap with shares := share :: tables.shares } r' := by
  have order : tables.heap.asked ≤ heap.asked := by omega
  have other : ∀ block, block < tables.heap.asked →
      Function.update ids share.block r.shares block = ids block := by
    intro block below
    exact Function.update_of_ne (by omega) ..
  have kept : ∀ old ∈ tables.shares, Function.update ids share.block r.shares old.block =
      ids old.block := fun old member => other _ (mirrors.asked old member)
  have newId : Function.update ids share.block r.shares share.block = r.shares :=
    Function.update_self ..
  constructor
  case list =>
    rw [list, mirrors.list]
    change _ = (share.block :: tables.shares.map ShareBlock.block).map _
    rw [List.map_cons, newId, List.map_map, List.map_map]
    exact congrArg _ (List.map_congr_left fun old member => (kept old member).symm)
  case share =>
    intro old member
    rw [shares]
    rcases List.mem_cons.mp member with rfl | older
    · refine ⟨[], ?_⟩
      rw [newId, Function.update_self, unused]
      dsimp only [TableMemory.onHeap]
      rw [mirrors.unmarked _ (Nat.le_of_eq new.symm)]
    · rw [kept old older, Function.update_of_ne (Nat.ne_of_lt (mirrors.below old older))]
      exact mirrors.share old older
  case info =>
    intro handle member
    rw [info, other _ (mirrors.askedInfos handle member).2]
    exact mirrors.info handle member
  case distinct =>
    refine List.nodup_cons.mpr ⟨fun clash => ?_, mirrors.distinct⟩
    obtain ⟨old, member, same⟩ := List.mem_map.mp clash
    have := mirrors.asked old member
    omega
  case distinctInfos => exact mirrors.distinctInfos
  case external =>
    intro old member
    rcases List.mem_cons.mp member with rfl | older
    · exact outside
    · exact mirrors.external old older
  case asked =>
    intro old member
    rcases List.mem_cons.mp member with rfl | older
    · exact more
    · exact Nat.lt_of_lt_of_le (mirrors.asked old older) order
  case askedInfos =>
    intro handle member
    obtain ⟨lower, lowerShare⟩ := mirrors.askedInfos handle member
    exact ⟨Nat.lt_of_lt_of_le lower order, Nat.lt_of_lt_of_le lowerShare order⟩
  case below =>
    intro old member
    rw [count]
    rcases List.mem_cons.mp member with rfl | older
    · rw [newId]
      exact Nat.lt_succ_self _
    · rw [kept old older]
      exact Nat.lt_succ_of_lt (mirrors.below old older)
  case belowInfos => exact infos ▸ mirrors.belowInfos
  case apart =>
    intro old member old' member' same
    rcases List.mem_cons.mp member with rfl | older <;>
      rcases List.mem_cons.mp member' with rfl | older'
    · rfl
    · rw [newId, kept old' older'] at same
      exact absurd same.symm (Nat.ne_of_lt (mirrors.below old' older'))
    · rw [newId, kept old older] at same
      exact absurd same (Nat.ne_of_lt (mirrors.below old older))
    · rw [kept old older, kept old' older'] at same
      exact mirrors.apart old older old' older' same
  case apartInfos => exact mirrors.apartInfos
  case unmarked => exact fun block above => mirrors.unmarked block (Nat.le_trans order above)

/-! ### The calls -/

theorem granting (mirrors : Mirrors ids handles tables r) (granted : Bool) :
    Mirrors ids handles tables (r.granting granted) :=
  mirrors.congr tables.heap (Nat.le_refl _) rfl rfl rfl rfl rfl

theorem openRefused (mirrors : Mirrors ids handles tables r) (block : Nat)
    (refused : tables.heap.outcome tables.heap.asked = false) :
    ∃ after r₁, tables.fmOpenFromShareLocked block = (false, after) ∧
      fmOpenFromShareLocked (r.granting false) (ids block) = (r₁, none) ∧
      Mirrors ids handles after r₁ := by
  refine ⟨tables.onHeap tables.heap.alloc.2, (r.granting false).alloc.2, ?_, rfl, ?_⟩
  · simp only [TableMemory.fmOpenFromShareLocked, Allocator.alloc, Allocator.granted, refused,
      Bool.false_eq_true, if_false]
  · exact mirrors.congr _ (Nat.le_succ _) rfl rfl rfl rfl rfl

theorem openGranted (mirrors : Mirrors ids handles tables r)
    (granted : tables.heap.outcome tables.heap.asked = true)
    (present : ∃ share ∈ tables.shares, share.block = block) :
    ∃ after r₁, tables.fmOpenFromShareLocked block = (true, after) ∧
      fmOpenFromShareLocked (r.granting true) (ids block) = (r₁, some r.infos) ∧
      Mirrors ids (Function.update handles tables.heap.asked r.infos) after
        (listHandle r₁ (ids block) r.infos) ∧
      ∃ share ∈ after.shares, share.block = block := by
  obtain ⟨owner, owned, rfl⟩ := present
  have counted : Mirrors ids handles _ (r.onShare (ids owner.block) fun share => { share with
      openCount := share.openCount + 1, openList := r.infos :: share.openList }) :=
    mirrors.more ⟨owner, owned, rfl⟩ fun share => ⟨_, rfl⟩
  refine ⟨_, _, ?_, rfl, counted.addHandle
    (mirrors.asked owner owned) tables.heap.alloc.2 (Nat.lt_succ_self _) ?_ rfl rfl ?_ rfl,
    TableMemory.onShare_present (fun share => { share with openCount := share.openCount + 1 })
      (fun _ => rfl) ⟨owner, owned, rfl⟩⟩
  · simp only [TableMemory.fmOpenFromShareLocked, Allocator.alloc, Allocator.granted, granted,
      if_true]
    rfl
  · simp only [listHandle, Registry.onShare, Registry.granting, Function.update_self,
      Option.map_some, Function.update_idem]
  · obtain ⟨openList, found⟩ := mirrors.share owner owned
    simp only [listHandle, Registry.onShare, Registry.granting, found, Function.update_self,
      Option.map_some, Function.update_idem]

/-- A call on the registry gives what the call has made of the tables. -/
def Follows (after : TableMemory) (r : Registry) (call : Registry → Registry) : Prop :=
  ∃ ids handles granted, Mirrors ids handles after (call (r.granting granted))

theorem fmOpen_follows (mirrors : Mirrors ids handles tables r) :
    Follows (tables.fmOpen name) r fun r => (fmOpen r name).1 := by
  have named : ∀ granted, fmFindNamedShare (r.granting granted) name =
      (tables.find name).map fun share => ids share.block := fun granted =>
    (mirrors.granting granted).named name
  unfold TableMemory.fmOpen
  cases found : tables.find name with
  | none =>
      refine ⟨ids, handles, true, ?_⟩
      simp only [fmOpen, named, found, Option.map_none]
      exact mirrors.granting true
  | some share =>
      cases granted : tables.heap.outcome tables.heap.asked with
      | false =>
          obtain ⟨after, r₁, left, right, mirrors'⟩ :=
            mirrors.openRefused share.block granted
          refine ⟨ids, handles, false, ?_⟩
          simp only [fmOpen, named, found, Option.map_some, left, right]
          exact mirrors'
      | true =>
          obtain ⟨after, r₁, left, right, mirrors', _⟩ := mirrors.openGranted granted
            ⟨share, List.mem_of_find?_eq_some found, rfl⟩
          refine ⟨ids, Function.update handles tables.heap.asked r.infos, true, ?_⟩
          simp only [fmOpen, named, found, Option.map_some, left, right]
          exact mirrors'

theorem fmOpenFromShareAndRegister_follows (mirrors : Mirrors ids handles tables r)
    (stepped : tables.fmOpenFromShareAndRegister block = .ok after) :
    Follows after r fun r => (fmOpenFromShareAndRegister r (ids block)).1 := by
  unfold TableMemory.fmOpenFromShareAndRegister at stepped
  cases lookup : tables.share block with
  | error fault =>
      rw [lookup] at stepped
      cases stepped
  | ok share =>
      rw [lookup] at stepped
      dsimp only [bind, Except.bind] at stepped
      cases granted : tables.heap.outcome tables.heap.asked with
      | false =>
          obtain ⟨refused, r₁, left, right, mirrors'⟩ :=
            mirrors.openRefused block granted
          rw [left] at stepped
          cases stepped
          refine ⟨ids, handles, false, ?_⟩
          simp only [fmOpenFromShareAndRegister, right]
          exact mirrors'
      | true =>
          obtain ⟨opened, r₁, left, right, mirrors', present⟩ := mirrors.openGranted granted
            ⟨share, shareOf lookup⟩
          rw [left] at stepped
          cases stepped
          refine ⟨ids, Function.update handles tables.heap.asked r.infos, true, ?_⟩
          simp only [fmOpenFromShareAndRegister, right]
          exact (mirrors'.less present fun share => ⟨share.openList, rfl⟩).withPins _

theorem fmReleaseShare_follows (mirrors : Mirrors ids handles tables r)
    (stepped : tables.fmReleaseShare block = .ok after) :
    Follows after r fun r => fmReleaseShare r (ids block) false := by
  unfold TableMemory.fmReleaseShare at stepped
  cases lookup : tables.share block with
  | error fault =>
      rw [lookup] at stepped
      cases stepped
  | ok share =>
      rw [lookup] at stepped
      dsimp only [bind, Except.bind] at stepped
      have lower : Mirrors ids handles _ ((r.granting true).onShare (ids block) fun share =>
          { share with openCount := share.openCount - 1 }) :=
        (mirrors.granting true).less ⟨share, shareOf lookup⟩ fun share => ⟨share.openList, rfl⟩
      refine ⟨ids, handles, true, ?_⟩
      change Mirrors ids handles after (fmReleaseShare (r.granting true) (ids block) false)
      unfold fmReleaseShare
      rw [if_neg Bool.false_ne_true]
      dsimp only
      cases again : (tables.onShare block fun share =>
          { share with openCount := share.openCount - 1 }).share block with
      | error fault =>
          rw [again] at stepped
          cases stepped
      | ok counted =>
          rw [again] at stepped
          obtain ⟨member, rfl⟩ := shareOf again
          rw [lower.openCount member]
          dsimp only at stepped
          split at stepped
          · rename_i unused
            rw [if_pos unused]
            split at stepped
            · cases stepped
            · rename_i freed
              cases stepped
              exact (lower.free member freed).withPins _
          · rename_i used
            rw [if_neg used]
            cases stepped
            exact lower.withPins _

theorem fmClose_mirrors (mirrors : Mirrors ids handles tables r) (member : info ∈ tables.infos)
    (stepped : tables.fmClose info = .ok after) :
    Mirrors ids handles after (fmClose r (handles info.block)) := by
  unfold TableMemory.fmClose at stepped
  cases lookup : tables.share info.s with
  | error fault =>
      rw [lookup] at stepped
      cases stepped
  | ok share =>
      rw [lookup] at stepped
      dsimp only [bind, Except.bind] at stepped
      have lower : Mirrors ids handles _ (unlistHandle r (ids info.s) (handles info.block) true) :=
        mirrors.less ⟨share, shareOf lookup⟩ fun share => ⟨_, rfl⟩
      unfold fmClose
      rw [mirrors.info info member]
      dsimp only
      cases again : (tables.onShare info.s fun share =>
          { share with openCount := share.openCount - 1 }).share info.s with
      | error fault =>
          rw [again] at stepped
          cases stepped
      | ok counted =>
          rw [again] at stepped
          obtain ⟨there, same⟩ := shareOf again
          obtain ⟨openList, found⟩ := lower.share counted there
          have count := lower.openCount there
          rw [same] at found count
          rw [count, found]
          simp only [Option.any_some]
          dsimp only at stepped
          split at stepped
          · rename_i last
            rw [if_pos last]
            split at stepped
            · cases stepped
            · rename_i cleared freed
              cases stepped
              have released := lower.free there freed
              rw [same] at released
              refine released.dropHandle ?_ _ (Nat.le_refl _)
              rw [fmFree_infos freed]
              exact member
          · rename_i used
            rw [if_neg used]
            cases stepped
            exact lower.dropHandle member _ (Nat.le_refl _)

theorem fmTryFree_mirrors (mirrors : Mirrors ids handles tables r) (member : share ∈ tables.shares)
    (stepped : tables.fmTryFree share = .ok after) :
    Mirrors ids handles after (fmTryFree r (ids share.block)) := by
  unfold TableMemory.fmTryFree at stepped
  unfold fmTryFree
  rw [mirrors.openCount member]
  split at stepped
  · rename_i unused
    rw [if_pos unused]
    exact mirrors.free member stepped
  · rename_i used
    rw [if_neg used]
    cases stepped
    exact mirrors.mark ⟨share, member, rfl⟩

theorem fmDeleteTable_mirrors (mirrors : Mirrors ids handles tables r)
    (stepped : tables.fmDeleteTable name = .ok after) :
    Mirrors ids handles after (fmDeleteTable r name).1 := by
  unfold TableMemory.fmDeleteTable at stepped
  unfold fmDeleteTable
  rw [mirrors.named]
  cases found : tables.find name with
  | none =>
      rw [found] at stepped
      cases stepped
      exact mirrors
  | some share =>
      rw [found] at stepped
      exact mirrors.fmTryFree_mirrors (List.mem_of_find?_eq_some found) stepped

theorem fmDropTable_mirrors (mirrors : Mirrors ids handles tables r) (member : info ∈ tables.infos)
    (stepped : tables.fmDropTable info = .ok after) :
    Mirrors ids handles after (fmDropTable r (handles info.block)) := by
  unfold TableMemory.fmDropTable at stepped
  unfold fmDropTable
  rw [mirrors.info info member]
  cases lookup : tables.share info.s with
  | error fault =>
      rw [lookup] at stepped
      cases stepped
  | ok share =>
      rw [lookup] at stepped
      obtain ⟨there, same⟩ := shareOf lookup
      dsimp only
      rw [← same]
      exact mirrors.fmTryFree_mirrors there stepped

theorem dropTable_mirrors (mirrors : Mirrors ids handles tables r) (member : info ∈ tables.infos)
    (stepped : tables.dropTable info = .ok after) :
    Mirrors ids handles after
      (fmClose (setDeleteOnClose r (handles info.block)) (handles info.block)) := by
  unfold TableMemory.dropTable at stepped
  cases lookup : tables.share info.s with
  | error fault =>
      rw [lookup] at stepped
      cases stepped
  | ok share =>
      rw [lookup] at stepped
      obtain ⟨there, same⟩ := shareOf lookup
      have marked := mirrors.mark ⟨share, there, rfl⟩
      rw [same] at marked
      have form : setDeleteOnClose r (handles info.block) =
          r.onShare (ids info.s) fun share => { share with deleteOnClose := true } := by
        unfold setDeleteOnClose
        rw [mirrors.info info member]
      rw [form]
      dsimp only [bind, Except.bind] at stepped
      rw [same] at stepped
      exact marked.fmClose_mirrors member stepped

theorem fmRename_follows (mirrors : Mirrors ids handles tables r) {newName : String} :
    Follows (tables.fmRename name newName) r fun r => (fmRename r name newName).1 := by
  have named : ∀ granted, fmFindNamedShare (r.granting granted) name =
      (tables.find name).map fun share => ids share.block := fun granted =>
    (mirrors.granting granted).named name
  unfold TableMemory.fmRename
  cases found : tables.find name with
  | none =>
      refine ⟨ids, handles, true, ?_⟩
      simp only [fmRename, named, found, Option.map_none]
      exact mirrors.granting true
  | some share =>
      have member : share ∈ tables.shares := List.mem_of_find?_eq_some found
      cases granted : tables.heap.outcome tables.heap.asked with
      | false =>
          refine ⟨ids, handles, false, ?_⟩
          simp only [fmRename, named, found, Option.map_some, Allocator.alloc, Allocator.granted,
            granted, Bool.false_eq_true, if_false]
          exact mirrors.congr _ (Nat.le_succ _) rfl rfl rfl rfl rfl
      | true =>
          refine ⟨ids, handles, true, ?_⟩
          simp only [fmRename, named, found, Option.map_some, Allocator.alloc, Allocator.granted,
            granted, if_true]
          have more : tables.heap.asked ≤
              (Allocator.release ⟨tables.heap.outcome, tables.heap.asked + 1, tables.heap.freed⟩
                share.nameBlock).asked := by
            cases share.nameBlock <;> exact Nat.le_succ _
          have copied : Mirrors ids handles (tables.onHeap _) (r.granting true).alloc.2 :=
            mirrors.congr _ more rfl rfl rfl rfl rfl
          exact copied.onShare ⟨share, member, rfl⟩ (fun _ => rfl) (fun _ => rfl) fun _ _ openList => ⟨openList, rfl⟩

theorem grow_mirrors (mirrors : Mirrors ids handles tables r) {chunkCap : Nat → Nat}
    (stepped : tables.grow chunkCap info = .ok after) : Mirrors ids handles after r := by
  unfold TableMemory.grow at stepped
  cases lookup : tables.share info.s with
  | error fault =>
      rw [lookup] at stepped
      cases stepped
  | ok share =>
      rw [lookup] at stepped
      dsimp only [bind, Except.bind] at stepped
      cases grown : share.core.fmCoreGrowChunk (chunkCap info.s) tables.heap with
      | none =>
          rw [grown] at stepped
          cases stepped
      | some result =>
          obtain ⟨core, heap⟩ := result
          rw [grown] at stepped
          cases stepped
          have moved : Mirrors ids handles (tables.onHeap heap) r :=
            mirrors.congr heap (fmCoreGrowChunk_conserves grown).asked rfl rfl rfl rfl rfl
          have kept : r.onShare (ids info.s) id = r := by
            unfold Registry.onShare
            rw [Option.map_id, id, Function.update_eq_self]
          rw [← kept]
          exact moved.onShare ⟨share, shareOf lookup⟩ (fun _ => rfl) (fun _ => rfl)
            fun _ _ openList => ⟨openList, rfl⟩

/-! ### fm_create -/

theorem withMemory (mirrors : Mirrors ids handles tables r) (memory : ShareMemory)
    (shares : memory.shares = tables.shares) (more : tables.heap.asked ≤ memory.heap.asked) :
    Mirrors ids handles { tables with toShareMemory := memory } r := by
  have moved : Mirrors ids handles (tables.onHeap memory.heap) r :=
    mirrors.congr memory.heap more rfl rfl rfl rfl rfl
  obtain ⟨heap, locked, list⟩ := memory
  obtain rfl : list = tables.shares := shares
  exact ⟨moved.list, moved.share, moved.info, moved.distinct, moved.distinctInfos, moved.external,
    moved.asked, moved.askedInfos, moved.below, moved.belowInfos, moved.apart, moved.apartInfos,
    moved.unmarked⟩

/-- The share of fm_create gets its pin. -/
theorem finish (mirrors : Mirrors ids handles tables r) {q : CreateRequest} (created : Bool)
    (external : q.internalTable = false) (member : share ∈ tables.shares) :
    Mirrors ids handles
      { tables with toShareMemory := (tables.toShareMemory.finish q created share).memory }
      (pinned r (ids share.block) false q.pinShare) := by
  have shares := ShareMemory.finish_shares created external mirrors.distinct member
  have heap : (tables.toShareMemory.finish q created share).memory.heap = tables.heap := by
    unfold ShareMemory.finish
    split <;> rfl
  unfold pinned
  cases pin : q.pinShare with
  | false =>
      rw [pin, if_neg Bool.false_ne_true] at shares
      exact mirrors.withMemory _ shares (Nat.le_of_eq (by rw [heap]))
  | true =>
      rw [pin, if_pos rfl] at shares
      exact (mirrors.more ⟨share, member, rfl⟩ fun share => ⟨share.openList, rfl⟩).withMemory _ shares
        (Nat.le_of_eq (by rw [heap]; rfl))

theorem fmFree_granting (r : Registry) (id : Nat) (granted : Bool) :
    fmFree (r.granting granted) id = (fmFree r id).granting granted := by
  unfold fmFree
  cases internal : (r.share id).any FmShare.internal with
  | true => simp only [Registry.granting, internal, if_true]
  | false => simp only [Registry.granting, internal, Bool.false_eq_true, if_false, fmShareListRemove]

/-- The branch of fm_create that makes a new share. -/
theorem build_follows (mirrors : Mirrors ids handles tables r) {keys : Nat} {pinShare : Bool}
    {result : CreateResult}
    (made : tables.toShareMemory.build ⟨name, keys, false, pinShare⟩ = some result) :
    Follows { tables with toShareMemory := result.memory } r fun r =>
      (createNew r name pinShare).1 := by
  obtain ⟨_, kept, conserves⟩ | ⟨share, heap, place, more, same, unused, outside, conserves, rfl⟩ :=
    ShareMemory.build_inv rfl made
  · refine ⟨ids, handles, false, ?_⟩
    have refused : Mirrors ids handles (tables.onHeap tables.heap) (r.granting false).alloc.2 :=
      mirrors.congr tables.heap (Nat.le_refl _) rfl rfl rfl rfl rfl
    exact refused.withMemory _ kept conserves.asked
  · refine ⟨Function.update ids share.block r.shares, handles, true, ?_⟩
    have grown : Mirrors (Function.update ids share.block r.shares) handles
        { tables.onHeap heap with shares := share :: tables.shares }
        (newShare (r.granting true) name false).1 :=
      mirrors.addShare heap place more unused outside rfl (by rw [same]; rfl) rfl rfl rfl
    have ended := grown.finish (q := ⟨name, keys, false, pinShare⟩) true rfl List.mem_cons_self
    rw [Function.update_self] at ended
    exact ended

theorem create_follows (mirrors : Mirrors ids handles tables r) {keys : Nat} {pinShare : Bool}
    (stepped : tables.create name keys pinShare = .ok after) :
    Follows after r fun r => (fmCreate r name false pinShare).1 := by
  unfold TableMemory.create at stepped
  cases made : tables.fmCreate ⟨name, keys, false, pinShare⟩ with
  | none =>
      rw [made] at stepped
      cases stepped
  | some result =>
      rw [made] at stepped
      have memory : ∃ pins, after = { tables with toShareMemory := result.memory, pins := pins } := by
        dsimp only at stepped
        split at stepped
        · cases stepped
          exact ⟨_, rfl⟩
        · cases stepped
          split <;> exact ⟨_, rfl⟩
      obtain ⟨pins, rfl⟩ := memory
      suffices created : Follows { tables with toShareMemory := result.memory } r fun r =>
          (fmCreate r name false pinShare).1 by
        obtain ⟨ids', handles', granted, mirrors'⟩ := created
        exact ⟨ids', handles', granted, mirrors'.withPins pins⟩
      let locked : TableMemory := { tables with locked := true }
      have mutex : Mirrors ids handles locked r := mirrors.withMemory _ rfl (Nat.le_refl _)
      have named : ∀ granted, fmFindNamedShare (r.granting granted) name =
          (locked.find name).map fun share => ids share.block := fun granted =>
        (mutex.granting granted).named name
      change (locked.toShareMemory.claim name).bind (ShareMemory.proceed _) = some result at made
      unfold ShareMemory.claim at made
      cases found : locked.find name with
      | none =>
          rw [found] at made
          obtain ⟨ids', handles', granted, built⟩ := mutex.build_follows made
          refine ⟨ids', handles', granted, ?_⟩
          have form : fmCreate (r.granting granted) name false pinShare =
              createNew (r.granting granted) name pinShare := by
            unfold fmCreate claimNamed
            rw [named, found]
            rfl
          change Mirrors _ _ _ (fmCreate (r.granting granted) name false pinShare).1
          rw [form]
          exact built
      | some share =>
          have member : share ∈ locked.shares := List.mem_of_find?_eq_some found
          rw [found] at made
          dsimp only at made
          have count : ∀ granted, (r.granting granted).openCount (ids share.block) =
              share.openCount := fun granted => (mutex.granting granted).openCount member
          split at made
          · rename_i unused
            cases freed : locked.toShareMemory.free share with
            | none =>
                rw [freed] at made
                cases made
            | some memory =>
                rw [freed] at made
                have freedTables : locked.fmFree share =
                    .ok { locked with toShareMemory := memory } := by
                  unfold TableMemory.fmFree
                  rw [freed]
                have cleared := mutex.free member freedTables
                obtain ⟨ids', handles', granted, built⟩ := cleared.build_follows made
                refine ⟨ids', handles', granted, ?_⟩
                have form : fmCreate (r.granting granted) name false pinShare =
                    createNew ((fmFree r (ids share.block)).granting granted) name pinShare := by
                  unfold fmCreate claimNamed
                  rw [named, found]
                  dsimp only [Option.map_some]
                  rw [count, if_pos unused, fmFree_granting]
                  rfl
                change Mirrors _ _ _ (fmCreate (r.granting granted) name false pinShare).1
                rw [form]
                exact built
          · rename_i used
            cases made
            refine ⟨ids, handles, true, ?_⟩
            have form : (fmCreate (r.granting true) name false pinShare).1 =
                pinned (r.granting true) (ids share.block) false pinShare := by
              unfold fmCreate claimNamed
              rw [named, found]
              dsimp only [Option.map_some]
              rw [count, if_neg used]
              rfl
            change Mirrors _ _ _ (fmCreate (r.granting true) name false pinShare).1
            rw [form]
            exact (mutex.granting true).finish false rfl member

end Mirrors

/-! ### Runs -/

/-- The call of the same name; fm_core_grow_chunk is none of the registry. -/
def callOnRegistry (ids handles : Nat → Nat) (r : Registry) : TableCall → Registry
  | .create name _ pinShare => (fmCreate r name false pinShare).1
  | .fmOpen name => (fmOpen r name).1
  | .fmOpenFromShareAndRegister block => (fmOpenFromShareAndRegister r (ids block)).1
  | .fmClose info => fmClose r (handles info.block)
  | .fmReleaseShare block => fmReleaseShare r (ids block) false
  | .fmDeleteTable name => (fmDeleteTable r name).1
  | .fmDropTable info => fmDropTable r (handles info.block)
  | .dropTable info => fmClose (setDeleteOnClose r (handles info.block)) (handles info.block)
  | .fmRename oldName newName => (fmRename r oldName newName).1
  | .grow _ => r

theorem step_follows {ids handles : Nat → Nat} {tables after : TableMemory} {r : Registry}
    {chunkCap : Nat → Nat} {call : TableCall} (mirrors : Mirrors ids handles tables r)
    (allowed : call.allowed tables = true) (stepped : tables.step chunkCap call = .ok after) :
    Mirrors.Follows after r fun r => callOnRegistry ids handles r call := by
  have same := mirrors.granting true
  cases call with
  | create name keys pinShare => exact mirrors.create_follows stepped
  | fmOpen name =>
      cases stepped
      exact mirrors.fmOpen_follows
  | fmOpenFromShareAndRegister block => exact mirrors.fmOpenFromShareAndRegister_follows stepped
  | fmClose info =>
      exact ⟨ids, handles, true, same.fmClose_mirrors (of_decide_eq_true allowed) stepped⟩
  | fmReleaseShare block => exact mirrors.fmReleaseShare_follows stepped
  | fmDeleteTable name => exact ⟨ids, handles, true, same.fmDeleteTable_mirrors stepped⟩
  | fmDropTable info =>
      exact ⟨ids, handles, true, same.fmDropTable_mirrors (of_decide_eq_true allowed) stepped⟩
  | dropTable info =>
      exact ⟨ids, handles, true, same.dropTable_mirrors (of_decide_eq_true allowed) stepped⟩
  | fmRename oldName newName =>
      cases stepped
      exact mirrors.fmRename_follows
  | grow info =>
      exact ⟨ids, handles, true, same.grow_mirrors stepped⟩

inductive RegistryPlay : Registry → List TableCall → Registry → Prop
  | nil (r : Registry) : RegistryPlay r [] r
  | cons {r r' : Registry} {call : TableCall} {rest : List TableCall} (ids handles : Nat → Nat)
      (granted : Bool)
      (later : RegistryPlay (callOnRegistry ids handles (r.granting granted) call) rest r') :
      RegistryPlay r (call :: rest) r'

theorem run_follows {chunkCap : Nat → Nat} {calls : List TableCall} {ids handles : Nat → Nat}
    {tables after : TableMemory} {r : Registry} (mirrors : Mirrors ids handles tables r)
    (ran : tables.run chunkCap calls = some after) :
    ∃ ids' handles' r', RegistryPlay r calls r' ∧ Mirrors ids' handles' after r' := by
  induction calls generalizing tables ids handles r with
  | nil =>
      cases ran
      exact ⟨ids, handles, r, .nil r, mirrors⟩
  | cons call rest ih =>
      unfold TableMemory.run at ran
      split at ran
      · rename_i allowed
        cases stepped : tables.step chunkCap call with
        | error fault =>
            rw [stepped] at ran
            cases ran
        | ok mid =>
            rw [stepped] at ran
            obtain ⟨ids₁, handles₁, granted, mirrors₁⟩ := step_follows mirrors allowed stepped
            obtain ⟨ids', handles', r', later, mirrors'⟩ := ih mirrors₁ ran
            exact ⟨ids', handles', r', .cons ids handles granted later, mirrors'⟩
      · cases ran

/-- Calls on tables with their memory are calls on the registry, from its beginning on. -/
theorem tables_follow (outcome outcome' : Nat → Bool) (chunkCap : Nat → Nat)
    (calls : List TableCall) (tables : TableMemory)
    (ran : (TableMemory.empty outcome).run chunkCap calls = some tables) :
    ∃ ids handles r, RegistryPlay (.empty outcome') calls r ∧ Mirrors ids handles tables r :=
  run_follows (.empty outcome outcome') ran

end Fastmem
