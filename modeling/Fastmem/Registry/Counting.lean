/-
Reference counts of shares.

A share is counted by its live handles and by its pins: a pinned fm_create takes
a pin, and either fm_open_from_share_and_register turns it into a handle or
fm_release_share gives it back. Pins are no data of the code; callers promise to
use each once.
-/

import Fastmem.Registry.Shares
import Mathlib.Data.Set.Card

set_option autoImplicit false

namespace Fastmem

/-! ### The invariant -/

def HandleOf (r : Registry) (id handle : Nat) : Prop :=
  ∃ info, r.info handle = some info ∧ info.s = id

/-- Counts and lists are exact; `pins` are the outstanding pins of each share. -/
structure RefsCounted (r : Registry) (pins : Nat → Nat) : Prop where
  registered : ∀ id, id ∈ r.list ↔ ∃ share, r.share id = some share
  distinct : r.list.Nodup
  external : ∀ id share, r.share id = some share → share.internal = false
  counted : ∀ id share, r.share id = some share →
    share.openCount = share.openList.length + pins id
  listed : ∀ id share, r.share id = some share →
    share.openList.Nodup ∧ ∀ handle, handle ∈ share.openList ↔ HandleOf r id handle
  marked : ∀ handle info, r.info handle = some info → info.openListed = true
  alive : ∀ id handle, HandleOf r id handle → ∃ share, r.share id = some share
  pinned : ∀ id, pins id ≠ 0 → ∃ share, r.share id = some share
  once : r.freed.Nodup
  gone : ∀ id ∈ r.freed, r.share id = none ∧ id < r.shares
  fresh : ∀ id, r.shares ≤ id → r.share id = none
  freshInfo : ∀ handle, r.infos ≤ handle → r.info handle = none

def Unmarked (r : Registry) : Prop :=
  ∀ id share, r.share id = some share → share.openCount = 0 → share.deleteOnClose = false

theorem RefsCounted.empty (outcome : Nat → Bool) : RefsCounted (.empty outcome) fun _ => 0 where
  registered id := ⟨fun member => (by cases member), fun ⟨_, found⟩ => (by cases found)⟩
  distinct := List.nodup_nil
  external _ _ found := by cases found
  counted _ _ found := by cases found
  listed _ _ found := by cases found
  marked _ _ found := by cases found
  alive _ _ live := by
    obtain ⟨_, found, _⟩ := live
    cases found
  pinned _ some_ := absurd rfl some_
  once := List.nodup_nil
  gone _ member := by cases member
  fresh _ _ := rfl
  freshInfo _ _ := rfl

theorem Unmarked.empty (outcome : Nat → Bool) : Unmarked (.empty outcome) := by
  intro _ _ found
  cases found

section

variable {r r' : Registry} {pins pins' : Nat → Nat} {id handle : Nat} {share share' : FmShare}
  {name : String}

theorem RefsCounted.alloc (exact_ : RefsCounted r pins) : RefsCounted r.alloc.2 pins :=
  ⟨exact_.registered, exact_.distinct, exact_.external, exact_.counted, exact_.listed,
    exact_.marked, exact_.alive, exact_.pinned, exact_.once, exact_.gone, exact_.fresh,
    exact_.freshInfo⟩

/-! ### What the functions do to the invariant -/

theorem RefsCounted.replace (exact_ : RefsCounted r pins) (found : r.share id = some share)
    (shares : r'.share = Function.update r.share id (some share'))
    (kept : r'.list = r.list ∧ r'.freed = r.freed ∧ r'.shares = r.shares)
    (external : share'.internal = share.internal)
    (counted : share'.openCount = share'.openList.length + pins' id)
    (listed : share'.openList.Nodup ∧ ∀ handle, handle ∈ share'.openList ↔ HandleOf r' id handle)
    (otherPins : ∀ other, other ≠ id → pins' other = pins other)
    (otherHandles : ∀ other handle, other ≠ id → (HandleOf r' other handle ↔ HandleOf r other handle))
    (marked : ∀ handle info, r'.info handle = some info → info.openListed = true)
    (freshInfo : ∀ handle, r'.infos ≤ handle → r'.info handle = none) : RefsCounted r' pins' := by
  obtain ⟨list, freed, count⟩ := kept
  have at_ : r'.share id = some share' := by
    rw [shares]
    exact Function.update_self ..
  have other : ∀ other, other ≠ id → r'.share other = r.share other := by
    intro other different
    rw [shares]
    exact Function.update_of_ne different ..
  have exists_iff : ∀ other, (∃ share, r'.share other = some share) ↔
      ∃ share, r.share other = some share := by
    intro other'
    by_cases same : other' = id
    · subst same
      exact ⟨fun _ => ⟨share, found⟩, fun _ => ⟨share', at_⟩⟩
    · rw [other other' same]
  constructor
  case registered =>
    intro other'
    rw [list, exists_iff, exact_.registered]
  case distinct =>
    rw [list]
    exact exact_.distinct
  case external =>
    intro other' share'' found'
    by_cases same : other' = id
    · subst same
      obtain rfl : share' = share'' := Option.some.inj (at_.symm.trans found')
      exact external.trans (exact_.external _ _ found)
    · exact exact_.external _ _ ((other other' same).symm.trans found')
  case counted =>
    intro other' share'' found'
    by_cases same : other' = id
    · subst same
      obtain rfl : share' = share'' := Option.some.inj (at_.symm.trans found')
      exact counted
    · rw [otherPins other' same]
      exact exact_.counted _ _ ((other other' same).symm.trans found')
  case listed =>
    intro other' share'' found'
    by_cases same : other' = id
    · subst same
      obtain rfl : share' = share'' := Option.some.inj (at_.symm.trans found')
      exact listed
    · obtain ⟨nodup, exactly⟩ := exact_.listed _ _ ((other other' same).symm.trans found')
      exact ⟨nodup, fun handle => (exactly handle).trans (otherHandles other' handle same).symm⟩
  case marked => exact marked
  case alive =>
    intro other' handle live
    rw [exists_iff]
    by_cases same : other' = id
    · subst same
      exact ⟨share, found⟩
    · exact exact_.alive other' handle ((otherHandles other' handle same).mp live)
  case pinned =>
    intro other' pin
    rw [exists_iff]
    by_cases same : other' = id
    · subst same
      exact ⟨share, found⟩
    · rw [otherPins other' same] at pin
      exact exact_.pinned other' pin
  case once =>
    rw [freed]
    exact exact_.once
  case gone =>
    intro other' member
    rw [freed] at member
    obtain ⟨absent, below⟩ := exact_.gone other' member
    have different : other' ≠ id := by
      rintro rfl
      rw [found] at absent
      cases absent
    rw [other other' different, count]
    exact ⟨absent, below⟩
  case fresh =>
    intro other' above
    rw [count] at above
    have absent := exact_.fresh other' above
    have different : other' ≠ id := by
      rintro rfl
      rw [found] at absent
      cases absent
    rw [other other' different]
    exact absent
  case freshInfo => exact freshInfo

theorem onShare_found (found : r.share id = some share) (change : FmShare → FmShare) :
    (r.onShare id change).share = Function.update r.share id (some (change share)) := by
  unfold Registry.onShare
  rw [found]
  rfl

theorem openCount_found (found : r.share id = some share) : r.openCount id = share.openCount := by
  unfold Registry.openCount
  rw [found]
  rfl

theorem RefsCounted.adjust (exact_ : RefsCounted r pins) (found : r.share id = some share)
    {change : FmShare → FmShare} (external : (change share).internal = share.internal)
    (handles : (change share).openList = share.openList)
    (counted : (change share).openCount = share.openList.length + pins' id)
    (otherPins : ∀ other, other ≠ id → pins' other = pins other) :
    RefsCounted (r.onShare id change) pins' := by
  refine exact_.replace found (onShare_found found change) ⟨rfl, rfl, rfl⟩ external ?_ ?_ otherPins
    (fun _ _ _ => Iff.rfl) exact_.marked exact_.freshInfo
  · rw [handles]
    exact counted
  · rw [handles]
    exact exact_.listed id share found

theorem Unmarked.replace (unmarked : Unmarked r)
    (shares : r'.share = Function.update r.share id (some share'))
    (zero : share'.openCount = 0 → share'.deleteOnClose = false) : Unmarked r' := by
  intro other share'' found' none_
  by_cases same : other = id
  · subst same
    rw [shares, Function.update_self] at found'
    obtain rfl := Option.some.inj found'
    exact zero none_
  · rw [shares, Function.update_of_ne same] at found'
    exact unmarked other share'' found' none_

theorem RefsCounted.free (exact_ : RefsCounted r pins) (found : r.share id = some share)
    (zero : share.openCount = 0) : RefsCounted (fmFree r id) pins := by
  have count := exact_.counted id share found
  have noHandles : share.openList = [] := List.length_eq_zero_iff.mp (by omega)
  have noPins : pins id = 0 := by omega
  have external : ((r.share id).any FmShare.internal) = false := by
    rw [found]
    exact exact_.external id share found
  have form : fmFree r id = { r with
      list := r.list.erase id
      share := Function.update r.share id none
      freed := id :: r.freed } := by
    unfold fmFree
    rw [external]
    rfl
  have unused : ∀ handle, ¬ HandleOf r id handle := by
    intro handle live
    have member := ((exact_.listed id share found).2 handle).mpr live
    rw [noHandles] at member
    cases member
  have other : ∀ other, other ≠ id → (fmFree r id).share other = r.share other := by
    intro other different
    rw [form]
    exact Function.update_of_ne different ..
  have at_ : (fmFree r id).share id = none := by
    rw [form]
    exact Function.update_self ..
  have differs : ∀ {other share'}, (fmFree r id).share other = some share' → other ≠ id := by
    rintro other share' found' rfl
    rw [at_] at found'
    cases found'
  constructor
  case registered =>
    intro other'
    rw [form]
    rw [exact_.distinct.mem_erase_iff, exact_.registered]
    by_cases same : other' = id
    · subst same
      simp
    · simp [same]
  case distinct =>
    rw [form]
    exact exact_.distinct.erase id
  case external =>
    intro other' share' found'
    exact exact_.external _ _ ((other _ (differs found')).symm.trans found')
  case counted =>
    intro other' share' found'
    exact exact_.counted _ _ ((other _ (differs found')).symm.trans found')
  case listed =>
    intro other' share' found'
    rw [form]
    exact exact_.listed _ _ ((other _ (differs found')).symm.trans found')
  case marked =>
    rw [form]
    exact exact_.marked
  case alive =>
    intro other' handle live
    rw [form] at live
    have different : other' ≠ id := by
      rintro rfl
      exact unused handle live
    rw [other other' different]
    exact exact_.alive other' handle live
  case pinned =>
    intro other' pin
    have different : other' ≠ id := by
      rintro rfl
      exact pin noPins
    rw [other other' different]
    exact exact_.pinned other' pin
  case once =>
    rw [form]
    refine List.nodup_cons.mpr ⟨fun member => ?_, exact_.once⟩
    have absent := (exact_.gone id member).1
    rw [found] at absent
    cases absent
  case gone =>
    intro other' member
    rw [form] at member ⊢
    rcases List.mem_cons.mp member with rfl | member
    · refine ⟨Function.update_self .., ?_⟩
      by_contra above
      have absent := exact_.fresh other' (Nat.le_of_not_lt above)
      rw [found] at absent
      cases absent
    · obtain ⟨absent, below⟩ := exact_.gone other' member
      refine ⟨?_, below⟩
      by_cases same : other' = id
      · subst same
        exact Function.update_self ..
      · exact (Function.update_of_ne same ..).trans absent
  case fresh =>
    intro other' above
    by_cases same : other' = id
    · rw [same]
      exact at_
    · rw [other other' same]
      refine exact_.fresh other' ?_
      rw [form] at above
      exact above
  case freshInfo =>
    rw [form]
    exact exact_.freshInfo

theorem fmFree_share (r : Registry) (id : Nat) :
    (fmFree r id).share = Function.update r.share id none := by
  unfold fmFree
  cases (r.share id).any FmShare.internal <;> rfl

theorem Unmarked.free (unmarked : Unmarked r) (id : Nat) : Unmarked (fmFree r id) := by
  intro other share found zero
  rw [fmFree_share] at found
  by_cases same : other = id
  · subst same
    rw [Function.update_self] at found
    cases found
  · rw [Function.update_of_ne same] at found
    exact unmarked other share found zero

theorem RefsCounted.add (exact_ : RefsCounted r pins) {k : Nat} :
    RefsCounted { r with
      share := Function.update r.share r.shares (some ⟨name, 0, false, false, []⟩)
      shares := r.shares + 1
      list := r.shares :: r.list
      asked := k } pins := by
  have absent := exact_.fresh r.shares (Nat.le_refl _)
  have unused : ∀ handle, ¬ HandleOf r r.shares handle := by
    intro handle live
    obtain ⟨share, found⟩ := exact_.alive _ _ live
    rw [absent] at found
    cases found
  have noPins : pins r.shares = 0 := by
    by_contra some_
    obtain ⟨share, found⟩ := exact_.pinned _ some_
    rw [absent] at found
    cases found
  have new : r.shares ∉ r.list := by
    intro member
    obtain ⟨share, found⟩ := (exact_.registered _).mp member
    rw [absent] at found
    cases found
  have older : ∀ {id share}, r.share id = some share → id ≠ r.shares := by
    rintro id share found rfl
    rw [absent] at found
    cases found
  have either : ∀ {id share}, Function.update r.share r.shares
      (some ⟨name, 0, false, false, []⟩) id = some share →
      (id = r.shares ∧ share = ⟨name, 0, false, false, []⟩) ∨ r.share id = some share := by
    intro id share found
    by_cases same : id = r.shares
    · subst same
      rw [Function.update_self] at found
      exact .inl ⟨rfl, (Option.some.inj found).symm⟩
    · rw [Function.update_of_ne same] at found
      exact .inr found
  constructor
  case registered =>
    intro id
    by_cases same : id = r.shares
    · subst same
      simp
    · simp [same, exact_.registered]
  case distinct => exact List.nodup_cons.mpr ⟨new, exact_.distinct⟩
  case external =>
    intro id share found
    rcases either found with ⟨rfl, rfl⟩ | old
    · rfl
    · exact exact_.external id share old
  case counted =>
    intro id share found
    rcases either found with ⟨rfl, rfl⟩ | old
    · exact ((Nat.zero_add _).trans noPins).symm
    · exact exact_.counted id share old
  case listed =>
    intro id share found
    rcases either found with ⟨rfl, rfl⟩ | old
    · exact ⟨List.nodup_nil, fun handle =>
        ⟨fun member => (by cases member), fun live => absurd live (unused handle)⟩⟩
    · exact exact_.listed id share old
  case marked => exact exact_.marked
  case alive =>
    intro id handle live
    obtain ⟨share, found⟩ := exact_.alive id handle live
    exact ⟨share, (Function.update_of_ne (older found) ..).trans found⟩
  case pinned =>
    intro id pin
    obtain ⟨share, found⟩ := exact_.pinned id pin
    exact ⟨share, (Function.update_of_ne (older found) ..).trans found⟩
  case once => exact exact_.once
  case gone =>
    intro id member
    obtain ⟨gone, below⟩ := exact_.gone id member
    exact ⟨(Function.update_of_ne (Nat.ne_of_lt below) ..).trans gone, Nat.lt_succ_of_lt below⟩
  case fresh =>
    intro id above
    have above' : r.shares + 1 ≤ id := above
    exact (Function.update_of_ne (by omega) ..).trans (exact_.fresh id (by omega))
  case freshInfo => exact exact_.freshInfo

theorem find_registered (exact_ : RefsCounted r pins) (found : fmFindNamedShare r name = some id) :
    ∃ share, r.share id = some share ∧ share.name = name := by
  have matched := List.find?_some found
  obtain ⟨share, at_⟩ := (exact_.registered id).mp (List.mem_of_find?_eq_some found)
  rw [at_] at matched
  exact ⟨share, at_, by simpa using matched⟩

theorem newShare_counted (exact_ : RefsCounted r pins) (unmarked : Unmarked r) {found : Option Nat}
    (made : newShare r name false = (r', found)) :
    RefsCounted r' pins ∧ Unmarked r' ∧ ∀ id, found = some id → ∃ share, r'.share id = some share := by
  have failed : ∀ k, RefsCounted { r with asked := k } pins ∧ Unmarked { r with asked := k } ∧
      ∀ id, none = some id → ∃ share, r.share id = some share :=
    fun k => ⟨⟨exact_.registered, exact_.distinct, exact_.external, exact_.counted, exact_.listed,
      exact_.marked, exact_.alive, exact_.pinned, exact_.once, exact_.gone, exact_.fresh,
      exact_.freshInfo⟩, unmarked, fun id none_ => by cases none_⟩
  unfold newShare Registry.alloc at made
  cases block : r.outcome r.asked with
  | false =>
      simp only [block, Bool.not_false, if_true, Prod.mk.injEq] at made
      obtain ⟨rfl, rfl⟩ := made
      exact failed _
  | true =>
      cases chunks : r.outcome (r.asked + 1) with
      | false =>
          simp only [block, chunks, Bool.not_true, Bool.not_false, Bool.false_eq_true, if_true,
            if_false, Prod.mk.injEq] at made
          obtain ⟨rfl, rfl⟩ := made
          exact failed _
      | true =>
          cases copied : r.outcome (r.asked + 1 + 1) with
          | false =>
              simp only [block, chunks, copied, Bool.not_true, Bool.not_false, Bool.false_eq_true,
                if_true, if_false, Prod.mk.injEq] at made
              obtain ⟨rfl, rfl⟩ := made
              exact failed _
          | true =>
              simp only [block, chunks, copied, Bool.not_true, Bool.false_eq_true, if_false,
                Prod.mk.injEq] at made
              obtain ⟨rfl, rfl⟩ := made
              refine ⟨?_, ?_, fun id same => ?_⟩
              · exact exact_.add
              · exact unmarked.replace rfl fun _ => rfl
              · obtain rfl := Option.some.inj same
                exact ⟨_, Function.update_self ..⟩

structure Balanced (r : Registry) (pins : Nat → Nat) : Prop where
  counts : RefsCounted r pins
  unmarked : Unmarked r

theorem Balanced.free (balanced : Balanced r pins) (found : r.share id = some share)
    (zero : share.openCount = 0) : Balanced (fmFree r id) pins :=
  ⟨balanced.counts.free found zero, balanced.unmarked.free id⟩

theorem claimNamed_balanced (balanced : Balanced r pins) {claimed : Option Nat}
    (ran : claimNamed r name = (r', claimed)) :
    Balanced r' pins ∧ ∀ id, claimed = some id → ∃ share, r'.share id = some share := by
  unfold claimNamed at ran
  cases found : fmFindNamedShare r name with
  | none =>
      rw [found] at ran
      obtain ⟨rfl, rfl⟩ := Prod.mk.inj ran
      exact ⟨balanced, fun _ impossible => by cases impossible⟩
  | some id =>
      obtain ⟨share, at_, _⟩ := find_registered balanced.counts found
      rw [found] at ran
      dsimp only at ran
      rw [openCount_found at_] at ran
      by_cases zero : share.openCount = 0
      · rw [if_pos zero] at ran
        obtain ⟨rfl, rfl⟩ := Prod.mk.inj ran
        exact ⟨balanced.free at_ zero, fun _ impossible => by cases impossible⟩
      · rw [if_neg zero] at ran
        obtain ⟨rfl, rfl⟩ := Prod.mk.inj ran
        refine ⟨balanced, fun other same => ?_⟩
        obtain rfl := Option.some.inj same
        exact ⟨share, at_⟩

/-- The pins after fm_create. -/
def pinsAfterCreate (pins : Nat → Nat) (pinShare : Bool) (result : Option (Nat × Bool)) :
    Nat → Nat :=
  match result with
  | some (id, _) => if pinShare then Function.update pins id (pins id + 1) else pins
  | none => pins

theorem pinned_balanced (balanced : Balanced r pins) (found : r.share id = some share)
    (pinShare created : Bool) :
    Balanced (pinned r id false pinShare) (pinsAfterCreate pins pinShare (some (id, created))) := by
  cases pinShare with
  | false => exact balanced
  | true =>
      have counted := balanced.counts.counted id share found
      constructor
      · refine balanced.counts.adjust found rfl rfl ?_ fun other different =>
          Function.update_of_ne different ..
        change share.openCount + 1 = share.openList.length + Function.update pins id _ id
        rw [Function.update_self]
        omega
      · exact balanced.unmarked.replace (onShare_found found _) fun zero => by cases zero

theorem fmCreate_balanced (balanced : Balanced r pins) {pinShare : Bool}
    {result : Option (Nat × Bool)} (ran : fmCreate r name false pinShare = (r', result)) :
    Balanced r' (pinsAfterCreate pins pinShare result) := by
  unfold fmCreate at ran
  simp only [Bool.false_eq_true, if_false] at ran
  cases claim : claimNamed r name with
  | mk r₁ claimed =>
      obtain ⟨balanced₁, found₁⟩ := claimNamed_balanced balanced claim
      rw [claim] at ran
      cases claimed with
      | some id =>
          obtain ⟨rfl, rfl⟩ := Prod.mk.inj ran
          obtain ⟨share, at_⟩ := found₁ id rfl
          exact pinned_balanced balanced₁ at_ pinShare false
      | none =>
          dsimp only at ran
          cases new : newShare r₁ name false with
          | mk r₂ made =>
              obtain ⟨counts₂, unmarked₂, found₂⟩ :=
                newShare_counted balanced₁.counts balanced₁.unmarked new
              rw [new] at ran
              cases made with
              | none =>
                  obtain ⟨rfl, rfl⟩ := Prod.mk.inj ran
                  exact ⟨counts₂, unmarked₂⟩
              | some id =>
                  obtain ⟨rfl, rfl⟩ := Prod.mk.inj ran
                  obtain ⟨share, at_⟩ := found₂ id rfl
                  exact pinned_balanced ⟨counts₂, unmarked₂⟩ at_ pinShare true

/-- A failed allocation of a handle changes nothing; a successful one, listed, adds a handle
to the share. -/
theorem opened_form (found : r.share id = some share) {opened : Option Nat}
    (ran : fmOpenFromShareLocked r id = (r', opened)) :
    (opened = none ∧ r' = r.alloc.2) ∨
    (opened = some r.infos ∧ listHandle r' id r.infos = { r with
      share := Function.update r.share id (some { share with
        openCount := share.openCount + 1, openList := r.infos :: share.openList })
      info := Function.update r.info r.infos (some ⟨id, true⟩)
      infos := r.infos + 1
      asked := r.asked + 1 }) := by
  unfold fmOpenFromShareLocked Registry.alloc at ran
  cases block : r.outcome r.asked with
  | false =>
      simp only [block, Bool.not_false, if_true, Prod.mk.injEq] at ran
      exact .inl ⟨ran.2.symm, ran.1.symm⟩
  | true =>
      simp only [block, Bool.not_true, Bool.false_eq_true, if_false, Prod.mk.injEq] at ran
      obtain ⟨rfl, rfl⟩ := ran
      refine .inr ⟨rfl, ?_⟩
      simp only [listHandle, Registry.onShare, found, Option.map_some, Function.update_self,
        Function.update_idem]

theorem RefsCounted.addHandle (exact_ : RefsCounted r pins) (found : r.share id = some share)
    (shares : r'.share = Function.update r.share id (some share'))
    (kept : r'.list = r.list ∧ r'.freed = r.freed ∧ r'.shares = r.shares)
    (infos : r'.info = Function.update r.info r.infos (some ⟨id, true⟩) ∧ r'.infos = r.infos + 1)
    (external : share'.internal = share.internal)
    (handles : share'.openList = r.infos :: share.openList)
    (counted : share'.openCount = share.openList.length + 1 + pins' id)
    (otherPins : ∀ other, other ≠ id → pins' other = pins other) : RefsCounted r' pins' := by
  obtain ⟨infoEq, infosEq⟩ := infos
  have free := exact_.freshInfo r.infos (Nat.le_refl _)
  obtain ⟨nodup, exactly⟩ := exact_.listed id share found
  have handleOf : ∀ other handle, HandleOf r' other handle ↔
      (handle = r.infos ∧ other = id) ∨ HandleOf r other handle := by
    intro other handle
    unfold HandleOf
    rw [infoEq]
    by_cases same : handle = r.infos
    · subst same
      rw [Function.update_self, free]
      simp [eq_comm]
    · rw [Function.update_of_ne same]
      simp [same]
  have new : r.infos ∉ share.openList := by
    intro member
    obtain ⟨info, live, _⟩ := (exactly r.infos).mp member
    rw [free] at live
    cases live
  refine exact_.replace found shares kept external ?_ ⟨?_, fun handle => ?_⟩ otherPins
    (fun other handle different => ?_) (fun handle info live => ?_) (fun handle above => ?_)
  · rw [handles, counted]
    rfl
  · rw [handles]
    exact List.nodup_cons.mpr ⟨new, nodup⟩
  · rw [handles, handleOf, List.mem_cons, exactly]
    simp
  · rw [handleOf]
    simp [different]
  · rw [infoEq] at live
    by_cases same : handle = r.infos
    · subst same
      rw [Function.update_self] at live
      cases live
      rfl
    · rw [Function.update_of_ne same] at live
      exact exact_.marked handle info live
  · rw [infosEq] at above
    rw [infoEq, Function.update_of_ne (by omega)]
    exact exact_.freshInfo handle (by omega)

theorem fmOpen_balanced (balanced : Balanced r pins) {opened : Opened}
    (ran : fmOpen r name = (r', opened)) : Balanced r' pins := by
  unfold fmOpen at ran
  cases named : fmFindNamedShare r name with
  | none =>
      rw [named] at ran
      obtain ⟨rfl, rfl⟩ := Prod.mk.inj ran
      exact balanced
  | some id =>
      obtain ⟨share, found, _⟩ := find_registered balanced.counts named
      rw [named] at ran
      dsimp only at ran
      cases locked : fmOpenFromShareLocked r id with
      | mk r₁ handle =>
          rw [locked] at ran
          rcases opened_form found locked with ⟨rfl, rfl⟩ | ⟨rfl, form⟩
          · obtain ⟨rfl, rfl⟩ := Prod.mk.inj ran
            exact ⟨balanced.counts.alloc, balanced.unmarked⟩
          · dsimp only at ran
            rw [form] at ran
            obtain ⟨rfl, rfl⟩ := Prod.mk.inj ran
            have counted := balanced.counts.counted id share found
            constructor
            · refine balanced.counts.addHandle found rfl ⟨rfl, rfl, rfl⟩ ⟨rfl, rfl⟩ rfl rfl ?_
                fun _ _ => rfl
              dsimp only
              omega
            · exact balanced.unmarked.replace rfl fun zero => by cases zero

theorem fmOpenFromShareAndRegister_balanced (balanced : Balanced r pins) (pin : pins id ≠ 0)
    {opened : Option Nat} (ran : fmOpenFromShareAndRegister r id = (r', opened)) :
    Balanced r' (if opened = none then pins else Function.update pins id (pins id - 1)) := by
  obtain ⟨share, found⟩ := balanced.counts.pinned id pin
  unfold fmOpenFromShareAndRegister at ran
  cases locked : fmOpenFromShareLocked r id with
  | mk r₁ handle =>
      rw [locked] at ran
      rcases opened_form found locked with ⟨rfl, rfl⟩ | ⟨rfl, form⟩
      · obtain ⟨rfl, rfl⟩ := Prod.mk.inj ran
        rw [if_pos rfl]
        exact ⟨balanced.counts.alloc, balanced.unmarked⟩
      · dsimp only at ran
        rw [form] at ran
        obtain ⟨rfl, rfl⟩ := Prod.mk.inj ran
        rw [if_neg (by simp)]
        have counted := balanced.counts.counted id share found
        have shares : (Registry.onShare { r with
            share := Function.update r.share id (some { share with
              openCount := share.openCount + 1, openList := r.infos :: share.openList })
            info := Function.update r.info r.infos (some ⟨id, true⟩)
            infos := r.infos + 1
            asked := r.asked + 1 } id fun share =>
              { share with openCount := share.openCount - 1 }).share =
            Function.update r.share id
              (some { share with openList := r.infos :: share.openList }) := by
          simp only [Registry.onShare, Function.update_self, Option.map_some,
            Function.update_idem, Nat.add_sub_cancel]
        constructor
        · refine balanced.counts.addHandle found shares ⟨rfl, rfl, rfl⟩ ⟨rfl, rfl⟩ rfl rfl ?_
            fun other different => Function.update_of_ne different ..
          rw [Function.update_self]
          dsimp only
          omega
        · refine balanced.unmarked.replace shares fun zero => ?_
          exact balanced.unmarked id share found zero

theorem fmFree_info (r : Registry) (id : Nat) (info : Nat → Option FmInfo) :
    { fmFree r id with info := info } = fmFree { r with info := info } id := by
  unfold fmFree
  cases (r.share id).any FmShare.internal <;> rfl

theorem RefsCounted.dropHandle (exact_ : RefsCounted r pins) (found : r.share id = some share)
    (live : HandleOf r id handle)
    (shares : r'.share = Function.update r.share id (some { share with
      openList := share.openList.erase handle, openCount := share.openCount - 1 }))
    (kept : r'.list = r.list ∧ r'.freed = r.freed ∧ r'.shares = r.shares)
    (infos : r'.info = Function.update r.info handle none ∧ r'.infos = r.infos) :
    RefsCounted r' pins := by
  obtain ⟨infoEq, infosEq⟩ := infos
  obtain ⟨nodup, exactly⟩ := exact_.listed id share found
  have member := (exactly handle).mpr live
  have positive := List.length_pos_of_mem member
  have handleOf : ∀ other handle', HandleOf r' other handle' ↔
      handle' ≠ handle ∧ HandleOf r other handle' := by
    intro other handle'
    unfold HandleOf
    rw [infoEq]
    by_cases same : handle' = handle
    · subst same
      rw [Function.update_self]
      simp
    · rw [Function.update_of_ne same]
      simp [same]
  refine exact_.replace found shares kept rfl ?_ ⟨nodup.erase _, fun handle' => ?_⟩
    (fun _ _ => rfl) (fun other handle' different => ?_) (fun handle' info live' => ?_)
    (fun handle' above => ?_)
  · have counted := exact_.counted id share found
    rw [List.length_erase_of_mem member]
    dsimp only
    omega
  · rw [handleOf, nodup.mem_erase_iff, exactly]
  · rw [handleOf]
    refine ⟨And.right, fun live' => ⟨?_, live'⟩⟩
    rintro rfl
    obtain ⟨info, at_, same⟩ := live
    obtain ⟨info', at_', same'⟩ := live'
    rw [at_] at at_'
    cases at_'
    exact different (same'.symm.trans same)
  · rw [infoEq] at live'
    by_cases same : handle' = handle
    · subst same
      rw [Function.update_self] at live'
      cases live'
    · rw [Function.update_of_ne same] at live'
      exact exact_.marked handle' info live'
  · rw [infosEq] at above
    rw [infoEq]
    by_cases same : handle' = handle
    · rw [same, Function.update_self]
    · rw [Function.update_of_ne same]
      exact exact_.freshInfo handle' above

theorem RefsCounted.settle (exact_ : RefsCounted r' pins) (unmarked : Unmarked r)
    (shares : r'.share = Function.update r.share id (some share')) (frees : Bool)
    (marked : share'.openCount = 0 → share'.deleteOnClose = true → frees = true) :
    Balanced (if share'.openCount = 0 ∧ frees = true then fmFree r' id else r') pins := by
  have found : r'.share id = some share' := by
    rw [shares]
    exact Function.update_self ..
  by_cases drops : share'.openCount = 0 ∧ frees = true
  · rw [if_pos drops]
    refine ⟨exact_.free found drops.1, fun other share'' found' zero => ?_⟩
    rw [fmFree_share, shares, Function.update_idem] at found'
    by_cases same : other = id
    · subst same
      rw [Function.update_self] at found'
      cases found'
    · rw [Function.update_of_ne same] at found'
      exact unmarked other share'' found' zero
  · rw [if_neg drops]
    refine ⟨exact_, unmarked.replace shares fun zero => ?_⟩
    cases mark : share'.deleteOnClose with
    | false => rfl
    | true => exact absurd ⟨zero, marked zero mark⟩ drops

theorem fmClose_balanced (balanced : Balanced r pins) (live : r.info handle ≠ none) :
    Balanced (fmClose r handle) pins := by
  obtain ⟨info, at_⟩ := Option.ne_none_iff_exists'.mp live
  have handleOf : HandleOf r info.s handle := ⟨info, at_, rfl⟩
  obtain ⟨share, found⟩ := balanced.counts.alive _ _ handleOf
  have mark := balanced.counts.marked handle info at_
  have shares : (unlistHandle r info.s handle info.openListed).share =
      Function.update r.share info.s (some { share with
        openList := share.openList.erase handle, openCount := share.openCount - 1 }) := by
    rw [mark]
    exact onShare_found found _
  have at_' : (unlistHandle r info.s handle info.openListed).share info.s = some { share with
      openList := share.openList.erase handle, openCount := share.openCount - 1 } := by
    rw [shares, Function.update_self]
  have counts := @RefsCounted.dropHandle r { unlistHandle r info.s handle info.openListed with
    info := Function.update r.info handle none } pins info.s handle share balanced.counts found
    handleOf shares ⟨rfl, rfl, rfl⟩ ⟨rfl, rfl⟩
  have settled := counts.settle balanced.unmarked shares share.deleteOnClose fun _ marked => marked
  have form : fmClose r handle =
      if share.openCount - 1 = 0 ∧ share.deleteOnClose = true then
        fmFree { unlistHandle r info.s handle info.openListed with
          info := Function.update r.info handle none } info.s
      else
        { unlistHandle r info.s handle info.openListed with
          info := Function.update r.info handle none } := by
    unfold fmClose
    rw [at_]
    dsimp only
    rw [openCount_found at_', at_', ← fmFree_info]
    simp only [Option.any_some]
    split
    · rename_i drops
      unfold fmFree
      cases (Registry.share (unlistHandle r info.s handle info.openListed) info.s).any
        FmShare.internal <;> rfl
    · rfl
  rw [form]
  exact settled

theorem fmReleaseShare_balanced (balanced : Balanced r pins) (pin : pins id ≠ 0) :
    Balanced (fmReleaseShare r id false) (Function.update pins id (pins id - 1)) := by
  obtain ⟨share, found⟩ := balanced.counts.pinned id pin
  have counted := balanced.counts.counted id share found
  have shares := onShare_found found fun share => { share with openCount := share.openCount - 1 }
  have counts : RefsCounted (r.onShare id fun share => { share with openCount := share.openCount - 1 })
      (Function.update pins id (pins id - 1)) := by
    refine balanced.counts.adjust found rfl rfl ?_ fun other different =>
      Function.update_of_ne different ..
    rw [Function.update_self]
    dsimp only
    omega
  have settled := counts.settle balanced.unmarked shares true fun _ _ => rfl
  have at_ : (r.onShare id fun share => { share with openCount := share.openCount - 1 }).share id =
      some { share with openCount := share.openCount - 1 } := by
    rw [shares, Function.update_self]
  unfold fmReleaseShare
  rw [if_neg Bool.false_ne_true]
  dsimp only
  rw [openCount_found at_]
  simpa only [and_true] using settled

theorem fmTryFree_balanced (balanced : Balanced r pins) (found : r.share id = some share) :
    Balanced (fmTryFree r id) pins := by
  unfold fmTryFree
  rw [openCount_found found]
  by_cases zero : share.openCount = 0
  · rw [if_pos zero]
    exact balanced.free found zero
  · rw [if_neg zero]
    have counted := balanced.counts.counted id share found
    exact ⟨balanced.counts.adjust found rfl rfl counted fun _ _ => rfl,
      balanced.unmarked.replace (onShare_found found _) fun none_ => absurd none_ zero⟩

theorem fmDeleteTable_balanced (balanced : Balanced r pins) :
    Balanced (fmDeleteTable r name).1 pins := by
  unfold fmDeleteTable
  cases named : fmFindNamedShare r name with
  | none => exact balanced
  | some id =>
      obtain ⟨share, found, _⟩ := find_registered balanced.counts named
      exact fmTryFree_balanced balanced found

theorem fmDropTable_balanced (balanced : Balanced r pins) (live : r.info handle ≠ none) :
    Balanced (fmDropTable r handle) pins := by
  obtain ⟨info, at_⟩ := Option.ne_none_iff_exists'.mp live
  obtain ⟨share, found⟩ := balanced.counts.alive _ _ ⟨info, at_, rfl⟩
  unfold fmDropTable
  rw [at_]
  exact fmTryFree_balanced balanced found

theorem fmRename_balanced (balanced : Balanced r pins) (newName : String) :
    Balanced (fmRename r name newName).1 pins := by
  unfold fmRename Registry.alloc
  cases named : fmFindNamedShare r name with
  | none => exact balanced
  | some id =>
      obtain ⟨share, found, _⟩ := find_registered balanced.counts named
      have counts := balanced.counts.alloc
      dsimp only
      split
      · exact ⟨counts, balanced.unmarked⟩
      · have counted := balanced.counts.counted id share found
        have found' : r.alloc.2.share id = some share := found
        exact ⟨counts.adjust found' rfl rfl counted fun _ _ => rfl,
          balanced.unmarked.replace (onShare_found found' _) (balanced.unmarked id share found)⟩

end

/-! ### Runs -/

inductive RegistryCall
  | create (name : String) (pinShare : Bool)
  | openTable (name : String)
  | openFromShareAndRegister (id : Nat)
  | close (handle : Nat)
  | releaseShare (id : Nat)
  | deleteTable (name : String)
  | dropTable (handle : Nat)
  | rename (oldName newName : String)
  deriving DecidableEq, Repr

def RegistryCall.Allowed (r : Registry) (pins : Nat → Nat) : RegistryCall → Prop
  | .openFromShareAndRegister id | .releaseShare id => pins id ≠ 0
  | .close handle | .dropTable handle => r.info handle ≠ none
  | .create .. | .openTable _ | .deleteTable _ | .rename .. => True

instance (r : Registry) (pins : Nat → Nat) (call : RegistryCall) :
    Decidable (call.Allowed r pins) :=
  match call with
  | .openFromShareAndRegister id | .releaseShare id => inferInstanceAs (Decidable (pins id ≠ 0))
  | .close handle | .dropTable handle => inferInstanceAs (Decidable (r.info handle ≠ none))
  | .create .. | .openTable _ | .deleteTable _ | .rename .. => .isTrue trivial

def RegistryCall.run (r : Registry) (pins : Nat → Nat) : RegistryCall → Registry × (Nat → Nat)
  | .create name pinShare =>
      let (r', result) := fmCreate r name false pinShare
      (r', pinsAfterCreate pins pinShare result)
  | .openTable name => ((fmOpen r name).1, pins)
  | .openFromShareAndRegister id =>
      let (r', opened) := fmOpenFromShareAndRegister r id
      (r', if opened = none then pins else Function.update pins id (pins id - 1))
  | .close handle => (fmClose r handle, pins)
  | .releaseShare id => (fmReleaseShare r id false, Function.update pins id (pins id - 1))
  | .deleteTable name => ((fmDeleteTable r name).1, pins)
  | .dropTable handle => (fmDropTable r handle, pins)
  | .rename oldName newName => ((fmRename r oldName newName).1, pins)

theorem RegistryCall.run_balanced {r : Registry} {pins : Nat → Nat} (call : RegistryCall)
    (balanced : Balanced r pins) (allowed : call.Allowed r pins) :
    Balanced (call.run r pins).1 (call.run r pins).2 := by
  cases call with
  | create name pinShare => exact fmCreate_balanced balanced rfl
  | openTable name => exact fmOpen_balanced balanced rfl
  | openFromShareAndRegister id => exact fmOpenFromShareAndRegister_balanced balanced allowed rfl
  | close handle => exact fmClose_balanced balanced allowed
  | releaseShare id => exact fmReleaseShare_balanced balanced allowed
  | deleteTable name => exact fmDeleteTable_balanced balanced
  | dropTable handle => exact fmDropTable_balanced balanced allowed
  | rename oldName newName => exact fmRename_balanced balanced newName

/-- Any sequence of calls on an empty registry, the allocator doing as it likes. -/
inductive RegistryRun (outcome : Nat → Bool) : List RegistryCall → Registry → (Nat → Nat) → Prop
  | nil : RegistryRun outcome [] (.empty outcome) fun _ => 0
  | snoc {calls : List RegistryCall} {r : Registry} {pins : Nat → Nat} {call : RegistryCall}
      (before : RegistryRun outcome calls r pins) (allowed : call.Allowed r pins) :
      RegistryRun outcome (calls ++ [call]) (call.run r pins).1 (call.run r pins).2

theorem RegistryRun.balanced {outcome : Nat → Bool} {calls : List RegistryCall} {r : Registry}
    {pins : Nat → Nat} (run : RegistryRun outcome calls r pins) : Balanced r pins := by
  induction run with
  | nil => exact ⟨.empty outcome, .empty outcome⟩
  | snoc before allowed ih => exact RegistryCall.run_balanced _ ih allowed

theorem ncard_handles {r : Registry} {pins : Nat → Nat} (exact_ : RefsCounted r pins) {id : Nat}
    {share : FmShare} (found : r.share id = some share) :
    {handle | HandleOf r id handle}.ncard = share.openList.length := by
  obtain ⟨nodup, exactly⟩ := exact_.listed id share found
  have same : {handle | HandleOf r id handle} = ↑share.openList.toFinset := by
    ext handle
    simp [exactly]
  rw [same, Set.ncard_coe_finset, List.toFinset_card_of_nodup nodup]

/-- Reference counts are exact in every state of every run: the count of a registered share is
the number of its live handles and pins, its list holds its live handles once each, what was
freed has neither handles nor pins, nothing is freed twice, and the share of a live handle is
registered. -/
theorem registryRun_exact (outcome : Nat → Bool) (calls : List RegistryCall) (r : Registry)
    (pins : Nat → Nat) (run : RegistryRun outcome calls r pins) :
    (∀ id ∈ r.list, ∃ share, r.share id = some share ∧
      share.openCount = {handle | HandleOf r id handle}.ncard + pins id ∧
      share.openList.Nodup ∧ ∀ handle, handle ∈ share.openList ↔ HandleOf r id handle) ∧
    (∀ id ∈ r.freed, pins id = 0 ∧ ∀ handle, ¬ HandleOf r id handle) ∧
    r.freed.Nodup ∧
    ∀ handle info, r.info handle = some info → info.s ∈ r.list := by
  have exact_ := run.balanced.counts
  refine ⟨fun id member => ?_, fun id member => ?_, exact_.once, fun handle info live => ?_⟩
  · obtain ⟨share, found⟩ := (exact_.registered id).mp member
    refine ⟨share, found, ?_, exact_.listed id share found⟩
    rw [ncard_handles exact_ found]
    exact exact_.counted id share found
  · obtain ⟨gone, _⟩ := exact_.gone id member
    constructor
    · by_contra pin
      obtain ⟨share, found⟩ := exact_.pinned id pin
      rw [gone] at found
      cases found
    · intro handle live
      obtain ⟨share, found⟩ := exact_.alive id handle live
      rw [gone] at found
      cases found
  · rw [exact_.registered]
    exact exact_.alive info.s handle ⟨info, live, rfl⟩

/-- A table is created with a pin that becomes a handle, opened a second time, dropped and
closed twice. -/
def dropWhileOpen : List RegistryCall :=
  [.create "t" true, .openFromShareAndRegister 0, .openTable "t", .deleteTable "t", .close 0, .close 1]

theorem registryRun_exact_dropWhileOpen : ∃ r pins,
    RegistryRun (fun _ => true) dropWhileOpen r pins ∧ r.freed = [0] ∧ r.list = [] ∧
      r.freed.Nodup := by
  have created := @RegistryRun.snoc (fun _ => true) _ _ _ (.create "t" true) .nil trivial
  have registered := @RegistryRun.snoc _ _ _ _ (.openFromShareAndRegister 0) created (by decide)
  have opened := @RegistryRun.snoc _ _ _ _ (.openTable "t") registered trivial
  have deleted := @RegistryRun.snoc _ _ _ _ (.deleteTable "t") opened trivial
  have closed := @RegistryRun.snoc _ _ _ _ (.close 0) deleted (by decide)
  have run := @RegistryRun.snoc _ _ _ _ (.close 1) closed (by decide)
  exact ⟨_, _, run, by decide +kernel, by decide +kernel, (registryRun_exact _ _ _ _ run).2.2.1⟩

end Fastmem
