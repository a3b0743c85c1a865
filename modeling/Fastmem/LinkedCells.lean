/-
Singly linked lists threaded through addressable cells.

A cell holds a node or nothing. Every node owns one link cell, and a list is
entered through a head cell. `Threaded cell link start items` says that the
cells, followed from `start`, visit exactly `items` and then end. Finite lists
threaded this way never repeat a node, whatever the cells hold.
-/

import Mathlib.Data.List.Nodup
import Mathlib.Logic.Function.Basic

set_option autoImplicit false

variable {C ι : Type}

def Threaded (cell : C → Option ι) (link : ι → C) : C → List ι → Prop
  | start, [] => cell start = none
  | start, node :: rest => cell start = some node ∧ Threaded cell link (link node) rest

/-- The cell that points past a prefix of a list entered at `start`. -/
def cellAfter (link : ι → C) : C → List ι → C
  | start, [] => start
  | _, node :: rest => cellAfter link (link node) rest

theorem cellAfter_mem (link : ι → C) (first : ι) (rest : List ι) :
    ∃ last ∈ first :: rest, cellAfter link (link first) rest = link last := by
  induction rest generalizing first with
  | nil => exact ⟨first, List.mem_cons_self .., rfl⟩
  | cons second rest ih =>
      obtain ⟨last, member, same⟩ := ih second
      exact ⟨last, List.mem_cons_of_mem first member, same⟩

theorem cellAfter_append (link : ι → C) (start : C) (before : List ι) (node : ι) :
    cellAfter link start (before ++ [node]) = link node := by
  induction before generalizing start with
  | nil => rfl
  | cons first rest ih => exact ih (link first)

namespace Threaded

variable {cell cell' : C → Option ι} {link : ι → C} {start : C} {items : List ι}

theorem unique {others : List ι} (first : Threaded cell link start items)
    (second : Threaded cell link start others) : items = others := by
  induction items generalizing start others with
  | nil =>
      cases others with
      | nil => rfl
      | cons node rest =>
          have clash := second.1
          rw [show cell start = none from first] at clash
          cases clash
  | cons node rest ih =>
      cases others with
      | nil =>
          have clash := first.1
          rw [show cell start = none from second] at clash
          cases clash
      | cons node' rest' =>
          obtain rfl : node = node' := Option.some.inj (first.1.symm.trans second.1)
          exact congrArg (node :: ·) (ih first.2 second.2)

theorem suffix {before after : List ι} (threaded : Threaded cell link start (before ++ after)) :
    Threaded cell link (cellAfter link start before) after := by
  induction before generalizing start with
  | nil => exact threaded
  | cons node rest ih => exact ih threaded.2

theorem head_eq (threaded : Threaded cell link start items) : cell start = items.head? := by
  cases items with
  | nil => exact threaded
  | cons node rest => exact threaded.1

theorem next_eq {before after : List ι} {node : ι}
    (threaded : Threaded cell link start (before ++ node :: after)) :
    cell (link node) = after.head? :=
  threaded.suffix.2.head_eq

/-- A node that came back would have two different lists behind it. -/
theorem nodup (threaded : Threaded cell link start items) : items.Nodup := by
  induction items generalizing start with
  | nil => exact List.nodup_nil
  | cons node rest ih =>
      rw [List.nodup_cons]
      refine ⟨fun again => ?_, ih threaded.2⟩
      obtain ⟨before, after, rfl⟩ := List.append_of_mem again
      have behind : Threaded cell link (link node) after := threaded.2.suffix.2
      have lengths := congrArg List.length (threaded.2.unique behind)
      simp only [List.length_append, List.length_cons] at lengths
      omega

/-- Only the head cell and the link cells of its nodes matter to a list. -/
theorem frame (threaded : Threaded cell link start items) (head : cell' start = cell start)
    (links : ∀ node ∈ items, cell' (link node) = cell (link node)) :
    Threaded cell' link start items := by
  induction items generalizing start with
  | nil => exact head.trans threaded
  | cons node rest ih =>
      refine ⟨head.trans threaded.1, ih threaded.2 (links node (List.mem_cons_self ..)) ?_⟩
      intro other member
      exact links other (List.mem_cons_of_mem node member)

theorem restart {other : C} (threaded : Threaded cell link start items)
    (same : cell other = cell start) : Threaded cell link other items := by
  cases items with
  | nil => exact same.trans threaded
  | cons node rest => exact ⟨same.trans threaded.1, threaded.2⟩

section Update

variable [DecidableEq C]

theorem store {at_ : C} {value : Option ι} (threaded : Threaded cell link start items)
    (head : at_ ≠ start) (links : ∀ node ∈ items, at_ ≠ link node) :
    Threaded (Function.update cell at_ value) link start items :=
  threaded.frame (Function.update_of_ne (Ne.symm head) ..)
    fun node member => Function.update_of_ne (Ne.symm (links node member)) ..

theorem push {node : ι} (threaded : Threaded cell link start items)
    (fresh : node ∉ items) (injective : Function.Injective link)
    (outside : ∀ other, start ≠ link other) :
    Threaded (Function.update (Function.update cell (link node) (cell start)) start (some node))
      link start (node :: items) := by
  refine ⟨Function.update_self .., ?_⟩
  have linked : Threaded (Function.update (Function.update cell (link node) (cell start)) start
      (some node)) link (link node) items := by
    cases items with
    | nil =>
        refine (Function.update_of_ne (Ne.symm (outside node)) ..).trans ?_
        rw [Function.update_self]
        exact threaded
    | cons first rest =>
        refine ⟨?_, threaded.2.frame ?_ ?_⟩
        · rw [Function.update_of_ne (Ne.symm (outside node)), Function.update_self]
          exact threaded.1
        · have different : link first ≠ link node := fun same =>
            fresh (injective same ▸ List.mem_cons_self ..)
          rw [Function.update_of_ne (Ne.symm (outside first)), Function.update_of_ne different]
        · intro other member
          have different : link other ≠ link node := fun same =>
            fresh (injective same ▸ List.mem_cons_of_mem first member)
          rw [Function.update_of_ne (Ne.symm (outside other)), Function.update_of_ne different]
  exact linked

/-- A store to the cell past a prefix exchanges what follows the prefix. -/
theorem splice {before after new : List ι} {value : Option ι}
    (threaded : Threaded cell link start (before ++ after))
    (injective : Function.Injective link) (outside : ∀ node ∈ before, start ≠ link node)
    (follows : Threaded (Function.update cell (cellAfter link start before) value) link
      (cellAfter link start before) new) :
    Threaded (Function.update cell (cellAfter link start before) value) link start
      (before ++ new) := by
  have distinct : before.Nodup := (List.nodup_append.mp threaded.nodup).1
  induction before generalizing start with
  | nil => exact follows
  | cons first rest ih =>
      obtain ⟨last, member, same⟩ := cellAfter_mem link first rest
      have notStored : start ≠ cellAfter link start (first :: rest) := fun clash =>
        outside last member (clash.trans same)
      refine ⟨(Function.update_of_ne notStored ..).trans threaded.1, ?_⟩
      refine ih threaded.2 ?_ follows (List.nodup_cons.mp distinct).2
      intro node inRest clash
      exact (List.nodup_cons.mp distinct).1 (injective clash ▸ inRest)

theorem unlink {before after : List ι} {node : ι}
    (threaded : Threaded cell link start (before ++ node :: after))
    (injective : Function.Injective link) (outside : ∀ other, start ≠ link other) :
    Threaded (Function.update cell (cellAfter link start before) (cell (link node)))
      link start (before ++ after) := by
  have behind : Threaded cell link (link node) after := threaded.suffix.2
  have distinct := List.nodup_append.mp threaded.nodup
  have notBehind : ∀ other ∈ node :: after, cellAfter link start before ≠ link other := by
    intro other member
    cases before with
    | nil => exact outside other
    | cons first rest =>
        obtain ⟨last, inBefore, same⟩ := cellAfter_mem link first rest
        intro clash
        exact distinct.2.2 last inBefore other member (injective (same.symm.trans clash))
  refine threaded.splice injective (fun other _ => outside other) ?_
  cases after with
  | nil => exact (Function.update_self ..).trans behind
  | cons first rest =>
      refine ⟨(Function.update_self ..).trans behind.1, behind.2.store ?_ ?_⟩
      · exact notBehind first (by simp)
      · exact fun other member => notBehind other (by simp [member])

/-- A cell that points to a node takes the link of the node: a list through the cell loses the
node, every other list stays. -/
theorem bypass {at_ : C} {node : ι} (threaded : Threaded cell link start items)
    (points : cell at_ = some node) (notOwn : at_ ≠ link node) :
    ∃ kept, Threaded (Function.update cell at_ (cell (link node))) link start kept ∧
      (∀ other ∈ kept, other ∈ items) ∧ ∀ other ∈ items, other ≠ node → other ∈ kept := by
  induction items generalizing start with
  | nil =>
      have elsewhere : start ≠ at_ := by
        rintro rfl
        rw [show cell start = none from threaded] at points
        cases points
      exact ⟨[], (Function.update_of_ne elsewhere ..).trans threaded,
        fun _ member => member, fun _ member _ => member⟩
  | cons first rest ih =>
      obtain ⟨kept, threaded', inside, all⟩ := ih threaded.2
      by_cases here : start = at_
      · subst here
        obtain rfl : first = node := Option.some.inj (threaded.1.symm.trans points)
        refine ⟨kept, threaded'.restart ?_, fun other member =>
          List.mem_cons_of_mem first (inside other member), ?_⟩
        · rw [Function.update_self, Function.update_of_ne (Ne.symm notOwn)]
        · intro other member different
          exact all other (List.mem_of_ne_of_mem different member) different
      · refine ⟨first :: kept, ⟨(Function.update_of_ne here ..).trans threaded.1, threaded'⟩, ?_, ?_⟩
        · intro other member
          rcases List.mem_cons.mp member with rfl | later
          · exact List.mem_cons_self ..
          · exact List.mem_cons_of_mem first (inside other later)
        · intro other member different
          rcases List.mem_cons.mp member with rfl | later
          · exact List.mem_cons_self ..
          · exact List.mem_cons_of_mem first (all other later different)

end Update

end Threaded
