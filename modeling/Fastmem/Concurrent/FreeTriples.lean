/-
Allocation and release of slots under the struct mutex.

The holder of the mutex knows the freelist. It takes slots from it, adds its own
slot or slots nobody works on, and makes the chunk counter grow.
-/

import Fastmem.Concurrent.ChainTriples

set_option autoImplicit false

namespace Fastmem

open Prog (perform iterate forEach foldEach)

variable {n : Nat}

/-- The slot can go to the freelist: it is in no chain and not counted. -/
def Role.Droppable (linked : Prop) (role : Role n) (idx : Nat) : Prop :=
  role = .fresh idx ∨ role = .retired idx true ∨
    ∃ rec p, role = .chaining idx rec p ∧ (linked → ∀ k, p k = none)

def Act.Allocates {ρ : Type} : Act n ρ → Prop
  | .alloc | .dealloc | .storeSlotsPtr _ _ | .storeKeyNextPtr _ _ | .storeKeyNextAt _ _ _ => True
  | _ => False

namespace CoreTriple

variable {S : Setting n} {t : Nat} {kind : Bool} {promise : (coreProtocol S).Promise}
  {ghost : Ghost n} {idx : Nat} {v : MutexView} {ρ : Type}

theorem allocate (action : Act n ρ) (allocates : action.Allocates) :
    CoreTriple S t kind promise ghost (perform action) fun _ ghost' => ghost' = ghost := by
  have permitted : Permits S ghost action := by
    cases action <;> first | exact allocates.elim | trivial
  refine keep permitted fun s kinds g result s' inv mine promised ran => ⟨?_, rfl⟩
  cases action <;>
    first
      | exact allocates.elim
      | (cases ran; exact inv.heapFrame _ _)

theorem loadFreeHead (held : ghost.mutex = some v) :
    CoreTriple S t kind promise ghost (perform (.loadCell .freeHead))
      fun head ghost' => head = v.free.head? ∧ ghost' = ghost := by
  refine loadFact (n := n) (.loadCell .freeHead) trivial (fun head => head = v.free.head?)
    fun s kinds g result inv mine _ ran => ?_
  cases ran
  subst mine
  exact inv.viewHead held

theorem storeFreeNext (held : ghost.mutex = some v) (unready : ghost.ready = none)
    (pushable : CoreInv.Pushable ghost v idx) :
    CoreTriple S t kind promise ghost (perform (.storeCell (.freeNext idx) v.free.head?))
      fun _ ghost' => ghost' = ghost.viewing ghost.role { v with ready := some idx } := by
  refine act trivial fun s kinds g result s' inv truncates mine kindIs promised ran => ?_
  cases ran
  subst mine
  exact ⟨_, inv.storeFreeNext held pushable unready, keepKind truncates kindIs rfl rfl, rfl⟩

theorem freeSpare (held : ghost.mutex = some v) (unready : ghost.ready = none)
    (spare : v.spare idx) :
    CoreTriple S t kind promise ghost (fmCoreFreeSlot idx) fun _ ghost' =>
      ghost' = ghost.viewing ghost.role
        { v with free := idx :: v.free, spare := fun i => v.spare i ∧ i ≠ idx, ready := none } := by
  refine Protocol.Triple.bind (loadFreeHead held) ?_
  rintro head ghost ⟨rfl, rfl⟩
  refine Protocol.Triple.bind (storeFreeNext held unready (Or.inr spare)) ?_
  rintro _ _ rfl
  refine act trivial fun s kinds g result s' inv truncates mine kindIs promised ran => ?_
  cases ran
  have pushed := inv.pushSpare (t := t) (v := { v with ready := some idx })
    (by rw [mine]; rfl) spare rfl (by rw [mine]; exact unready)
  refine ⟨_, pushed, keepKind truncates kindIs mine (by rw [mine]; rfl), ?_⟩
  rw [mine]
  rfl

theorem freeOwn (held : ghost.mutex = some v) (unready : ghost.ready = none)
    (droppable : ghost.role.Droppable S.linked idx) :
    CoreTriple S t kind promise ghost (fmCoreFreeSlot idx) fun _ ghost' =>
      ghost' = ghost.viewing .idle { v with free := idx :: v.free, ready := none } := by
  have worksOn : ghost.role.slot = some idx := by
    rcases droppable with role | role | ⟨rec, p, role, _⟩ <;> rw [role] <;> rfl
  refine Protocol.Triple.bind (loadFreeHead held) ?_
  rintro head ghost ⟨rfl, rfl⟩
  refine Protocol.Triple.bind (storeFreeNext held unready (Or.inl worksOn)) ?_
  rintro _ _ rfl
  refine act trivial fun s kinds g result s' inv truncates mine kindIs promised ran => ?_
  cases ran
  have role : (g t).role = ghost.role := by rw [mine]; rfl
  have dead : (s.slot idx).state.unused := by
    rcases droppable with now | now | ⟨rec, p, now, _⟩
    · exact ((inv.ok t).fresh (role.trans now)).1
    · exact Or.inr ((inv.ok t).retired (role.trans now))
    · exact ((inv.ok t).chaining (role.trans now)).1
  have light : (g t).role.weight (s.slot idx) = 0 ∧ (g t).role.pending = 0 ∧
      ∀ i old new copied, (g t).role ≠ .writer i old new true copied := by
    rw [role]
    rcases droppable with now | now | ⟨rec, p, now, _⟩ <;> rw [now] <;>
      exact ⟨if_neg dead.not_active, rfl, fun _ _ _ _ clash => (by cases clash)⟩
  have loose : S.linked → ∀ k, (g t).role.chained S.D (s.slot idx) k = none := by
    intro linked k
    rw [role]
    rcases droppable with now | now | ⟨rec, p, now, none⟩
    · rw [now]; rfl
    · rw [now]; rfl
    · rw [now]; exact none linked k
  have pushed := inv.pushOwn (t := t) (v := { v with ready := some idx })
    (by rw [mine]; rfl) (by rw [role]; exact worksOn) rfl (by rw [mine]; exact unready) dead light
    loose
  refine ⟨_, pushed, ?_, ?_⟩
  · rintro ⟨c, e, clash⟩
    cases clash
  · rw [mine]
    rfl

/-! ### A new chunk -/

theorem growKeyNext_triple (held : ghost.mutex = some v) (unprepared : v.ready = none)
    (keys : Nat) : ∀ left, CoreTriple S t kind promise ghost (growKeyNext v.count keys left)
      fun _ ghost' => ghost' = ghost := by
  intro left
  induction left with
  | zero => exact Protocol.Triple.ret rfl
  | succ left ih =>
      refine Protocol.Triple.bind (allocate .alloc trivial) ?_
      rintro granted ghost rfl
      refine Protocol.Triple.bind (allocate (.storeKeyNextAt v.count _ granted) trivial) ?_
      rintro _ ghost rfl
      cases granted with
      | true =>
          have filled : CoreTriple S t kind promise ghost
              (perform (.initKeyNext v.count (keys - (left + 1))))
              fun _ ghost' => ghost' = ghost := by
            refine keep trivial fun s kinds g result s' inv mine promised ran => ⟨?_, rfl⟩
            cases ran
            subst mine
            rw [← inv.viewCount held]
            exact inv.initKeyNext held unprepared _
          refine Protocol.Triple.bind filled ?_
          rintro _ ghost rfl
          exact ih
      | false =>
          refine Protocol.Triple.bind (Protocol.Triple.forEach
            (fun _ (ghost' : Ghost n) => ghost' = ghost) ?_ rfl) ?_
          · rintro _ _ ghost rfl
            exact allocate .dealloc trivial
          rintro _ ghost rfl
          refine Protocol.Triple.bind (allocate .dealloc trivial) ?_
          rintro _ ghost rfl
          refine Protocol.Triple.bind (allocate (.storeKeyNextPtr v.count false) trivial) ?_
          rintro _ ghost rfl
          refine Protocol.Triple.bind (allocate .dealloc trivial) ?_
          rintro _ ghost rfl
          refine Protocol.Triple.bind (allocate (.storeSlotsPtr v.count false) trivial) ?_
          rintro _ ghost rfl
          exact Protocol.Triple.ret rfl

theorem growChunkKeys_triple (held : ghost.mutex = some v) (unprepared : v.ready = none) :
    CoreTriple S t kind promise ghost (growChunkKeys S.D v.count)
      fun _ ghost' => ghost' = ghost := by
  unfold growChunkKeys
  split
  · exact Protocol.Triple.ret rfl
  · refine Protocol.Triple.bind (allocate .alloc trivial) ?_
    rintro granted ghost rfl
    refine Protocol.Triple.bind (allocate (.storeKeyNextPtr v.count granted) trivial) ?_
    rintro _ ghost rfl
    cases granted with
    | true => exact growKeyNext_triple held unprepared S.D.keys S.D.keys
    | false =>
        refine Protocol.Triple.bind (allocate .dealloc trivial) ?_
        rintro _ ghost rfl
        refine Protocol.Triple.bind (allocate (.storeSlotsPtr v.count false) trivial) ?_
        rintro _ ghost rfl
        exact Protocol.Triple.ret rfl

theorem loadCount (held : ghost.mutex = some v) :
    CoreTriple S t kind promise ghost (perform .loadChunkCnt)
      fun cnt ghost' => cnt = v.count ∧ ghost' = ghost := by
  refine loadFact (n := n) .loadChunkCnt trivial (fun cnt => cnt = v.count)
    fun s kinds g result inv mine _ ran => ?_
  cases ran
  subst mine
  exact inv.viewCount held

theorem growChunk_triple (held : ghost.mutex = some v) (unprepared : v.ready = none)
    (idle : ghost.role = .idle) (unready : ghost.ready = none) :
    CoreTriple S t kind promise ghost (fmCoreGrowChunk S.D) fun failed ghost' =>
      ghost' = if failed.isSome = true then ghost
        else ghost.viewing (.fresh (v.count * fmChunkSize)) (CoreInv.grownView v) := by
  refine Protocol.Triple.bind (loadCount held) ?_
  rintro cnt ghost ⟨rfl, rfl⟩
  split
  · exact Protocol.Triple.ret (if_pos rfl).symm
  refine Protocol.Triple.bind (allocate .alloc trivial) ?_
  rintro granted ghost rfl
  refine Protocol.Triple.bind (allocate (.storeSlotsPtr v.count granted) trivial) ?_
  rintro _ ghost rfl
  cases granted with
  | false => exact Protocol.Triple.ret (if_pos rfl).symm
  | true =>
      have cleared : CoreTriple S t kind promise ghost (perform (.initSlots v.count))
          fun _ ghost' => ghost' = ghost := by
        refine keep ⟨v, held, rfl⟩ fun s kinds g result s' inv mine promised ran => ⟨?_, rfl⟩
        cases ran
        subst mine
        rw [← inv.viewCount held]
        exact inv.initSlots held unprepared
      refine Protocol.Triple.bind cleared ?_
      rintro _ ghost rfl
      refine Protocol.Triple.bind (growChunkKeys_triple held unprepared) ?_
      rintro complete ghost rfl
      cases complete with
      | false => exact Protocol.Triple.ret (if_pos rfl).symm
      | true =>
          have stored : CoreTriple S t kind promise ghost (perform (.storeChunkCnt (v.count + 1)))
              fun _ ghost' => ghost' =
                ghost.viewing (.fresh (v.count * fmChunkSize)) (CoreInv.grownView v) := by
            refine act trivial
              fun s kinds g result s' inv truncates mine kindIs promised ran => ?_
            cases ran
            subst mine
            refine ⟨_, inv.storeChunkCnt held idle unready unprepared, ?_, rfl⟩
            rintro ⟨c, e, clash⟩
            cases clash
          refine Protocol.Triple.bind stored ?_
          rintro _ ghost' rfl
          exact Protocol.Triple.ret (by simp)

theorem allocSlot_triple {free : List Nat} {count : Nat}
    (held : ghost.mutex = some (MutexView.start free count)) (idle : ghost.role = .idle)
    (unready : ghost.ready = none) :
    CoreTriple S t kind promise ghost (fmCoreAllocSlot S.D) fun slot ghost' =>
      match slot with
      | none => ghost' = ghost
      | some idx => ∃ v, ghost' = ghost.viewing (.fresh idx) v := by
  refine Protocol.Triple.bind (loadFreeHead held) ?_
  rintro head ghost ⟨rfl, rfl⟩
  cases items : free with
  | cons idx rest =>
      subst items
      have further : CoreTriple S t kind promise ghost (perform (.loadCell (.freeNext idx)))
          fun next ghost' => next = rest.head? ∧ ghost' = ghost := by
        refine loadFact (n := n) (.loadCell (.freeNext idx)) trivial (fun next => next = rest.head?)
          fun s kinds g result inv mine _ ran => ?_
        cases ran
        subst mine
        exact inv.viewNext held rfl
      refine Protocol.Triple.bind further ?_
      rintro next ghost ⟨rfl, rfl⟩
      have popped : CoreTriple S t kind promise ghost (perform (.storeCell .freeHead rest.head?))
          fun _ ghost' => ∃ v, ghost' = ghost.viewing (.fresh idx) v := by
        refine act trivial fun s kinds g result s' inv truncates mine kindIs promised ran => ?_
        cases ran
        subst mine
        refine ⟨_, inv.pop held rfl idle unready rfl, ?_, _, rfl⟩
        rintro ⟨c, e, clash⟩
        cases clash
      exact Protocol.Triple.bind popped fun _ _ done => Protocol.Triple.ret done
  | nil =>
      subst items
      refine Protocol.Triple.bind (loadCount held) ?_
      rintro count ghost ⟨rfl, rfl⟩
      dsimp only
      split
      · exact Protocol.Triple.ret rfl
      refine Protocol.Triple.bind (growChunk_triple held rfl idle unready) ?_
      rintro failed ghost' rfl
      cases failed with
      | some e =>
          simp only [Option.isSome_some, if_true]
          exact Protocol.Triple.ret rfl
      | none =>
          simp only [Option.isSome_none, Bool.false_eq_true, if_false]
          -- every slot of the new chunk behind the first is spare until it is pushed
          refine Protocol.Triple.bind (Protocol.Triple.forEach
            (fun (left : List Nat) (ghost' : Ghost n) => left.Nodup ∧ ∃ w : MutexView,
              ghost' = ghost.viewing (.fresh (count * fmChunkSize)) w ∧
                ∀ i ∈ left, w.spare i) ?_ ?_) ?_
          · rintro i rest _ ⟨distinct, w, rfl, spare⟩
            have pushed : CoreTriple S t kind promise
                (ghost.viewing (.fresh (count * fmChunkSize)) w) (fmCoreFreeSlot i) _ :=
              freeSpare rfl unready (spare i (List.mem_cons_self ..))
            refine pushed.mono ?_
            rintro _ _ rfl
            refine ⟨(List.nodup_cons.mp distinct).2, _, rfl, fun j member => ?_⟩
            refine ⟨spare j (List.mem_cons_of_mem i member), ?_⟩
            rintro rfl
            exact (List.nodup_cons.mp distinct).1 member
          · refine ⟨List.nodup_reverse.mpr (List.nodup_range' ..), _, rfl, fun i member => ?_⟩
            rw [List.mem_reverse, List.mem_range'_1] at member
            change count * fmChunkSize < i ∧ i < (count + 1) * fmChunkSize
            rw [Nat.add_mul, Nat.one_mul]
            change count * fmChunkSize + 1 ≤ i ∧ _ at member
            have upper : min (count * fmChunkSize + fmChunkSize) S.D.maxRecords ≤
                count * fmChunkSize + fmChunkSize := Nat.min_le_left _ _
            change _ ∧ i < count * fmChunkSize + 1 +
              (min (count * fmChunkSize + fmChunkSize) S.D.maxRecords -
                (count * fmChunkSize + 1)) at member
            omega
          · rintro _ _ ⟨_, w, rfl, _⟩
            exact Protocol.Triple.ret ⟨w, rfl⟩

end CoreTriple

end Fastmem
