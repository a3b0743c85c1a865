/-
Single stores to the cells of the hash chains.

Whoever stores to a chain cell holds the lock of the bucket and works on the
slot that is linked or unlinked. Linking takes two stores: the link cell of the
slot first, while the slot is in no chain of the key, then the head. A chain
that a truncation has emptied has no members, whatever the link cells say.
-/

import Fastmem.Concurrent.RowSteps

set_option autoImplicit false

namespace Fastmem

variable {n : Nat} {S : Setting n} {s : Core n} {g : Nat → Ghost n} {t idx k b : Nat}

/-! ### Roles that differ in the chains of their slot -/

structure Role.Same (role role' : Role n) : Prop where
  slot : role'.slot = role.slot
  deleter : ∀ i, (∃ img p, role' = .deleter i img p) ↔ ∃ img p, role = .deleter i img p
  writer : ∀ i, (∃ old new copied, role' = .writer i old new true copied) ↔
    ∃ old new copied, role = .writer i old new true copied
  retired : ∀ i counted, role' = .retired i counted ↔ role = .retired i counted
  published : role' = .published ↔ role = .published
  clearer : ∀ cleared emptied, role' = .clearer cleared emptied ↔ role = .clearer cleared emptied

theorem Role.Same.refl (role : Role n) : role.Same role :=
  ⟨rfl, fun _ => Iff.rfl, fun _ => Iff.rfl, fun _ _ => Iff.rfl, Iff.rfl, fun _ _ => Iff.rfl⟩

section Same

variable {roles roles' : Nat → Role n} {slot : Nat → Slot n} {count : Nat}

theorem Role.Same.update {role' : Role n} (sameRole : (roles t).Same role') (u : Nat) :
    (roles u).Same (Function.update roles t role' u) := by
  by_cases own : u = t
  · subst own
    rw [Function.update_self]
    exact sameRole
  · rw [Function.update_of_ne own]
    exact .refl _

theorem RoleInv.same (inv : RoleInv slot count roles) (same : ∀ u, (roles u).Same (roles' u)) :
    RoleInv slot count roles' where
  exclusive u v i atU atV := by
    rw [(same u).slot] at atU
    rw [(same v).slot] at atV
    exact inv.exclusive u v i atU atV
  below u i worksOn := by
    rw [(same u).slot] at worksOn
    exact inv.below u i worksOn
  deleting i now := by
    obtain ⟨u, role⟩ := inv.deleting i now
    exact ⟨u, ((same u).deleter i).mpr role⟩
  parity i := by
    rw [inv.parity i]
    exact exists_congr fun u => ((same u).writer i).symm
  active := inv.active
  unallocated := inv.unallocated
  clearing u cleared emptied now v i := by
    obtain ⟨notDeleter, notRetired⟩ :=
      inv.clearing u cleared emptied (((same u).clearer cleared emptied).mp now) v i
    constructor
    · intro img p role
      obtain ⟨img', p', before⟩ := ((same v).deleter i).mp ⟨img, p, role⟩
      exact notDeleter img' p' before
    · exact fun counted role => notRetired counted (((same v).retired i counted).mp role)

theorem Spare.same {i : Nat} (spare : Spare slot count roles i)
    (same : ∀ u, (roles u).Same (roles' u)) : Spare slot count roles' i :=
  ⟨spare.1, spare.2.1, fun u worksOn => spare.2.2 u (by rw [← (same u).slot]; exact worksOn)⟩

theorem CountInv.same {records : Int} (inv : CountInv slot records roles)
    (same : ∀ u, (roles u).Same (roles' u)) : CountInv slot records roles' := by
  intro uncleared
  have before := inv fun u cleared emptied now =>
    uncleared u cleared emptied (((same u).clearer cleared emptied).mpr now)
  have counted : {i | Counted slot roles' i} = {i | Counted slot roles i} := by
    ext i
    exact or_congr Iff.rfl (or_congr (exists_congr fun u => (same u).deleter i)
      (exists_congr fun u => (same u).retired i false))
  have pending : uncounted roles' = uncounted roles := by
    unfold uncounted
    rw [propext (exists_congr fun u => (same u).published)]
  rw [counted, pending]
  exact before

theorem Emptied.same {k b : Nat} (same : ∀ u, (roles u).Same (roles' u)) :
    Emptied roles' k b ↔ Emptied roles k b :=
  exists_congr fun u => exists_congr fun cleared => exists_congr fun emptied =>
    and_congr ((same u).clearer cleared emptied) Iff.rfl

end Same

structure Role.Movable (S : Setting n) (mk : (Nat → Option Nat) → Role n) (idx : Nat) :
    Prop where
  slot : ∀ p, (mk p).slot = some idx
  place : S.linked → ∀ p, (mk p).place S.D = some (idx, p)
  same : ∀ p p', (mk p).Same (mk p')
  chaining : ∀ p p' i rec q, mk p = .chaining i rec q → q = p ∧ mk p' = .chaining i rec p'

theorem Role.movable_chaining (S : Setting n) (idx : Nat) (rec : Rec n) :
    Role.Movable S (Role.chaining idx rec) idx where
  slot _ := rfl
  place _ _ := rfl
  same _ _ := ⟨rfl, by simp, by simp, by simp, by simp, by simp⟩
  chaining p p' i rec' q same := by
    cases same
    exact ⟨rfl, rfl⟩

theorem Role.movable_mover (S : Setting n) (idx : Nat) (old new : Rec n) :
    Role.Movable S (Role.mover idx old new) idx where
  slot _ := rfl
  place _ _ := rfl
  same _ _ := ⟨rfl, by simp, by simp, by simp, by simp, by simp⟩
  chaining p p' i rec' q same := by cases same

theorem Role.movable_deleter (S : Setting n) (idx : Nat) (img : Rec n) :
    Role.Movable S (Role.deleter idx img) idx where
  slot _ := rfl
  place _ _ := rfl
  same _ _ := ⟨rfl, by simp, by simp, by simp, by simp, by simp⟩
  chaining p p' i rec' q same := by cases same

theorem Role.movable_fresh {S : Setting n} (loose : ¬ S.linked) (idx : Nat) :
    Role.Movable S (fun _ => Role.fresh idx) idx where
  slot _ := rfl
  place linked := absurd linked loose
  same _ _ := .refl _
  chaining p p' i rec' q same := by cases same

/-! ### The general step -/

theorem CoreInv.rechain (inv : CoreInv S s g) {cell' : Cell → Option Nat} {ghost' : Ghost n}
    (sameFree : SameFree s.cell cell') (sameRole : (g t).role.Same ghost'.role)
    (sameHolds : ∀ l, ghost'.holds l ↔ (g t).holds l) (mutex : ghost'.mutex = (g t).mutex)
    (seen : ghost'.seen = (g t).seen) (ok : RoleOk S s.slot ghost')
    (chains : S.linked → ∃ chain place,
      ChainInv S.D s.slot cell' (Function.update (rolesOf g) t ghost'.role) chain place ∧
      ∀ u, KnownOk S.D cell' chain (Function.update g t ghost' u))
    (unique : S.distinct → UniqueInv S.D s.slot (Function.update (rolesOf g) t ghost'.role) ∧
      ∀ u, CheckedOk S.D s.slot (Function.update (rolesOf g) t ghost'.role)
        (Function.update g t ghost' u)) :
    CoreInv S { s with cell := cell' } (Function.update g t ghost') := by
  have same : ∀ u, (rolesOf g u).Same (Function.update (rolesOf g) t ghost'.role u) :=
    Role.Same.update sameRole
  constructor
  · refine inv.locks.keep (Nat.le_refl _) sameHolds ?_
    rw [seen]
    exact inv.locks.seen t
  · rw [rolesOf_update]
    exact inv.roles.same same
  · exact forall_update (P := fun _ ghost => RoleOk S s.slot ghost) ok fun u _ => inv.ok u
  · rw [rolesOf_update]
    obtain ⟨free, freeInv, views⟩ := inv.free
    refine ⟨free, ⟨freeInv.freelist.same sameFree,
      fun i member => (freeInv.unused i member).same same⟩, ?_⟩
    have view : ∀ u v, (g u).mutex = some v → ViewOk s.slot s.chunkCnt cell'
        (Function.update (rolesOf g) t ghost'.role) free v := by
      intro u v found
      obtain ⟨list, count, spares, ready⟩ := views u v found
      refine ⟨list, count, fun i held => ⟨(spares i held).1, (spares i held).2.same same⟩, ?_⟩
      intro i prepared
      rw [sameFree.1, sameFree.2 i]
      exact ready i prepared
    refine forall_update (P := fun _ ghost => ∀ v, ghost.mutex = some v → ViewOk s.slot
      s.chunkCnt cell' (Function.update (rolesOf g) t ghost'.role) free v) ?_ fun u _ => view u
    rw [mutex]
    exact view t
  · rw [rolesOf_update]
    exact chains
  · rw [rolesOf_update]
    exact inv.count.same same
  · rw [rolesOf_update]
    exact unique

/-! ### What the holder of a bucket lock reads -/

namespace CoreInv

theorem knownCell (inv : CoreInv S s g) (linked : S.linked) {before after : List Nat}
    (known : (g t).known k b = some (before ++ after)) :
    s.cell (cellAfter (Cell.next k) (.head k b) before) = after.head? := by
  obtain ⟨chain, place, chainInv, knowns⟩ := inv.chains linked
  have threaded := chainInv.chains.threaded k b
  rw [(knowns t).known k b _ known] at threaded
  exact threaded.suffix.head_eq

theorem knownHead (inv : CoreInv S s g) (linked : S.linked) {items : List Nat}
    (known : (g t).known k b = some items) : s.cell (.head k b) = items.head? := by
  have split : (g t).known k b = some ([] ++ items) := known
  exact inv.knownCell linked split

theorem knownNext (inv : CoreInv S s g) (linked : S.linked) {before after : List Nat}
    (known : (g t).known k b = some (before ++ idx :: after)) :
    s.cell (.next k idx) = after.head? := by
  have split : (g t).known k b = some ((before ++ [idx]) ++ after) := by
    rw [List.append_assoc]
    exact known
  have cell := inv.knownCell linked split
  rwa [cellAfter_append] at cell

/-! ### Stores where nobody relies on the chains -/

theorem looseCell (inv : CoreInv S s g) (loose : ¬ S.linked) {c : Cell}
    (chainCell : c ≠ .freeHead ∧ ∀ i, c ≠ .freeNext i) (value : Option Nat) :
    CoreInv S (s.setCell c value) (Function.update g t (g t)) := by
  refine inv.rechain ?_ (.refl _) (fun _ => Iff.rfl) rfl rfl (inv.ok t)
    (fun linked => absurd linked loose)
    (fun distinct => absurd (S.distinct_linked distinct) loose)
  exact ⟨Function.update_of_ne (Ne.symm chainCell.1) ..,
    fun i => Function.update_of_ne (Ne.symm (chainCell.2 i)) ..⟩

end CoreInv

/-! ### Ghost values after a store -/

namespace Ghost

def prepare (ghost : Ghost n) (k b : Nat) : Ghost n := { ghost with ready := some (k, b) }

def rechained (ghost : Ghost n) (role : Role n) (k b : Nat) (items : List Nat) : Ghost n :=
  { ghost.takeBucket k b items with role := role, ready := none }

theorem rechained_holds {ghost : Ghost n} (role : Role n) (items : List Nat)
    (held : ghost.holds (.bucket k b)) (l : Lock) :
    (ghost.rechained role k b items).holds l ↔ ghost.holds l := by
  have taken := ghost.takeBucket_holds l k b items
  have same : (ghost.rechained role k b items).holds l ↔
      (ghost.takeBucket k b items).holds l := by
    cases l <;> exact Iff.rfl
  rw [same, taken]
  constructor
  · rintro (before | rfl)
    · exact before
    · exact held
  · exact Or.inl

end Ghost

/-! ### Linking -/

namespace CoreInv

variable {mk : (Nat → Option Nat) → Role n} {p : Nat → Option Nat}

theorem placeOwn {chain : ChainLists} {place : Places} {cell : Cell → Option Nat}
    (chainInv : ChainInv S.D s.slot cell (rolesOf g) chain place)
    (movable : Role.Movable S mk idx) (linked : S.linked) (role : (g t).role = mk p) (k : Nat) :
    place k idx = p k := by
  refine chainInv.owned t idx p ?_ k
  change (g t).role.place S.D = _
  rw [role]
  exact movable.place linked p

theorem storeNext (inv : CoreInv S s g) (movable : Role.Movable S mk idx)
    (role : (g t).role = mk p) (loose : S.linked → p k = none)
    (held : (g t).holds (.bucket k b)) {value : Option Nat}
    (head : S.linked → value = s.cell (.head k b)) :
    CoreInv S (s.setCell (.next k idx) value) (Function.update g t ((g t).prepare k b)) := by
  have holds : ∀ l, ((g t).prepare k b).holds l ↔ (g t).holds l := by
    intro l
    cases l <;> exact Iff.rfl
  have sameRoles : Function.update (rolesOf g) t ((g t).prepare k b).role = rolesOf g :=
    Function.update_eq_self t (rolesOf g)
  refine inv.rechain ?_ (.refl _) holds rfl rfl ((inv.ok t).mono rfl fun l => (holds l).mpr)
    ?_ ?_
  · exact ⟨Function.update_of_ne (by intro clash; cases clash) ..,
      fun i => Function.update_of_ne (by intro clash; cases clash) ..⟩
  · intro linked
    rw [sameRoles]
    obtain ⟨chain, place, chainInv, knowns⟩ := inv.chains linked
    have own := placeOwn chainInv movable linked role k
    have outside : ∀ b', idx ∉ chain k b' := by
      intro b' member
      rw [chainInv.members, own, loose linked] at member
      cases member.1
    refine ⟨chain, place, ⟨chainInv.chains.storeLoose outside value, chainInv.members,
      chainInv.owned, chainInv.others⟩, ?_⟩
    refine forall_update (P := fun _ ghost => KnownOk S.D
      (Function.update s.cell (.next k idx) value) chain ghost) ?_ fun u other => ?_
    · refine ⟨(knowns t).known, fun k' b' ready => ?_⟩
      obtain ⟨rfl, rfl⟩ : k = k' ∧ b = b' := by
        have same := Option.some.inj ready
        exact ⟨congrArg Prod.fst same, congrArg Prod.snd same⟩
      refine ⟨held, idx, p, ?_, loose linked, ?_⟩
      · change (g t).role.place S.D = _
        rw [role]
        exact movable.place linked p
      · rw [Function.update_self, Function.update_of_ne (by intro clash; cases clash)]
        exact head linked
    · refine ⟨(knowns u).known, fun k' b' ready => ?_⟩
      obtain ⟨mine, i, q, placed, none, same⟩ := (knowns u).ready k' b' ready
      refine ⟨mine, i, q, placed, none, ?_⟩
      have different : i ≠ idx := by
        rintro rfl
        refine other (inv.roles.exclusive u t i (Role.place_slot placed) ?_)
        change (g t).role.slot = _
        rw [role]
        exact movable.slot p
      rw [Function.update_of_ne (by intro clash; cases clash; exact different rfl),
        Function.update_of_ne (by intro clash; cases clash)]
      exact same
  · intro distinct
    rw [sameRoles]
    obtain ⟨unique, checks⟩ := inv.unique distinct
    refine ⟨unique, forall_update (P := fun _ ghost => CheckedOk S.D s.slot (rolesOf g) ghost)
      ⟨(checks t).clean, (checks t).passed⟩ fun u _ => checks u⟩

end CoreInv

theorem ChainInv.move {D : ShareDef n} {slot : Nat → Slot n} {cell cell' : Cell → Option Nat}
    {roles : Nat → Role n} {role' : Role n} {chain chain' : ChainLists} {place : Places}
    {p : Nat → Option Nat} {bucket : Option Nat} (inv : ChainInv D slot cell roles chain place)
    (exclusive : ∀ u i, (roles u).slot = some i → (roles t).slot = some i → u = t)
    (before : (roles t).place D = some (idx, p))
    (after : role'.place D = some (idx, Function.update p k bucket))
    (chains : Chains cell' chain')
    (members : ∀ k' b i, i ∈ chain' k' b ↔ setPlace place k idx bucket k' i = some b ∧
      ¬ Emptied (Function.update roles t role') k' b) :
    ChainInv D slot cell' (Function.update roles t role') chain' (setPlace place k idx bucket) where
  chains := chains
  members := members
  owned u i q placed k' := by
    by_cases own : u = t
    · rw [own, Function.update_self, after] at placed
      cases placed
      unfold setPlace
      by_cases same : k' = k
      · rw [if_pos ⟨same, rfl⟩, same, Function.update_self]
      · rw [if_neg fun both => same both.1, Function.update_of_ne same]
        exact inv.owned t idx p before k'
    · rw [Function.update_of_ne own] at placed
      have different : i ≠ idx := by
        rintro rfl
        exact own (exclusive u i (Role.place_slot placed) (Role.place_slot before))
      unfold setPlace
      rw [if_neg fun both => different both.2]
      exact inv.owned u i q placed k'
  others i nobody k' := by
    have different : i ≠ idx := by
      rintro rfl
      refine nobody t (Function.update p k bucket) ?_
      rw [Function.update_self]
      exact after
    unfold setPlace
    rw [if_neg fun both => different both.2]
    refine inv.others i (fun u q placed => ?_) k'
    by_cases own : u = t
    · rw [own, before] at placed
      cases placed
      exact different rfl
    · exact nobody u q (by rw [Function.update_of_ne own]; exact placed)

namespace CoreInv

variable {mk : (Nat → Option Nat) → Role n} {p : Nat → Option Nat}

/-- What other threads know survives a change to one locked chain. -/
theorem knownOther (inv : CoreInv S s g) {cell' : Cell → Option Nat} {chain chain' : ChainLists}
    {place : Places} (chainInv : ChainInv S.D s.slot s.cell (rolesOf g) chain place)
    (held : (g t).holds (.bucket k b))
    (same : ∀ k' b', ¬ (k' = k ∧ b' = b) → chain' k' b' = chain k' b' ∧
      cell' (.head k' b') = s.cell (.head k' b'))
    (links : ∀ k' i, place k' i = none → cell' (.next k' i) = s.cell (.next k' i))
    {u : Nat} (other : u ≠ t) (known : KnownOk S.D s.cell chain (g u)) :
    KnownOk S.D cell' chain' (g u) := by
  have elsewhere : ∀ k' b', (g u).holds (.bucket k' b') → ¬ (k' = k ∧ b' = b) := by
    rintro k' b' theirs ⟨rfl, rfl⟩
    exact other (inv.locks.sole held theirs)
  constructor
  · intro k' b' items found
    have theirs : (g u).holds (.bucket k' b') := by
      change ((g u).known k' b').isSome = true
      rw [found]
      rfl
    rw [(same k' b' (elsewhere k' b' theirs)).1]
    exact known.known k' b' items found
  · intro k' b' ready
    obtain ⟨theirs, i, q, placed, none, equal⟩ := known.ready k' b' ready
    refine ⟨theirs, i, q, placed, none, ?_⟩
    rw [links k' i (by rw [chainInv.owned u i q placed, none]),
      (same k' b' (elsewhere k' b' theirs)).2]
    exact equal

theorem occupies_rechain (movable : Role.Movable S mk idx)
    (role : (g t).role = mk p) {p' : Nat → Option Nat} {i k' : Nat} {a : Rec n}
    (occupied : Occupies s.slot (Function.update (rolesOf g) t (mk p')) i k' a) :
    Occupies s.slot (rolesOf g) i k' a ∨
      (i = idx ∧ mk p = .chaining idx a p ∧ p' k' ≠ none ∧ p k' = none) := by
  rcases occupied with live | ⟨u, q, now, chained⟩
  · exact Or.inl (Or.inl live)
  · by_cases own : u = t
    · rw [own, Function.update_self] at now
      obtain ⟨rfl, before⟩ := movable.chaining p' p i a q now
      have here : i = idx := by
        have same := movable.slot p
        rw [before] at same
        exact Option.some.inj same
      subst here
      by_cases was : p k' = none
      · exact Or.inr ⟨rfl, before, chained, was⟩
      · refine Or.inl (Or.inr ⟨t, p, ?_, was⟩)
        change (g t).role = _
        rw [role, before]
    · rw [Function.update_of_ne own] at now
      exact Or.inl (Or.inr ⟨u, q, now, chained⟩)

/-- The second store of a link. The bucket must not be one that a running truncation has
emptied. -/
theorem storeHead (inv : CoreInv S s g) (movable : Role.Movable S mk idx)
    (role : (g t).role = mk p) {items : List Nat} (known : (g t).known k b = some items)
    (ready : (g t).ready = some (k, b)) (unemptied : S.linked → ¬ Emptied (rolesOf g) k b)
    (ok : RoleOk S s.slot ((g t).become (mk (Function.update p k (some b)))))
    (clean : S.distinct → ∀ rec, mk p = .chaining idx rec p → (g t).Checked S.D k rec idx)
    (own : S.distinct → ∀ k' a self, (g t).clean k' = some (a, self) → self = idx)
    (ownPassed : S.distinct → ∀ k' a self items, (g t).passed = some (k', a, self, items) →
      self = idx) :
    CoreInv S (s.setCell (.head k b) (some idx)) (Function.update g t
      ((g t).rechained (mk (Function.update p k (some b))) k b (idx :: items))) := by
  have held : (g t).holds (.bucket k b) := by
    change ((g t).known k b).isSome = true
    rw [known]
    rfl
  have holds := fun l => Ghost.rechained_holds (mk (Function.update p k (some b)))
    (idx :: items) held l
  have sameRole : (g t).role.Same (mk (Function.update p k (some b))) := by
    rw [role]
    exact movable.same p _
  refine inv.rechain ?_ sameRole holds rfl rfl
    (ok.mono rfl fun l mine => (holds l).mpr ((Ghost.become_holds _ _ l).mp mine)) ?_ ?_
  · exact ⟨Function.update_of_ne (by intro clash; cases clash) ..,
      fun i => Function.update_of_ne (by intro clash; cases clash) ..⟩
  · intro linked
    obtain ⟨chain, place, chainInv, knowns⟩ := inv.chains linked
    have placed : (rolesOf g t).place S.D = some (idx, p) := by
      change (g t).role.place S.D = _
      rw [role]
      exact movable.place linked p
    obtain ⟨_, i, q, placed', loose, same⟩ := (knowns t).ready k b ready
    obtain ⟨rfl, rfl⟩ : i = idx ∧ q = p := by
      have equal := placed'.symm.trans placed
      cases equal
      exact ⟨rfl, rfl⟩
    have placeNone : place k i = none := (chainInv.owned t i q placed k).trans loose
    have outside : ∀ b', i ∉ chain k b' := by
      intro b' member
      rw [chainInv.members, placeNone] at member
      cases member.1
    have items' : chain k b = items := (knowns t).known k b items known
    have emptied : ∀ k' b', Emptied (Function.update (rolesOf g) t
        (mk (Function.update q k (some b)))) k' b' ↔ Emptied (rolesOf g) k' b' := fun k' b' =>
      Emptied.same (Role.Same.update sameRole)
    refine ⟨setChain chain k b (i :: chain k b), setPlace place k i (some b),
      chainInv.move (fun u j atU atT => inv.roles.exclusive u t j atU atT) placed
        (movable.place linked _) (chainInv.chains.storeHead outside same) ?_, ?_⟩
    · intro k' b' j
      change _ ↔ _ ∧ ¬ Emptied (Function.update (rolesOf g) t
        (mk (Function.update q k (some b)))) k' b'
      rw [mem_setChain, emptied, List.mem_cons, chainInv.members, chainInv.members]
      unfold setPlace
      have notEmptied := unemptied linked
      by_cases here : k' = k ∧ j = i
      · obtain ⟨rfl, rfl⟩ := here
        rw [if_pos ⟨rfl, rfl⟩, placeNone]
        by_cases bucket : b' = b
        · subst bucket
          simp [notEmptied]
        · simp [bucket, Ne.symm bucket]
      · rw [if_neg here]
        by_cases bucket : k' = k ∧ b' = b
        · obtain ⟨rfl, rfl⟩ := bucket
          have different : j ≠ i := fun same => here ⟨rfl, same⟩
          simp [different]
        · constructor
          · rintro (⟨sameKey, sameBucket, _⟩ | ⟨_, rest⟩)
            · exact absurd ⟨sameKey, sameBucket⟩ bucket
            · exact rest
          · exact fun rest => Or.inr ⟨bucket, rest⟩
    · refine forall_update (P := fun _ ghost => KnownOk S.D
        (Function.update s.cell (.head k b) (some i)) (setChain chain k b (i :: chain k b)) ghost)
        ⟨?_, ?_⟩ fun u other => ?_
      · intro k' b' found known'
        simp only [Ghost.rechained, Ghost.takeBucket] at known'
        unfold setChain
        split at known'
        · rename_i here
          rw [if_pos here, items']
          exact Option.some.inj known'
        · rename_i elsewhere
          rw [if_neg elsewhere]
          exact (knowns t).known k' b' found known'
      · intro k' b' impossible
        cases impossible
      · refine inv.knownOther chainInv held ?_ ?_ other (knowns u)
        · intro k' b' elsewhere
          refine ⟨?_, Function.update_of_ne ?_ ..⟩
          · unfold setChain
            rw [if_neg elsewhere]
          · intro clash
            cases clash
            exact elsewhere ⟨rfl, rfl⟩
        · intro k' j _
          exact Function.update_of_ne (by intro clash; cases clash) ..
  · intro distinct
    obtain ⟨unique, checks⟩ := inv.unique distinct
    have gained : UniqueInv S.D s.slot (Function.update (rolesOf g) t
        (mk (Function.update p k (some b)))) ∧ ∀ u, CheckedOk S.D s.slot
        (Function.update (rolesOf g) t (mk (Function.update p k (some b)))) (g u) := by
      by_cases chaining : ∃ rec, mk p = .chaining idx rec p
      · obtain ⟨rec, chaining⟩ := chaining
        refine inv.uniqueGain distinct rec (own distinct) (ownPassed distinct) ?_ ?_
        · intro i k' a valid occupied
          rcases occupies_rechain movable role occupied with before | ⟨here, same, gain, was⟩
          · exact Or.inl before
          · rw [chaining] at same
            cases same
            have key : k' = k := by
              by_contra different
              rw [Function.update_of_ne different] at gain
              exact gain was
            subst key
            exact Or.inr ⟨here, rfl, Or.inr (clean distinct _ chaining)⟩
        · exact fun u c e now => unique.uncleared u c e
            (((Role.Same.update sameRole u).clearer c e).mp now)
      · have all : ∀ i k' a, k' < S.D.keys → Occupies s.slot (Function.update (rolesOf g) t
            (mk (Function.update p k (some b)))) i k' a → Occupies s.slot (rolesOf g) i k' a := by
          intro i k' a _ occupied
          rcases occupies_rechain movable role occupied with before | ⟨_, same, _, _⟩
          · exact before
          · exact absurd ⟨a, same⟩ chaining
        exact ⟨unique.shrink all fun u c e now => unique.uncleared u c e
          (((Role.Same.update sameRole u).clearer c e).mp now), fun u => (checks u).shrink all⟩
    refine ⟨gained.1, forall_update (P := fun _ ghost => CheckedOk S.D s.slot
      (Function.update (rolesOf g) t (mk (Function.update p k (some b)))) ghost) ⟨?_, ?_⟩
      fun u _ => gained.2 u⟩
    · intro k' rec self found
      obtain ⟨mine, rest⟩ := (gained.2 t).clean k' rec self found
      exact ⟨(holds _).mpr mine, rest⟩
    · intro k' rec self passed found
      obtain ⟨mine, rest⟩ := (gained.2 t).passed k' rec self passed found
      exact ⟨(holds _).mpr mine, rest⟩

/-! ### Unlinking -/

theorem uniqueUnlink (inv : CoreInv S s g) (movable : Role.Movable S mk idx)
    (role : (g t).role = mk p) {items : List Nat} (held : (g t).holds (.bucket k b))
    (distinct : S.distinct) :
    UniqueInv S.D s.slot (Function.update (rolesOf g) t (mk (Function.update p k none))) ∧
      ∀ u, CheckedOk S.D s.slot
        (Function.update (rolesOf g) t (mk (Function.update p k none)))
        (Function.update g t
          ((g t).rechained (mk (Function.update p k none)) k b items) u) := by
  obtain ⟨unique, checks⟩ := inv.unique distinct
  have sameRole : (g t).role.Same (mk (Function.update p k none)) := by
    rw [role]
    exact movable.same p _
  have holds := fun l => Ghost.rechained_holds (mk (Function.update p k none)) items held l
  have all : ∀ i k' a, k' < S.D.keys → Occupies s.slot (Function.update (rolesOf g) t
      (mk (Function.update p k none))) i k' a → Occupies s.slot (rolesOf g) i k' a := by
    intro i k' a _ occupied
    rcases occupies_rechain movable role occupied with before | ⟨_, _, now, was⟩
    · exact before
    · by_cases same : k' = k
      · rw [same, Function.update_self] at now
        exact absurd rfl now
      · rw [Function.update_of_ne same] at now
        exact absurd was now
  refine ⟨unique.shrink all fun u c e now => unique.uncleared u c e
    (((Role.Same.update sameRole u).clearer c e).mp now), ?_⟩
  refine forall_update (P := fun _ ghost => CheckedOk S.D s.slot
    (Function.update (rolesOf g) t (mk (Function.update p k none))) ghost) ⟨?_, ?_⟩
    fun u _ => (checks u).shrink all
  · intro k' rec self found
    obtain ⟨mine, rest⟩ := ((checks t).shrink all).clean k' rec self found
    exact ⟨(holds _).mpr mine, rest⟩
  · intro k' rec self passed found
    obtain ⟨mine, rest⟩ := ((checks t).shrink all).passed k' rec self passed found
    exact ⟨(holds _).mpr mine, rest⟩

theorem storeUnlink (inv : CoreInv S s g) (movable : Role.Movable S mk idx)
    (role : (g t).role = mk p) {before after : List Nat}
    (known : (g t).known k b = some (before ++ idx :: after)) {value : Option Nat}
    (next : S.linked → value = s.cell (.next k idx))
    (ok : RoleOk S s.slot ((g t).become (mk (Function.update p k none)))) :
    CoreInv S (s.setCell (cellAfter (Cell.next k) (.head k b) before) value)
      (Function.update g t
        ((g t).rechained (mk (Function.update p k none)) k b (before ++ after))) := by
  have held : (g t).holds (.bucket k b) := by
    change ((g t).known k b).isSome = true
    rw [known]
    rfl
  have holds := fun l => Ghost.rechained_holds (mk (Function.update p k none))
    (before ++ after) held l
  have sameRole : (g t).role.Same (mk (Function.update p k none)) := by
    rw [role]
    exact movable.same p _
  have stored : cellAfter (Cell.next k) (.head k b) before = .head k b ∨
      ∃ last ∈ before, cellAfter (Cell.next k) (.head k b) before = .next k last := by
    cases before with
    | nil => exact Or.inl rfl
    | cons first rest => exact Or.inr (cellAfter_mem (Cell.next k) first rest)
  refine inv.rechain ?_ sameRole holds rfl rfl
    (ok.mono rfl fun l mine => (holds l).mpr ((Ghost.become_holds _ _ l).mp mine)) ?_
    (inv.uniqueUnlink movable role held)
  · constructor
    · refine Function.update_of_ne ?_ ..
      rcases stored with same | ⟨last, _, same⟩ <;> rw [same] <;> intro clash <;> cases clash
    · intro i
      refine Function.update_of_ne ?_ ..
      rcases stored with same | ⟨last, _, same⟩ <;> rw [same] <;> intro clash <;> cases clash
  · intro linked
    obtain ⟨chain, place, chainInv, knowns⟩ := inv.chains linked
    have placed : (rolesOf g t).place S.D = some (idx, p) := by
      change (g t).role.place S.D = _
      rw [role]
      exact movable.place linked p
    have split : chain k b = before ++ idx :: after := (knowns t).known k b _ known
    have memberIff : ∀ j, j ∈ before ++ idx :: after ↔
        place k j = some b ∧ ¬ Emptied (rolesOf g) k b := by
      intro j
      rw [← split]
      exact chainInv.members k b j
    obtain ⟨placeHere, unemptied⟩ := (memberIff idx).mp (by simp)
    have distinct : (before ++ idx :: after).Nodup := by
      rw [← split]
      exact chainInv.chains.nodup k b
    have absent : idx ∉ before ++ after := by
      rw [List.nodup_append, List.nodup_cons] at distinct
      rw [List.mem_append]
      rintro (earlier | later)
      · exact distinct.2.2 idx earlier idx (List.mem_cons_self ..) rfl
      · exact distinct.2.1.1 later
    have emptied : ∀ k' b', Emptied (Function.update (rolesOf g) t
        (mk (Function.update p k none))) k' b' ↔ Emptied (rolesOf g) k' b' := fun k' b' =>
      Emptied.same (Role.Same.update sameRole)
    refine ⟨setChain chain k b (before ++ after), setPlace place k idx none,
      chainInv.move (fun u j atU atT => inv.roles.exclusive u t j atU atT) placed
        (movable.place linked _) ?_ ?_, ?_⟩
    · rw [next linked]
      exact chainInv.chains.storeUnlink split
    · intro k' b' j
      change _ ↔ _ ∧ ¬ Emptied (Function.update (rolesOf g) t
        (mk (Function.update p k none))) k' b'
      rw [mem_setChain, emptied, chainInv.members]
      unfold setPlace
      by_cases here : k' = k ∧ j = idx
      · obtain ⟨rfl, rfl⟩ := here
        rw [if_pos ⟨rfl, rfl⟩, placeHere]
        constructor
        · rintro (⟨_, _, member⟩ | ⟨other, same, _⟩)
          · exact absurd member absent
          · exact absurd ⟨rfl, (Option.some.inj same).symm⟩ other
        · rintro ⟨impossible, _⟩
          cases impossible
      · rw [if_neg here]
        by_cases bucket : k' = k ∧ b' = b
        · obtain ⟨rfl, rfl⟩ := bucket
          have different : j ≠ idx := fun same => here ⟨rfl, same⟩
          rw [← memberIff j]
          simp [different]
        · constructor
          · rintro (⟨sameKey, sameBucket, _⟩ | ⟨_, rest⟩)
            · exact absurd ⟨sameKey, sameBucket⟩ bucket
            · exact rest
          · exact fun rest => Or.inr ⟨bucket, rest⟩
    · refine forall_update (P := fun _ ghost => KnownOk S.D (Function.update s.cell
        (cellAfter (Cell.next k) (.head k b) before) value)
        (setChain chain k b (before ++ after)) ghost) ⟨?_, ?_⟩ fun u other => ?_
      · intro k' b' found known'
        simp only [Ghost.rechained, Ghost.takeBucket] at known'
        unfold setChain
        split at known'
        · rename_i here
          rw [if_pos here]
          exact Option.some.inj known'
        · rename_i elsewhere
          rw [if_neg elsewhere]
          exact (knowns t).known k' b' found known'
      · intro k' b' impossible
        cases impossible
      · refine inv.knownOther chainInv held ?_ ?_ other (knowns u)
        · intro k' b' elsewhere
          refine ⟨?_, Function.update_of_ne ?_ ..⟩
          · unfold setChain
            rw [if_neg elsewhere]
          · intro clash
            rcases stored with same | ⟨last, _, same⟩ <;> rw [same] at clash <;> cases clash
            exact elsewhere ⟨rfl, rfl⟩
        · intro k' j loose
          refine Function.update_of_ne ?_ ..
          intro clash
          rcases stored with same | ⟨last, inBefore, same⟩ <;> rw [same] at clash <;> cases clash
          have member := (memberIff j).mp (List.mem_append_left _ inBefore)
          rw [loose] at member
          cases member.1

theorem unlinkAbsent (inv : CoreInv S s g) (movable : Role.Movable S mk idx)
    (role : (g t).role = mk p) {items : List Nat} (known : (g t).known k b = some items)
    (absent : S.linked → idx ∉ items) (only : S.linked → p k = none ∨ p k = some b)
    (ok : RoleOk S s.slot ((g t).become (mk (Function.update p k none)))) :
    CoreInv S s (Function.update g t
      ((g t).rechained (mk (Function.update p k none)) k b items)) := by
  have held : (g t).holds (.bucket k b) := by
    change ((g t).known k b).isSome = true
    rw [known]
    rfl
  have holds := fun l => Ghost.rechained_holds (mk (Function.update p k none)) items held l
  have sameRole : (g t).role.Same (mk (Function.update p k none)) := by
    rw [role]
    exact movable.same p _
  refine inv.rechain (SameFree.refl _) sameRole holds rfl rfl
    (ok.mono rfl fun l mine => (holds l).mpr ((Ghost.become_holds _ _ l).mp mine)) ?_
    (inv.uniqueUnlink movable role held)
  intro linked
  obtain ⟨chain, place, chainInv, knowns⟩ := inv.chains linked
  have placed : (rolesOf g t).place S.D = some (idx, p) := by
    change (g t).role.place S.D = _
    rw [role]
    exact movable.place linked p
  have items' : chain k b = items := (knowns t).known k b items known
  refine ⟨chain, setPlace place k idx none,
    chainInv.move (fun u j atU atT => inv.roles.exclusive u t j atU atT) placed
      (movable.place linked _) chainInv.chains ?_, ?_⟩
  · intro k' b' j
    change _ ↔ _ ∧ ¬ Emptied (Function.update (rolesOf g) t
      (mk (Function.update p k none))) k' b'
    rw [Emptied.same (Role.Same.update sameRole), chainInv.members]
    unfold setPlace
    by_cases here : k' = k ∧ j = idx
    · obtain ⟨rfl, rfl⟩ := here
      rw [if_pos ⟨rfl, rfl⟩]
      refine iff_of_false ?_ (fun impossible => by cases impossible.1)
      rw [← chainInv.members]
      intro member
      have bucket : p k' = some b' := by
        rw [← chainInv.owned t j p placed]
        exact ((chainInv.members k' b' j).mp member).1
      rcases only linked with none | here
      · rw [none] at bucket
        cases bucket
      · rw [here] at bucket
        cases bucket
        rw [items'] at member
        exact absent linked member
    · rw [if_neg here]
  · refine forall_update (P := fun _ ghost => KnownOk S.D s.cell chain ghost) ⟨?_, ?_⟩
      fun u _ => knowns u
    · intro k' b' found known'
      simp only [Ghost.rechained, Ghost.takeBucket] at known'
      split at known'
      · rename_i here
        obtain ⟨rfl, rfl⟩ := here
        rw [items']
        exact Option.some.inj known'
      · exact (knowns t).known k' b' found known'
    · intro k' b' impossible
      cases impossible

end CoreInv

end Fastmem
