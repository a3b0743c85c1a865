/-
Linking and unlinking a slot, and the duplicate check, under interference.

The thread holds the bucket lock and knows the chain; the slot it moves is its
own. `mk` is what the thread does with the slot besides: inserting it, moving
or deleting it.
-/

import Fastmem.Concurrent.ReadTriples

set_option autoImplicit false

namespace Fastmem

open Prog (perform iterate forEach foldEach)

variable {n : Nat}

theorem Role.emptiedBefore_of_slot {role : Role n} {idx k b : Nat}
    (slotted : role.slot = some idx) : role.emptiedBefore k b := by
  intro c e clash
  rw [clash] at slotted
  cases slotted

theorem Role.emptiedUpTo_of_slot {role : Role n} {idx k b : Nat}
    (slotted : role.slot = some idx) : role.emptiedUpTo k b := by
  intro c e clash
  rw [clash] at slotted
  cases slotted

theorem permits_storeCell {S : Setting n} {ghost : Ghost n} {idx : Nat}
    (slotted : ghost.role.slot = some idx) (cell : Cell) (value : Option Nat) :
    Permits S ghost (.storeCell cell value) := by
  cases cell with
  | head k b => exact Role.emptiedBefore_of_slot slotted
  | next k i => trivial
  | freeHead => trivial
  | freeNext i => trivial

theorem Ghost.not_truncates_of_slot {ghost : Ghost n} {idx : Nat}
    (slotted : ghost.role.slot = some idx) : ¬ ghost.Truncates := by
  rintro ⟨c, e, clash⟩
  rw [clash] at slotted
  cases slotted

namespace CoreTriple

variable {S : Setting n} {t : Nat} {kind : Bool} {promise : (coreProtocol S).Promise}
  {ghost : Ghost n} {idx k b : Nat} {mk : (Nat → Option Nat) → Role n} {p : Nat → Option Nat}
  {items : List Nat}

/-- The thread may put slot `idx` at the head of a bucket: no truncation has emptied it. -/
def HeadOpen (S : Setting n) (t : Nat) (promise : (coreProtocol S).Promise) (ghost : Ghost n)
    (k b idx : Nat) : Prop :=
  ∀ (s : Core n) (kinds : Nat → Bool) g, CoreInv S s g → (g t).mutex = ghost.mutex →
    (g t).role = ghost.role →
    promise (.storeCell (.head k b) (some idx)) s (fun u => (kinds u, g u)) →
    ¬ Emptied (rolesOf g) k b

theorem link_triple (movable : Role.Movable S mk idx) (role : ghost.role = mk p)
    (known : ghost.known k b = some items) (loose : S.linked → p k = none)
    (unemptied : S.linked → HeadOpen S t promise ghost k b idx)
    (ok : ∀ slot, RoleOk S slot ghost →
      RoleOk S slot (ghost.become (mk (Function.update p k (some b)))))
    (clean : S.distinct → ∀ rec, mk p = .chaining idx rec p → ghost.Checked S.D k rec idx)
    (own : S.distinct → ∀ k' a self, ghost.clean k' = some (a, self) → self = idx)
    (ownPassed : S.distinct → ∀ k' a self items, ghost.passed = some (k', a, self, items) →
      self = idx) :
    CoreTriple S t kind promise ghost (fmCoreChainLink k b idx) fun _ ghost' =>
      ghost' = ghost.rechained (mk (Function.update p k (some b))) k b (idx :: items) := by
  have held : ghost.holds (.bucket k b) := by
    change (ghost.known k b).isSome = true
    rw [known]
    rfl
  have slotted : ghost.role.slot = some idx := role ▸ movable.slot p
  refine Protocol.Triple.bind (loadFact (n := n) (.loadCell (.head k b)) trivial
    (fun head => S.linked → head = items.head?) ?_) ?_
  · intro s kinds g result inv mine _ ran linked
    cases ran
    subst mine
    exact inv.knownHead linked known
  rintro head ghost ⟨isHead, rfl⟩
  have prepared : CoreTriple S t kind promise ghost (perform (.storeCell (.next k idx) head))
      fun _ ghost' => ghost' = ghost.prepare k b := by
    refine act trivial fun s kinds g result s' inv truncates mine kindIs promised ran => ?_
    cases ran
    subst mine
    refine ⟨_, inv.storeNext movable role loose held ?_, ?_, rfl⟩
    · intro linked
      rw [inv.knownHead linked known]
      exact isHead linked
    · exact fun truncating => kindIs ▸ truncates t truncating
  refine Protocol.Triple.bind prepared ?_
  rintro _ _ rfl
  refine act (Role.emptiedBefore_of_slot slotted) ?_
  intro s kinds g result s' inv truncates mine kindIs promised ran
  cases ran
  have okNow : RoleOk S s.slot ((g t).become (mk (Function.update p k (some b)))) := by
    have okBefore : RoleOk S s.slot ghost := by
      refine (inv.ok t).mono (by rw [mine]; rfl) fun l holds => ?_
      rw [mine] at holds
      cases l <;> exact holds
    refine (ok s.slot okBefore).mono rfl fun l holds => ?_
    rw [mine]
    cases l <;> exact holds
  have done := inv.storeHead (t := t) (p := p) movable (by rw [mine]; exact role)
    (by rw [mine]; exact known) (by rw [mine]; rfl)
    (fun linked => unemptied linked s kinds g inv (by rw [mine]; rfl) (by rw [mine]; rfl)
      promised) okNow
    (fun distinct rec isChaining => by rw [mine]; exact clean distinct rec isChaining)
    (fun distinct => by rw [mine]; exact own distinct)
    (fun distinct => by rw [mine]; exact ownPassed distinct)
  refine ⟨_, done, ?_, by rw [mine]; rfl⟩
  intro truncating
  exact absurd truncating (Ghost.not_truncates_of_slot (movable.slot _))

/-- The walk of an unlink has come to `link`, not past slot `idx`. -/
def Reached (S : Setting n) (k b idx : Nat) (items : List Nat) (link : Cell) : Prop :=
  (link ≠ .freeHead ∧ ∀ i, link ≠ .freeNext i) ∧
    (S.linked → ∃ before after, items = before ++ after ∧ idx ∉ before ∧
      link = cellAfter (Cell.next k) (.head k b) before)

theorem Reached.start : Reached S k b idx items (.head k b) := by
  refine ⟨⟨fun clash => (by cases clash), fun _ clash => (by cases clash)⟩, fun _ => ?_⟩
  exact ⟨[], items, rfl, List.not_mem_nil, rfl⟩

theorem unlink_triple (movable : Role.Movable S mk idx) (role : ghost.role = mk p)
    (known : ghost.known k b = some items) (only : S.linked → p k = none ∨ p k = some b)
    (ok : ∀ slot, RoleOk S slot ghost →
      RoleOk S slot (ghost.become (mk (Function.update p k none)))) :
    CoreTriple S t kind promise ghost (fmCoreChainUnlink k b idx) fun _ ghost' =>
      ∃ items', ghost' = ghost.rechained (mk (Function.update p k none)) k b items' := by
  have slotted : ghost.role.slot = some idx := role ▸ movable.slot p
  have after_not : ∀ items', ¬ (ghost.rechained (mk (Function.update p k none)) k b
      items').Truncates := fun items' =>
    Ghost.not_truncates_of_slot (movable.slot _)
  refine Protocol.Triple.iterate
    (fun link ghost' => ghost' = ghost ∧ Reached S k b idx items link) ?_ ⟨rfl, .start⟩
  rintro link ghost ⟨rfl, chainCell, reached⟩
  -- the load that finds the end of the chain is where an absent slot counts as unlinked
  have pointed : CoreTriple S t kind promise ghost (perform (.loadCell link))
      fun found ghost' =>
        (found = none →
          ∃ items', ghost' = ghost.rechained (mk (Function.update p k none)) k b items') ∧
        ∀ h, found = some h → ghost' = ghost ∧ (S.linked → ∃ before after,
          items = before ++ h :: after ∧ idx ∉ before ∧
            link = cellAfter (Cell.next k) (.head k b) before) := by
    refine act trivial fun s kinds g result s' inv truncates mine kindIs promised ran => ?_
    cases ran
    subst mine
    cases found : s.cell link with
    | none =>
        refine ⟨_, inv.unlinkAbsent movable role known ?_ only (ok s.slot (inv.ok t)),
          fun truncating => absurd truncating (after_not _), fun _ => ⟨items, rfl⟩,
          fun h clash => by cases clash⟩
        intro linked
        obtain ⟨before, after, rfl, absent, rfl⟩ := reached linked
        rw [inv.knownCell linked known] at found
        rw [List.head?_eq_none_iff.mp found, List.append_nil]
        exact absent
    | some h =>
        refine ⟨g t, ?_, fun truncating => kindIs ▸ truncates t truncating,
          fun clash => (by cases clash), fun h' same => ?_⟩
        · rw [Function.update_eq_self]
          exact inv
        · cases same
          refine ⟨rfl, fun linked => ?_⟩
          obtain ⟨before, after, rfl, absent, rfl⟩ := reached linked
          rw [inv.knownCell linked known] at found
          obtain ⟨rest, rfl⟩ : ∃ rest, after = h :: rest := by
            cases after with
            | nil => cases found
            | cons first rest => cases found; exact ⟨rest, rfl⟩
          exact ⟨before, rest, rfl, absent, rfl⟩
  refine Protocol.Triple.bind pointed fun found ghost' outcome => ?_
  cases found with
  | none => exact Protocol.Triple.ret (outcome.1 rfl)
  | some h =>
      obtain ⟨rfl, at_⟩ := outcome.2 h rfl
      by_cases isIdx : h = idx
      swap
      · simp only [isIdx, if_false]
        refine Protocol.Triple.ret ⟨rfl, ⟨fun clash => (by cases clash),
          fun _ clash => (by cases clash)⟩, fun linked => ?_⟩
        obtain ⟨before, after, rfl, absent, rfl⟩ := at_ linked
        refine ⟨before ++ [h], after, by simp, ?_, (cellAfter_append _ _ _ _).symm⟩
        simp only [List.mem_append, List.mem_singleton, not_or]
        exact ⟨absent, fun same => isIdx same.symm⟩
      subst isIdx
      simp only [if_true]
      refine Protocol.Triple.bind (loadNext known) ?_
      rintro next ghost ⟨loaded, rfl⟩
      have stored : CoreTriple S t kind promise ghost (perform (.storeCell link next))
          fun _ ghost' => ∃ items',
            ghost' = ghost.rechained (mk (Function.update p k none)) k b items' := by
        refine act (permits_storeCell slotted _ _)
          fun s kinds g result s' inv truncates mine kindIs promised ran => ?_
        cases ran
        subst mine
        by_cases linked : S.linked
        · obtain ⟨before, after, rfl, absent, rfl⟩ := at_ linked
          refine ⟨_, inv.storeUnlink movable role known ?_ (ok s.slot (inv.ok t)),
            fun truncating => absurd truncating (after_not _), _, rfl⟩
          intro _
          rw [inv.knownNext linked known]
          exact loaded linked before after rfl
        · have unlinked := inv.unlinkAbsent movable role known (fun yes => absurd yes linked)
            only (ok s.slot (inv.ok t))
          have stored := unlinked.looseCell (t := t) linked chainCell next
          rw [Function.update_eq_self] at stored
          exact ⟨_, stored, fun truncating => absurd truncating (after_not _), items, rfl⟩
      refine Protocol.Triple.bind stored fun _ _ done => ?_
      exact Protocol.Triple.ret done

/-! ### The duplicate check -/

/-- A row being inserted that the check of a record reads, and overlooks because it is not
ACTIVE yet, is no duplicate of the record. -/
def Unhidden (S : Setting n) (t : Nat) (promise : (coreProtocol S).Promise) (ghost : Ghost n)
    (k : Nat) (rec : Rec n) (self : Nat) : Prop :=
  ∀ y (s : Core n) (kinds : Nat → Bool) g, CoreInv S s g → (g t).mutex = ghost.mutex →
    (g t).role = ghost.role → promise (.loadState y) s (fun u => (kinds u, g u)) → y ≠ self →
    ∀ u a p, (g u).role = .chaining y a p → p k ≠ none → (S.D.keydef k).ops.cmpRecRec a rec ≠ 0

def passing (ghost : Ghost n) (k : Nat) (rec : Rec n) (self : Nat) (seen : List Nat) : Ghost n :=
  { ghost with passed := some (k, rec, self, seen) }

section DupCheck

variable {rec : Rec n} {self : Nat} {seen : List Nat}

theorem keepKind {kinds : Nat → Bool} {g : Nat → Ghost n}
    (truncates : ∀ u, (g u).Truncates → kinds u = true) (kindIs : kinds t = kind)
    {before after : Ghost n} (mine : g t = before) (role : after.role = before.role)
    (truncating : after.Truncates) : kind = true := by
  rw [← kindIs]
  refine truncates t ?_
  obtain ⟨c, e, now⟩ := truncating
  exact ⟨c, e, by rw [mine, ← role, now]⟩

/-- Afterwards the slot counts as passed unless it is a duplicate. -/
theorem readPassing_pass (distinct : S.distinct) (y : Nat)
    (unhidden : Unhidden S t promise ghost k rec self) :
    CoreTriple S t kind promise (passing ghost k rec self seen)
      (readPassing S.gran y fun scratch => (S.D.keydef k).ops.cmpRecRec scratch rec = 0)
      fun result ghost' => ∃ seen', ghost' = passing ghost k rec self seen' ∧
        (∀ j ∈ seen, j ∈ seen') ∧ (result = none → y ∈ seen') := by
  have whole : S.gran = .whole := S.whole (S.distinct_linked distinct)
  have linked : S.linked := S.distinct_linked distinct
  rw [whole]
  have row : CoreTriple S t kind promise (passing ghost k rec self seen)
      (fmCoreReadRow .whole y false 0) fun result ghost' => ∃ seen',
        ghost' = passing ghost k rec self seen' ∧ (∀ j ∈ seen, j ∈ seen') ∧
        (∀ buf, result = .ok buf → (S.D.keydef k).ops.cmpRecRec buf rec ≠ 0 → y ∈ seen') ∧
        (∀ e, result = .error e → y ∈ seen') := by
    refine readRow_rule
      (fun ghost' => ∃ seen', ghost' = passing ghost k rec self seen' ∧ ∀ j ∈ seen, j ∈ seen')
      (fun ghost' => ∃ seen', ghost' = passing ghost k rec self seen' ∧ ∀ j ∈ seen, j ∈ seen')
      (fun buf ghost' => ∃ seen', ghost' = passing ghost k rec self seen' ∧
        (∀ j ∈ seen, j ∈ seen') ∧ ((S.D.keydef k).ops.cmpRecRec buf rec ≠ 0 → y ∈ seen'))
      ?_ ?_ (fun _ same => same) ?_ ?_ ⟨seen, rfl, fun _ member => member⟩
    · rintro _ ⟨seen', rfl, more⟩
      refine act trivial fun s kinds g result s' inv truncates mine kindIs promised ran => ?_
      cases ran
      by_cases active : (s.slot y).state = .active
      · refine ⟨passing ghost k rec self seen', ?_, keepKind truncates kindIs mine rfl, ?_⟩
        · rw [← mine, Function.update_eq_self]
          exact inv
        · rw [if_pos active]
          exact ⟨seen', rfl, more⟩
      · refine ⟨passing ghost k rec self (y :: seen'), ?_, keepKind truncates kindIs mine rfl, ?_⟩
        · have passed := inv.passSlot (t := t) (y := y) ?_
          · rw [mine] at passed
            exact passed
          intro _ k' rec' self' items' check _ other a occupied
          rw [mine] at check
          cases check
          rcases occupied with ⟨isActive, _⟩ | ⟨u, p, role, chained⟩
          · exact absurd isActive active
          · exact unhidden y s kinds g inv (by rw [mine]; rfl) (by rw [mine]; rfl) promised other
              u a p role chained
        · rw [if_neg active]
          exact ⟨y :: seen', rfl, fun j member => List.mem_cons_of_mem y (more j member),
            fun _ clash => (by cases clash), fun _ _ => List.mem_cons_self ..⟩
    · intro _ _ impossible
      cases impossible
    · rintro _ ⟨seen', rfl, more⟩
      refine act trivial fun s kinds g result s' inv truncates mine kindIs promised ran => ?_
      cases ran
      by_cases equal : (S.D.keydef k).ops.cmpRecRec (s.slot y).data rec = 0
      · refine ⟨passing ghost k rec self seen', ?_, keepKind truncates kindIs mine rfl, seen', rfl,
          more, fun unequal => absurd equal unequal⟩
        rw [← mine, Function.update_eq_self]
        exact inv
      · refine ⟨passing ghost k rec self (y :: seen'), ?_, keepKind truncates kindIs mine rfl,
          y :: seen', rfl, fun j member => List.mem_cons_of_mem y (more j member),
          fun _ => List.mem_cons_self ..⟩
        have passed := inv.passSlot (t := t) (y := y) ?_
        · rw [mine] at passed
          exact passed
        intro _ k' rec' self' items' check _ other a occupied
        rw [mine] at check
        cases check
        rw [← inv.occupies_data linked occupied]
        exact equal
    · rintro buf _ ⟨seen', rfl, more, passed⟩
      refine ⟨⟨seen', rfl, more⟩, seen', rfl, more, ?_, fun _ clash => (by cases clash)⟩
      rintro _ same
      cases same
      exact passed
  refine Protocol.Triple.bind row fun result _ outcome => ?_
  obtain ⟨seen', same, more, unequal, refused⟩ := outcome
  cases result with
  | ok buf =>
      refine Protocol.Triple.ret ⟨seen', same, more, fun failed => ?_⟩
      by_cases equal : (S.D.keydef k).ops.cmpRecRec buf rec = 0
      · simp [equal] at failed
      · exact unequal buf rfl equal
  | error e => exact Protocol.Triple.ret ⟨seen', same, more, fun _ => refused e rfl⟩

def Checking (S : Setting n) (ghost : Ghost n) (k : Nat) (rec : Rec n) (self : Nat)
    (items : List Nat) (h : Option Nat) (ghost' : Ghost n) : Prop :=
  match h with
  | none => ghost' = ghost.approve k rec self
  | some y => ∃ seen, ghost' = passing ghost k rec self seen ∧
      (S.distinct → ∃ before after, items = before ++ y :: after ∧ ∀ j ∈ before, j ∈ seen)

theorem loadFirst (known : ghost.known k (fmCoreKeyBucket (S.D.keydef k) rec) = some items)
    (calm : ghost.Calm) (self : Nat) :
    CoreTriple S t kind promise ghost
      (perform (.loadCell (.head k (fmCoreKeyBucket (S.D.keydef k) rec))))
      fun h ghost' => Checking S ghost k rec self items h ghost' := by
  refine act trivial fun s kinds g result s' inv truncates mine kindIs promised ran => ?_
  cases ran
  subst mine
  cases first : s.cell (.head k (fmCoreKeyBucket (S.D.keydef k) rec)) with
  | none =>
      refine ⟨_, inv.approveKey self calm known ?_,
        fun truncating => kindIs ▸ truncates t truncating, rfl⟩
      intro distinct j member
      rw [inv.knownHead (S.distinct_linked distinct) known] at first
      rw [List.head?_eq_none_iff.mp first] at member
      cases member
  | some y =>
      have held : (g t).holds (.bucket k (fmCoreKeyBucket (S.D.keydef k) rec)) := by
        change ((g t).known k _).isSome = true
        rw [known]
        rfl
      refine ⟨_, inv.beginCheck self held, fun truncating => kindIs ▸ truncates t truncating,
        [], rfl, fun distinct => ?_⟩
      rw [inv.knownHead (S.distinct_linked distinct) known] at first
      cases items with
      | nil => cases first
      | cons y' after =>
          cases first
          exact ⟨[], after, rfl, fun _ member => absurd member List.not_mem_nil⟩

theorem loadFurther {y : Nat}
    (known : ghost.known k (fmCoreKeyBucket (S.D.keydef k) rec) = some items)
    (calm : ghost.Calm)
    (walk : S.distinct → ∃ before after, items = before ++ y :: after ∧
      ∀ j ∈ before ++ [y], j ∈ seen) :
    CoreTriple S t kind promise (passing ghost k rec self seen)
      (perform (.loadCell (.next k y)))
      fun h ghost' => Checking S ghost k rec self items h ghost' := by
  refine act trivial fun s kinds g result s' inv truncates mine kindIs promised ran => ?_
  cases ran
  have knownNow : (g t).known k (fmCoreKeyBucket (S.D.keydef k) rec) = some items := by
    rw [mine]
    exact known
  cases next : s.cell (.next k y) with
  | none =>
      have calmNow : (g t).Calm := by
        rw [mine]
        exact calm
      have approved := inv.approveKey self calmNow knownNow ?_
      · rw [mine] at approved
        exact ⟨_, approved, keepKind truncates kindIs mine rfl, rfl⟩
      intro distinct j member other valid a occupied
      obtain ⟨before, after, rfl, passed⟩ := walk distinct
      rw [inv.knownNext (S.distinct_linked distinct) knownNow] at next
      rw [List.head?_eq_none_iff.mp next] at member
      have checked := ((inv.unique distinct).2 t).passed k rec self seen (by rw [mine]; rfl)
      exact checked.2 valid j (passed j member) other a occupied
  | some y' =>
      refine ⟨passing ghost k rec self seen, ?_, keepKind truncates kindIs mine rfl, seen, rfl, ?_⟩
      · rw [← mine, Function.update_eq_self]
        exact inv
      · intro distinct
        obtain ⟨before, after, rfl, passed⟩ := walk distinct
        rw [inv.knownNext (S.distinct_linked distinct) knownNow] at next
        cases after with
        | nil => cases next
        | cons y'' after =>
            cases next
            exact ⟨before ++ [y], after, by simp, passed⟩

theorem dupCheck_triple (self : Nat)
    (known : ghost.known k (fmCoreKeyBucket (S.D.keydef k) rec) = some items)
    (calm : ghost.Calm) (unhidden : S.distinct → dupChecked (S.D.keydef k) rec = true →
      Unhidden S t promise ghost k rec self) :
    CoreTriple S t kind promise ghost
      (fmCoreDupCheck S.D S.gran k (fmCoreKeyBucket (S.D.keydef k) rec) rec)
      fun dup ghost' => if dup = true then ∃ seen, ghost' = passing ghost k rec self seen
        else ghost' = if dupChecked (S.D.keydef k) rec then ghost.approve k rec self else ghost := by
  unfold fmCoreDupCheck
  by_cases checked : dupChecked (S.D.keydef k) rec = true
  swap
  · simp only [checked, Bool.false_eq_true, if_false]
    exact Protocol.Triple.ret (by simp)
  simp only [checked, if_true]
  refine Protocol.Triple.bind (loadFirst known calm self) fun first ghost' start => ?_
  refine Protocol.Triple.iterate (Checking S ghost k rec self items) ?_ start
  intro h ghost' checking
  cases h with
  | none =>
      refine Protocol.Triple.ret ?_
      simp only [Bool.false_eq_true, if_false]
      exact checking
  | some y =>
      obtain ⟨seen, rfl, walk⟩ := checking
      have row : CoreTriple S t kind promise (passing ghost k rec self seen)
          (readPassing S.gran y fun scratch => (S.D.keydef k).ops.cmpRecRec scratch rec = 0)
          fun result ghost' => ∃ seen', ghost' = passing ghost k rec self seen' ∧
            (∀ j ∈ seen, j ∈ seen') ∧ (S.distinct → result = none → y ∈ seen') := by
        by_cases distinct : S.distinct
        · refine (readPassing_pass distinct y (unhidden distinct checked)).mono ?_
          rintro result _ ⟨seen', same, more, passed⟩
          exact ⟨seen', same, more, fun _ => passed⟩
        · refine readPassing_same.mono fun result _ same => ?_
          exact ⟨seen, same, fun _ member => member, fun yes => absurd yes distinct⟩
      refine Protocol.Triple.bind row ?_
      rintro result _ ⟨seen', rfl, more, passed⟩
      cases result with
      | some buf => exact Protocol.Triple.ret (by simp)
      | none =>
          refine Protocol.Triple.bind (loadFurther known calm ?_) fun next ghost' further =>
            Protocol.Triple.ret further
          intro distinct
          obtain ⟨before, after, split, done⟩ := walk distinct
          refine ⟨before, after, split, fun j member => ?_⟩
          rcases List.mem_append.mp member with earlier | now
          · exact more j (done j earlier)
          · rw [List.mem_singleton.mp now]
            exact passed distinct rfl

end DupCheck

end CoreTriple

end Fastmem
