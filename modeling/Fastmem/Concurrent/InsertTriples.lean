/-
An insert under interference.

The struct mutex is held from the allocation to the end, so no truncation and no
other insert runs. Under each key the slot is chained while the bucket is
locked; the row takes up its value of the key from then on.
-/

import Fastmem.Concurrent.FreeTriples

set_option autoImplicit false

namespace Fastmem

open Prog (perform iterate forEach foldEach)

variable {n : Nat}

/-- What an insert does with its slot once the copy has begun. Between the bytes of a torn
copy nothing is known about the image. -/
def insertRole (gran : Gran) (idx : Nat) (rec : Rec n) (p : Nat → Option Nat) : Role n :=
  match gran with
  | .whole => .chaining idx rec p
  | .bytewise => .fresh idx

/-- The buckets of a record under the first `k` keys. -/
def homeUpTo (D : ShareDef n) (rec : Rec n) (k : Nat) : Nat → Option Nat :=
  fun i => if i < k then some (fmCoreKeyBucket (D.keydef i) rec) else none

theorem homeUpTo_zero (D : ShareDef n) (rec : Rec n) : homeUpTo D rec 0 = fun _ => none := by
  funext i
  exact if_neg (Nat.not_lt_zero i)

theorem homeUpTo_link (D : ShareDef n) (rec : Rec n) (k : Nat) :
    Function.update (homeUpTo D rec k) k (some (fmCoreKeyBucket (D.keydef k) rec)) =
      homeUpTo D rec (k + 1) := by
  funext i
  unfold homeUpTo
  by_cases same : i = k
  · subst same
    rw [Function.update_self, if_pos (Nat.lt_succ_self i)]
  · rw [Function.update_of_ne same]
    simp only [Nat.lt_succ_iff_lt_or_eq, same, or_false]

theorem homeUpTo_unlink (D : ShareDef n) (rec : Rec n) (k : Nat) :
    Function.update (homeUpTo D rec (k + 1)) k none = homeUpTo D rec k := by
  rw [← homeUpTo_link, Function.update_idem, ← show homeUpTo D rec k k = none from
    if_neg (Nat.lt_irrefl k), Function.update_eq_self]

theorem homeUpTo_home {D : ShareDef n} {rec : Rec n} {k : Nat} (within : k ≤ D.keys) :
    ∀ i b, homeUpTo D rec k i = some b → i < D.keys ∧ b = fmCoreKeyBucket (D.keydef i) rec := by
  intro i b found
  unfold homeUpTo at found
  split at found
  · rename_i below
    cases found
    exact ⟨Nat.lt_of_lt_of_le below within, rfl⟩
  · cases found

section InsertRole

variable {S : Setting n} {idx : Nat} {rec : Rec n} {p p' : Nat → Option Nat}

theorem insertRole_slot (gran : Gran) : (insertRole gran idx rec p).slot = some idx := by
  cases gran <;> rfl

theorem insertRole_movable (S : Setting n) (idx : Nat) (rec : Rec n) :
    Role.Movable S (insertRole S.gran idx rec) idx := by
  cases gran : S.gran with
  | whole => exact Role.movable_chaining S idx rec
  | bytewise =>
      refine Role.movable_fresh (fun linked => ?_) idx
      have whole := S.whole linked
      rw [gran] at whole
      cases whole

theorem insertRole_inserting : CoreInv.Inserting S (insertRole S.gran idx rec p) idx rec p := by
  cases gran : S.gran with
  | whole => exact Or.inl rfl
  | bytewise =>
      refine Or.inr ⟨fun linked => ?_, rfl⟩
      have whole := S.whole linked
      rw [gran] at whole
      cases whole

theorem insertRole_unbound {gran : Gran} : (insertRole gran idx rec p).unbound S.D := by
  cases gran <;> trivial

theorem insertRole_calm {ghost : Ghost n} {gran : Gran}
    (role : ghost.role = insertRole gran idx rec p) : ghost.Calm := by
  refine ⟨fun _ _ _ _ clash => ?_, fun _ _ _ _ clash => ?_⟩ <;>
    (rw [role] at clash; cases gran <;> cases clash)

theorem insertRole_ok {slot : Nat → Slot n} {ghost : Ghost n}
    (role : ghost.role = insertRole S.gran idx rec p) (ok : RoleOk S slot ghost)
    (home : ∀ k b, p' k = some b → k < S.D.keys ∧ b = fmCoreKeyBucket (S.D.keydef k) rec) :
    RoleOk S slot (ghost.become (insertRole S.gran idx rec p')) := by
  cases gran : S.gran with
  | whole =>
      rw [gran] at role
      obtain ⟨unused, mutex, image⟩ := ok.chaining role
      exact ⟨unused, mutex, fun linked => ⟨(image linked).1, home⟩⟩
  | bytewise =>
      rw [gran] at role
      exact ok.fresh role

end InsertRole

namespace CoreTriple

variable {S : Setting n} {t : Nat} {kind : Bool} {promise : (coreProtocol S).Promise}
  {ghost : Ghost n} {idx : Nat} {rec : Rec n} {v : MutexView} {slots : Nat → Bool} {seen : Nat}

theorem memcpyFresh (fresh : ghost.role = .fresh idx) (unready : ghost.ready = none) :
    CoreTriple S t kind promise ghost (memcpyIn S.gran idx rec) fun _ ghost' =>
      ghost' = ghost.become (insertRole S.gran idx rec fun _ => none) := by
  cases gran : S.gran with
  | whole =>
      refine act (Or.inl fresh)
        fun s kinds g result s' inv truncates mine kindIs promised ran => ?_
      cases ran
      subst mine
      refine ⟨_, inv.copyFresh fresh unready rec, ?_, rfl⟩
      rintro ⟨c, e, clash⟩
      cases clash
  | bytewise =>
      have loose : ¬ S.linked := by
        intro linked
        have whole := S.whole linked
        rw [gran] at whole
        cases whole
      have same : ghost.become (.fresh idx) = ghost := by
        rw [← fresh]
        rfl
      change CoreTriple S t kind promise ghost _ fun _ ghost' => ghost' = ghost.become (.fresh idx)
      rw [same]
      refine Protocol.Triple.forEach (P := coreProtocol S)
        (fun _ (ghost' : Ghost n) => ghost' = ghost) ?_ rfl
      rintro at_ rest ghost rfl
      refine act (Or.inl fresh)
        fun s kinds g result s' inv truncates mine kindIs promised ran => ?_
      cases ran
      subst mine
      have dirty := inv.dirtyFresh loose fresh unready
        (Function.update (s.slot idx).data at_ (rec at_))
      rw [same] at dirty
      exact ⟨_, dirty, keepKind truncates kindIs rfl rfl, rfl⟩

/-- Only the own insert can hide a row from the holder of the mutex. -/
theorem unhidden_of_mutex (k : Nat) (held : ghost.mutex.isSome = true)
    (worksOn : ghost.role.slot = some idx) : Unhidden S t promise ghost k rec idx := by
  intro y s kinds g inv mutex sameRole _ other u a p role _
  have theirs := ((inv.ok u).chaining role).2.1
  have same : u = t := inv.mutexAlone (by rw [mutex]; exact held) theirs
  subst same
  rw [← sameRole, role] at worksOn
  exact absurd (Option.some.inj worksOn) other

theorem headOpen_of_mutex (k b : Nat) (held : ghost.mutex.isSome = true)
    (worksOn : ghost.role.slot = some idx) : HeadOpen S t promise ghost k b idx := by
  rintro s kinds g inv mutex sameRole _ ⟨u, c, e, role, _⟩
  have theirs := ((inv.ok u).clearer role).1
  have same : u = t := inv.mutexAlone (by rw [mutex]; exact held) theirs
  subst same
  rw [← sameRole, show (g u).role = .clearer c e from role] at worksOn
  cases worksOn

def insertGhost (S : Setting n) (slots : Nat → Bool) (seen : Nat) (v : MutexView) (idx : Nat)
    (rec : Rec n) (p : Nat → Option Nat) : Ghost n :=
  (Ghost.rest slots seen).viewing (insertRole S.gran idx rec p) v

theorem insertUnlock {k b : Nat} {p : Nat → Option Nat} (ghost : Ghost n)
    (sameSlots : ghost.slots = slots) (held : ghost.holds (.bucket k b))
    (known : ∀ k' b', ¬ (k' = k ∧ b' = b) → ghost.known k' b' = none)
    (mutex : ghost.mutex = some v) (ready : ghost.ready = none) (sameSeen : ghost.seen = seen)
    (clean : ∀ k', k' ≠ k → ghost.clean k' = none)
    (role : ghost.role = insertRole S.gran idx rec p) :
    CoreTriple S t kind promise ghost (perform (.unlock (.bucket k b))) fun _ ghost' =>
      ghost' = insertGhost S slots seen v idx rec p := by
  have slotted : ghost.role.slot = some idx := role ▸ insertRole_slot S.gran
  refine (unlockBucket held (Role.emptiedUpTo_of_slot slotted)
    (fun _ => role ▸ insertRole_unbound) ready).mono ?_
  rintro _ _ rfl
  rw [dropBucket_eq ((Ghost.rest slots seen).takeMutex v) sameSlots known mutex ready sameSeen clean
    rfl rfl rfl, role]
  rfl

theorem insertLinkKeys_triple : ∀ (left k : Nat), k + left = S.D.keys →
    CoreTriple S t kind promise (insertGhost S slots seen v idx rec (homeUpTo S.D rec k))
      (insertLinkKeys S.D S.gran rec idx (List.range' k left)) fun dup ghost' =>
        ghost' = insertGhost S slots seen v idx rec (homeUpTo S.D rec (dup.getD S.D.keys)) ∧
          dup.getD S.D.keys ≤ S.D.keys := by
  intro left
  induction left with
  | zero =>
      intro k all
      refine Protocol.Triple.ret ⟨?_, Nat.le_refl _⟩
      rw [show k = S.D.keys from all]
      rfl
  | succ left ih =>
      intro k all
      have valid : k < S.D.keys := by omega
      have slotted : (insertRole S.gran idx rec (homeUpTo S.D rec k)).slot = some idx :=
        insertRole_slot S.gran
      rw [List.range'_succ]
      refine Protocol.Triple.bind (lockBucket (Role.emptiedBefore_of_slot slotted)) ?_
      rintro _ _ ⟨items, rfl⟩
      have known : ((insertGhost S slots seen v idx rec (homeUpTo S.D rec k)).takeBucket k
          (fmCoreKeyBucket (S.D.keydef k) rec) items).known k
          (fmCoreKeyBucket (S.D.keydef k) rec) = some items := Ghost.takeBucket_known ..
      have others : ∀ k' b', ¬ (k' = k ∧ b' = fmCoreKeyBucket (S.D.keydef k) rec) →
          ((insertGhost S slots seen v idx rec (homeUpTo S.D rec k)).takeBucket k
            (fmCoreKeyBucket (S.D.keydef k) rec) items).known k' b' = none :=
        fun _ _ different => if_neg different
      generalize taken : (insertGhost S slots seen v idx rec (homeUpTo S.D rec k)).takeBucket k
        (fmCoreKeyBucket (S.D.keydef k) rec) items = ghost at known others
      have held : ghost.holds (.bucket k (fmCoreKeyBucket (S.D.keydef k) rec)) := by
        change (ghost.known k _).isSome = true
        rw [known]
        rfl
      have role : ghost.role = insertRole S.gran idx rec (homeUpTo S.D rec k) := by
        rw [← taken]
        rfl
      have mutex : ghost.mutex = some v := by
        rw [← taken]
        rfl
      have blank : ghost.slots = slots ∧ ghost.ready = none ∧ ghost.seen = seen ∧
          (∀ k', ghost.clean k' = none) ∧ ghost.passed = none := by
        rw [← taken]
        exact ⟨rfl, rfl, rfl, fun _ => rfl, rfl⟩
      clear taken
      obtain ⟨sameSlots, unready, sameSeen, unclean, unpassed⟩ := blank
      refine Protocol.Triple.bind (dupCheck_triple idx known (insertRole_calm role)
        fun _ _ => unhidden_of_mutex k (by rw [mutex]; rfl) (role ▸ slotted)) ?_
      intro dup ghost' outcome
      cases dup with
      | true =>
          obtain ⟨passed, rfl⟩ := outcome
          refine Protocol.Triple.bind (insertUnlock _ sameSlots held others mutex unready sameSeen
            (fun k' _ => unclean k') role) ?_
          rintro _ _ rfl
          exact Protocol.Triple.ret ⟨rfl, Nat.le_of_lt valid⟩
      | false =>
          simp only [Bool.false_eq_true, if_false] at outcome ⊢
          -- whether the check looked at the chain or not, only its findings are new
          obtain ⟨clean, rfl, checked, unclean⟩ : ∃ clean,
              ghost' = { ghost with clean := clean, passed := none } ∧
              (dupChecked (S.D.keydef k) rec = true → clean k = some (rec, idx)) ∧
              ∀ k' a self, clean k' = some (a, self) → k' = k ∧ self = idx := by
            by_cases check : dupChecked (S.D.keydef k) rec = true
            · rw [if_pos check] at outcome
              refine ⟨_, outcome, fun _ => Function.update_self .., fun k' a self found => ?_⟩
              by_cases same : k' = k
              · rw [same, Function.update_self] at found
                cases found
                exact ⟨same, rfl⟩
              · rw [Function.update_of_ne same, unclean k'] at found
                cases found
            · rw [if_neg check] at outcome
              refine ⟨ghost.clean, ?_, fun yes => absurd yes check, fun k' a self found => ?_⟩
              · rw [outcome, ← unpassed]
              · rw [unclean k'] at found
                cases found
          have linked : CoreTriple S t kind promise { ghost with clean := clean, passed := none }
              (fmCoreChainLink k (fmCoreKeyBucket (S.D.keydef k) rec) idx) fun _ ghost' =>
                ghost' = ({ ghost with clean := clean, passed := none } : Ghost n).rechained
                  (insertRole S.gran idx rec (homeUpTo S.D rec (k + 1))) k
                  (fmCoreKeyBucket (S.D.keydef k) rec) (idx :: items) := by
            rw [← homeUpTo_link]
            refine link_triple (insertRole_movable S idx rec) role known
              (fun _ => if_neg (Nat.lt_irrefl k))
              (fun _ => headOpen_of_mutex k _ (by rw [mutex]; rfl) (role ▸ slotted)) ?_ ?_ ?_ ?_
            · intro slot ok
              refine insertRole_ok role ok ?_
              rw [homeUpTo_link]
              exact homeUpTo_home valid
            · intro distinct rec' isChaining
              have same : rec' = rec := by
                rw [S.whole (S.distinct_linked distinct)] at isChaining
                cases isChaining
                rfl
              subst same
              exact ⟨held, checked⟩
            · exact fun _ k' a self found => (unclean k' a self found).2
            · exact fun _ k' a self passed clash => (by cases clash)
          refine Protocol.Triple.bind linked ?_
          rintro _ _ rfl
          refine Protocol.Triple.bind (insertUnlock (p := homeUpTo S.D rec (k + 1)) _ sameSlots ?_ ?_
            mutex rfl sameSeen ?_ rfl) ?_
          · exact (Ghost.rechained_holds (insertRole S.gran idx rec (homeUpTo S.D rec (k + 1)))
              (idx :: items) held _).mpr held
          · intro k' b' different
            exact (if_neg different).trans (others k' b' different)
          · intro k' different
            cases found : clean k' with
            | none => exact found
            | some pair => exact absurd (unclean k' pair.1 pair.2 found).1 different
          rintro _ _ rfl
          exact ih (k + 1) (by omega)

theorem insertRollback_triple : ∀ k, k ≤ S.D.keys →
    CoreTriple S t kind promise (insertGhost S slots seen v idx rec (homeUpTo S.D rec k))
      (insertRollback S.D rec idx k) fun _ ghost' =>
        ghost' = insertGhost S slots seen v idx rec fun _ => none := by
  intro k
  induction k with
  | zero =>
      intro _
      refine Protocol.Triple.ret ?_
      rw [homeUpTo_zero]
  | succ k ih =>
      intro within
      have slotted : (insertRole S.gran idx rec (homeUpTo S.D rec (k + 1))).slot = some idx :=
        insertRole_slot S.gran
      refine Protocol.Triple.bind (lockBucket (Role.emptiedBefore_of_slot slotted)) ?_
      rintro _ _ ⟨items, rfl⟩
      have held : ((insertGhost S slots seen v idx rec (homeUpTo S.D rec (k + 1))).takeBucket k
          (fmCoreKeyBucket (S.D.keydef k) rec) items).holds
          (.bucket k (fmCoreKeyBucket (S.D.keydef k) rec)) := by
        simp [Ghost.takeBucket, Ghost.holds]
      have unlinked : CoreTriple S t kind promise
          ((insertGhost S slots seen v idx rec (homeUpTo S.D rec (k + 1))).takeBucket k
            (fmCoreKeyBucket (S.D.keydef k) rec) items)
          (fmCoreChainUnlink k (fmCoreKeyBucket (S.D.keydef k) rec) idx) fun _ ghost' => ∃ items',
            ghost' = ((insertGhost S slots seen v idx rec (homeUpTo S.D rec (k + 1))).takeBucket k
              (fmCoreKeyBucket (S.D.keydef k) rec) items).rechained
              (insertRole S.gran idx rec (homeUpTo S.D rec k)) k
              (fmCoreKeyBucket (S.D.keydef k) rec) items' := by
        rw [← homeUpTo_unlink S.D rec k]
        refine unlink_triple (insertRole_movable S idx rec) rfl
          (Ghost.takeBucket_known ..) (fun _ => Or.inr (if_pos (Nat.lt_succ_self k))) fun slot ok => ?_
        refine insertRole_ok rfl ok ?_
        rw [homeUpTo_unlink]
        exact homeUpTo_home (Nat.le_of_succ_le within)
      refine Protocol.Triple.bind unlinked ?_
      rintro _ _ ⟨items', rfl⟩
      refine Protocol.Triple.bind (insertUnlock (p := homeUpTo S.D rec k) _ rfl
        ((Ghost.rechained_holds _ _ held _).mpr held) ?_ rfl rfl rfl (fun _ _ => rfl) rfl) ?_
      · intro k' b' different
        exact (if_neg different).trans (if_neg different)
      rintro _ _ rfl
      exact ih (Nat.le_of_succ_le within)

theorem insertRefuse_triple {k : Nat} (within : k ≤ S.D.keys) :
    CoreTriple S t kind promise (insertGhost S slots seen v idx rec (homeUpTo S.D rec k))
      (insertRefuse S.D rec idx k) fun result ghost' => ghost' = Ghost.rest slots seen ∧
        ∃ e, result = .error e := by
  refine Protocol.Triple.bind (insertRollback_triple k within) ?_
  rintro left _ rfl
  have droppable : (insertGhost S slots seen v idx rec fun _ => none).role.Droppable S.linked idx := by
    cases gran : S.gran with
    | whole =>
        refine Or.inr (Or.inr ⟨rec, fun _ => none, ?_, fun _ _ => rfl⟩)
        change insertRole S.gran idx rec _ = _
        rw [gran]
        rfl
    | bytewise =>
        refine Or.inl ?_
        change insertRole S.gran idx rec _ = _
        rw [gran]
        rfl
  refine Protocol.Triple.bind (freeOwn (v := v) rfl rfl droppable) ?_
  rintro _ _ rfl
  refine Protocol.Triple.bind (unlockMutex rfl (Or.inl rfl)) ?_
  rintro _ _ rfl
  exact Protocol.Triple.ret ⟨rfl, _, rfl⟩

theorem insertPublish_triple :
    CoreTriple S t kind promise (insertGhost S slots seen v idx rec (homeUpTo S.D rec S.D.keys))
      (insertPublish idx) fun result ghost' => ∃ count,
        ghost' = Ghost.rest slots (max seen count) ∧ result = .ok idx ∧ idx < count := by
  have published : CoreTriple S t kind promise
      (insertGhost S slots seen v idx rec (homeUpTo S.D rec S.D.keys))
      (perform (.storeState idx .active)) fun _ ghost' => ∃ count,
        ghost' = (Ghost.rest slots (max seen count)).viewing .published v ∧ idx < count := by
    refine act ⟨rec, homeUpTo S.D rec S.D.keys, insertRole_inserting⟩
      fun s kinds g result s' inv truncates mine kindIs promised ran => ?_
    cases ran
    have inserting : CoreInv.Inserting S (g t).role idx rec (homeUpTo S.D rec S.D.keys) := by
      rw [mine]
      exact insertRole_inserting
    have works : (rolesOf g t).slot = some idx := by
      rw [rolesOf, mine]
      exact insertRole_slot S.gran
    have after := (inv.publish inserting (by rw [mine]; rfl) fun _ _ => rfl).see (t := t)
    rw [Function.update_self, Function.update_idem] at after
    refine ⟨_, after, ?_, s.slotCount, by rw [mine]; rfl, inv.roles.below t idx works⟩
    rintro ⟨c, e, clash⟩
    cases clash
  refine Protocol.Triple.bind published ?_
  rintro _ _ ⟨count, rfl, below⟩
  have counted : CoreTriple S t kind promise
      ((Ghost.rest slots (max seen count)).viewing .published v)
      (perform (.addRecords 1)) fun _ ghost' =>
        ghost' = (Ghost.rest slots (max seen count)).viewing .idle v := by
    refine act trivial fun s kinds g result s' inv truncates mine kindIs promised ran => ?_
    cases ran
    refine ⟨_, inv.countPublished (t := t) (by rw [mine]; rfl) (by rw [mine]; rfl), ?_,
      by rw [mine]; rfl⟩
    rintro ⟨c, e, clash⟩
    cases clash
  refine Protocol.Triple.bind counted ?_
  rintro _ _ rfl
  refine Protocol.Triple.bind (unlockMutex rfl (Or.inl rfl)) ?_
  rintro _ _ rfl
  exact Protocol.Triple.ret ⟨count, rfl, rfl, below⟩

theorem insertRow_triple :
    CoreTriple S t kind promise (Ghost.rest slots seen) (fmCoreInsertRow S.D S.gran rec)
      fun result ghost' => ∃ count, ghost' = Ghost.rest slots (max seen count) ∧
        ∀ idx, result = .ok idx → idx < count := by
  have failed : ∀ {e : Err}, ∃ count, Ghost.rest slots seen =
      (Ghost.rest slots (max seen count) : Ghost n) ∧
      ∀ idx, (Except.error e : Except Err Nat) = .ok idx → idx < count :=
    ⟨0, Ghost.see_zero _, fun _ clash => by cases clash⟩
  refine Protocol.Triple.bind lockMutex ?_
  rintro _ _ ⟨free, count, rfl⟩
  refine Protocol.Triple.bind (allocSlot_triple rfl rfl rfl) fun slot ghost' outcome => ?_
  cases slot with
  | none =>
      obtain rfl := outcome
      refine Protocol.Triple.bind (unlockMutex rfl (Or.inl rfl)) ?_
      rintro _ _ rfl
      refine Protocol.Triple.bind (load .loadChunkCnt trivial) ?_
      rintro cnt _ rfl
      exact Protocol.Triple.ret failed
  | some idx =>
      obtain ⟨v, rfl⟩ := outcome
      refine Protocol.Triple.bind (memcpyFresh rfl rfl) ?_
      rintro _ _ rfl
      have linked : CoreTriple S t kind promise
          (insertGhost S slots seen v idx rec (homeUpTo S.D rec 0)) _ _ :=
        insertLinkKeys_triple S.D.keys 0 (Nat.zero_add _)
      rw [homeUpTo_zero, ← List.range_eq_range'] at linked
      refine Protocol.Triple.bind linked ?_
      rintro dup _ ⟨rfl, within⟩
      cases dup with
      | some k =>
          refine (insertRefuse_triple within).mono ?_
          rintro result _ ⟨rfl, e, rfl⟩
          exact failed
      | none =>
          refine insertPublish_triple.mono ?_
          rintro result _ ⟨count, rfl, same, below⟩
          exact ⟨count, rfl, fun other isOther => by cases same.symm.trans isOther; exact below⟩

end CoreTriple

end Fastmem
