/-
Updates under interference.

The slot lock makes the row the thread's own, the bucket locks of the changed
keys make the chains it moves between its own. Between the write of the image
and the last link the chains lag behind the image; the bucket locks hide that.
-/

import Fastmem.Concurrent.InsertTriples

set_option autoImplicit false

namespace Fastmem

open Prog (perform iterate forEach foldEach)

variable {n : Nat}

namespace CoreTriple

variable {S : Setting n} {t : Nat} {kind : Bool} {promise : (coreProtocol S).Promise}
  {ghost : Ghost n} {idx : Nat} {expectGen : UInt32} {old new : Rec n}

/-! ### Claiming the row -/

theorem loadState_claim (held : ghost.slots idx = true) (idle : ghost.role = .idle)
    (unready : ghost.ready = none) :
    CoreTriple S t kind promise ghost (perform (.loadState idx)) fun state ghost' =>
      ghost' = if state = .active then ghost.become (.live idx) else ghost := by
  refine act trivial fun s kinds g result s' inv truncates mine kindIs promised ran => ?_
  cases ran
  subst mine
  by_cases active : (s.slot idx).state = .active
  · refine ⟨_, inv.claim held active idle unready, ?_, (if_pos active).symm⟩
    rintro ⟨c, e, clash⟩
    cases clash
  · refine ⟨g t, ?_, keepKind truncates kindIs rfl rfl, (if_neg active).symm⟩
    rw [Function.update_eq_self]
    exact inv

theorem slotStale_live (held : ghost.slots idx = true) (idle : ghost.role = .idle)
    (unready : ghost.ready = none) :
    CoreTriple S t kind promise ghost (slotStale idx expectGen) fun stale ghost' =>
      ghost' = ghost.become (.live idx) ∨ (stale = true ∧ ghost' = ghost) := by
  refine Protocol.Triple.bind (loadState_claim held idle unready) ?_
  rintro state _ rfl
  by_cases active : state = .active
  swap
  · simp only [ne_eq, active, not_false_eq_true, if_true, if_false]
    exact Protocol.Triple.ret (Or.inr ⟨rfl, rfl⟩)
  simp only [ne_eq, active, not_true_eq_false, if_false, if_true]
  refine Protocol.Triple.bind (load (.loadGen idx) trivial) ?_
  rintro gen _ rfl
  exact Protocol.Triple.ret (Or.inl rfl)

def Current (S : Setting n) (promise : (coreProtocol S).Promise) (idx : Nat)
    (expectGen : UInt32) (old : Rec n) : Prop :=
  ∀ (s : Core n) (kinds : Nat → Bool) (g : Nat → Ghost n), promise (.loadGen idx) s (fun u => (kinds u, g u)) →
    (s.slot idx).state = .active → (s.slot idx).gen = expectGen → (s.slot idx).data = old

theorem slotStale_write (new : Rec n) (held : ghost.slots idx = true) (idle : ghost.role = .idle)
    (unready : ghost.ready = none) (current : S.linked → Current S promise idx expectGen old) :
    CoreTriple S t kind promise ghost (slotStale idx expectGen) fun stale ghost' =>
      if stale = true then ghost' = ghost ∨ ghost' = ghost.become (.live idx)
      else ghost' = ghost.become (.writer idx old new false false) := by
  refine Protocol.Triple.bind (loadState_claim held idle unready) ?_
  rintro state _ rfl
  by_cases active : state = .active
  swap
  · simp only [ne_eq, active, not_false_eq_true, if_true, if_false]
    exact Protocol.Triple.ret (Or.inl rfl)
  simp only [ne_eq, active, not_true_eq_false, if_false, if_true]
  have begun : CoreTriple S t kind promise (ghost.become (.live idx)) (perform (.loadGen idx))
      fun gen ghost' => ghost' = if gen = expectGen then
        ghost.become (.writer idx old new false false) else ghost.become (.live idx) := by
    refine act trivial fun s kinds g result s' inv truncates mine kindIs promised ran => ?_
    cases ran
    by_cases fits : (s.slot idx).gen = expectGen
    · have live : (g t).role = .live idx := by
        rw [mine]
        rfl
      have active := ((inv.ok t).live live).1
      have writing : CoreInv S s
          (Function.update g t ((g t).become (.writer idx old new false false))) :=
        inv.beginWrite live (by rw [mine]; exact unready)
          fun linked => current linked s kinds g promised active fits
      refine ⟨_, writing, ?_, ?_⟩
      · rintro ⟨c, e, clash⟩
        cases clash
      · rw [if_pos fits, mine]
        rfl
    · refine ⟨g t, ?_, keepKind truncates kindIs rfl rfl, ?_⟩
      · rw [Function.update_eq_self]
        exact inv
      · rw [if_neg fits, mine]
  refine Protocol.Triple.bind begun ?_
  rintro gen _ rfl
  refine Protocol.Triple.ret ?_
  by_cases fits : gen = expectGen
  · simp [fits]
  · simp [fits]

/-! ### Writing the image -/

theorem memcpyWrite (role : ghost.role = .writer idx old new true false)
    (unready : ghost.ready = none)
    (clean : S.distinct → ∀ k ∈ changedKeys S.D old new, ghost.Checked S.D k new idx)
    (own : S.distinct → ∀ k rec self, ghost.clean k = some (rec, self) → self = idx)
    (unpassed : S.distinct → ghost.passed = none) :
    CoreTriple S t kind promise ghost (memcpyIn S.gran idx new) fun _ ghost' => ∃ copied,
      ghost' = ghost.become (.writer idx old new true copied) ∧ (S.linked → copied = true) := by
  cases gran : S.gran with
  | whole =>
      refine act (Or.inr ⟨old, new, false, role⟩)
        fun s kinds g result s' inv truncates mine kindIs promised ran => ?_
      cases ran
      subst mine
      refine ⟨_, inv.copyWrite role unready clean own unpassed, ?_, true, rfl, fun _ => rfl⟩
      rintro ⟨c, e, clash⟩
      cases clash
  | bytewise =>
      have loose : ¬ S.linked := by
        intro linked
        have whole := S.whole linked
        rw [gran] at whole
        cases whole
      have same : ghost.become (.writer idx old new true false) = ghost := by
        rw [← role]
        rfl
      have bytes : CoreTriple S t kind promise ghost (memcpyIn .bytewise idx new)
          fun _ ghost' => ghost' = ghost := by
        refine Protocol.Triple.forEach (P := coreProtocol S)
          (fun _ (ghost' : Ghost n) => ghost' = ghost) ?_ rfl
        rintro at_ rest ghost rfl
        refine act (Or.inr ⟨old, new, false, role⟩)
          fun s kinds g result s' inv truncates mine kindIs promised ran => ?_
        cases ran
        subst mine
        have dirty := inv.dirtyWrite loose role unready
          (Function.update (s.slot idx).data at_ (new at_))
        rw [same] at dirty
        exact ⟨_, dirty, keepKind truncates kindIs rfl rfl, rfl⟩
      refine bytes.mono ?_
      rintro _ _ rfl
      exact ⟨false, same.symm, fun linked => absurd linked loose⟩

/-- The sequence counter is odd exactly while the image is being written. -/
theorem writeImage_triple (role : ghost.role = .writer idx old new false false)
    (unready : ghost.ready = none)
    (held : S.linked → ∀ k ∈ changedKeys S.D old new,
      (ghost.known k (fmCoreKeyBucket (S.D.keydef k) old)).isSome = true ∧
      (ghost.known k (fmCoreKeyBucket (S.D.keydef k) new)).isSome = true)
    (clean : S.distinct → ∀ k ∈ changedKeys S.D old new, ghost.Checked S.D k new idx)
    (own : S.distinct → ∀ k rec self, ghost.clean k = some (rec, self) → self = idx)
    (unpassed : S.distinct → ghost.passed = none) :
    CoreTriple S t kind promise ghost (fmCoreWriteImage S.gran idx new) fun _ ghost' =>
      ghost' = ghost.become (.mover idx old new (homeOf S.D old)) := by
  have opened : CoreTriple S t kind promise ghost (perform (.bumpSeq idx)) fun _ ghost' =>
      ghost' = ghost.become (.writer idx old new true false) := by
    refine act ⟨old, new, false, false, role⟩
      fun s kinds g result s' inv truncates mine kindIs promised ran => ?_
    cases ran
    subst mine
    refine ⟨_, inv.startWrite role unready held, ?_, rfl⟩
    rintro ⟨c, e, clash⟩
    cases clash
  refine Protocol.Triple.bind opened ?_
  rintro _ _ rfl
  refine Protocol.Triple.bind (memcpyWrite rfl unready clean own unpassed) ?_
  rintro _ _ ⟨copied, rfl, whole⟩
  refine act ⟨old, new, true, copied, rfl⟩
    fun s kinds g result s' inv truncates mine kindIs promised ran => ?_
  cases ran
  have writing : (g t).role = .writer idx old new true copied := by
    rw [mine]
    rfl
  have closed := inv.endWrite writing (by rw [mine]; exact unready) whole
  refine ⟨_, closed, ?_, by rw [mine]; rfl⟩
  rintro ⟨c, e, clash⟩
  cases clash

/-! ### The bucket locks of the changed keys -/

def scope (slots : Nat → Bool) (seen : Nat) (role : Role n)
    (known : Nat → Nat → Option (List Nat)) (clean : Nat → Option (Rec n × Nat))
    (passed : Option (Nat × Rec n × Nat × List Nat)) : Ghost n where
  slots := slots
  known := known
  mutex := none
  role := role
  ready := none
  seen := seen
  clean := clean
  passed := passed

/-- The bucket locks held are those of `pairs`. -/
def HoldsPairs (known : Nat → Nat → Option (List Nat)) (pairs : List (Nat × Nat)) : Prop :=
  ∀ k b, (known k b).isSome = true ↔ (k, b) ∈ pairs

/-- Checks were made of these keys, leaving out slot `idx`. -/
def FoundFor (clean : Nat → Option (Rec n × Nat)) (idx : Nat) (pairs : List (Nat × Nat)) : Prop :=
  ∀ k rec self, clean k = some (rec, self) → self = idx ∧ ∃ b, (k, b) ∈ pairs

section Buckets

variable {slots : Nat → Bool} {seen : Nat} {role : Role n}
  {known : Nat → Nat → Option (List Nat)} {clean : Nat → Option (Rec n × Nat)}
  {passed : Option (Nat × Rec n × Nat × List Nat)} {pairs : List (Nat × Nat)}

theorem lockBuckets_triple (uncleared : ∀ c e, role ≠ .clearer c e) (pairs : List (Nat × Nat)) :
    CoreTriple S t kind promise (scope slots seen role (fun _ _ => none) (fun _ => none) none)
      (lockBuckets pairs) fun _ ghost' => ∃ known, HoldsPairs known pairs ∧
        ghost' = scope slots seen role known (fun _ => none) none := by
  have taking : CoreTriple S t kind promise
      (scope slots seen role (fun _ _ => none) (fun _ => none) none) (lockBuckets pairs)
      fun _ ghost' => ∃ done known, done ++ [] = pairs ∧ HoldsPairs known done ∧
        ghost' = scope slots seen role known (fun _ => none) none := by
    refine Protocol.Triple.forEach (P := coreProtocol S)
      (fun rest (ghost' : Ghost n) => ∃ done known, done ++ rest = pairs ∧ HoldsPairs known done ∧
        ghost' = scope slots seen role known (fun _ => none) none) ?_ ?_
    · rintro ⟨k, b⟩ rest _ ⟨done, known, rfl, held, rfl⟩
      refine (lockBucket fun c e clash => absurd clash (uncleared c e)).mono ?_
      rintro _ _ ⟨items, rfl⟩
      refine ⟨done ++ [(k, b)], _, by simp, fun k' b' => ?_, rfl⟩
      by_cases same : k' = k ∧ b' = b
      · simp [same]
      · rw [if_neg same]
        simp only [List.mem_append, List.mem_singleton, Prod.mk.injEq, same, or_false]
        exact held k' b'
    · exact ⟨[], fun _ _ => none, rfl, fun k b => by simp, rfl⟩
  refine taking.mono ?_
  rintro _ _ ⟨done, known, all, held, same⟩
  rw [List.append_nil] at all
  exact ⟨known, all ▸ held, same⟩

theorem unlockBuckets_triple (uncleared : ∀ c e, role ≠ .clearer c e)
    (done : S.linked → role.unbound S.D) (distinct : pairs.Nodup) (held : HoldsPairs known pairs)
    (found : FoundFor clean idx pairs) (nonempty : pairs ≠ []) :
    CoreTriple S t kind promise (scope slots seen role known clean passed) (unlockBuckets pairs)
      fun _ ghost' =>
        ghost' = scope slots seen role (fun _ _ => none) (fun _ => none) none := by
  have dropping : CoreTriple S t kind promise (scope slots seen role known clean passed)
      (unlockBuckets pairs) fun _ ghost' => ([] : List (Nat × Nat)).Nodup ∧ ∃ known clean passed,
        HoldsPairs known [] ∧ FoundFor clean idx [] ∧ (passed ≠ none → [] ≠ ([] : List (Nat × Nat))) ∧
        ghost' = scope slots seen role known clean passed := by
    refine Protocol.Triple.forEach (P := coreProtocol S)
      (fun (rest : List (Nat × Nat)) (ghost' : Ghost n) => rest.Nodup ∧ ∃ known clean passed,
        HoldsPairs known rest ∧ FoundFor clean idx rest ∧ (passed ≠ none → rest ≠ []) ∧
        ghost' = scope slots seen role known clean passed) ?_ ?_
    · rintro ⟨k, b⟩ rest _ ⟨distinct, known, clean, passed, held, found, _, rfl⟩
      have mine : (scope slots seen role known clean passed).holds (.bucket k b) :=
        (held k b).mpr (List.mem_cons_self ..)
      refine (unlockBucket mine (fun c e clash => absurd clash (uncleared c e)) done rfl).mono ?_
      rintro _ _ rfl
      refine ⟨(List.nodup_cons.mp distinct).2, _, _, _, fun k' b' => ?_, fun k' rec self left => ?_,
        fun some => absurd rfl some, rfl⟩
      · by_cases same : k' = k ∧ b' = b
        · rw [if_pos same, same.1, same.2]
          simp [(List.nodup_cons.mp distinct).1]
        · rw [if_neg same]
          refine (held k' b').trans ?_
          simp [same]
      · by_cases same : k' = k
        · rw [same, Function.update_self] at left
          cases left
        · rw [Function.update_of_ne same] at left
          obtain ⟨isIdx, b', member⟩ := found k' rec self left
          rcases List.mem_cons.mp member with clash | member
          · cases clash
            exact absurd rfl same
          · exact ⟨isIdx, b', member⟩
    · refine ⟨List.nodup_reverse.mpr distinct, known, clean, passed, fun k b => ?_,
        fun k rec self left => ?_, fun _ => ?_, rfl⟩
      · rw [held k b, List.mem_reverse]
      · obtain ⟨isIdx, b, member⟩ := found k rec self left
        exact ⟨isIdx, b, List.mem_reverse.mpr member⟩
      · exact fun empty => nonempty (List.reverse_eq_nil_iff.mp empty)
  refine dropping.mono ?_
  rintro _ _ ⟨_, known, clean, passed, held, found, none, rfl⟩
  have unknown : known = fun _ _ => Option.none := by
    funext k b
    cases known' : known k b with
    | none => rfl
    | some items =>
        have member := (held k b).mp (by rw [known']; rfl)
        cases member
  have unclean : clean = fun _ => Option.none := by
    funext k
    cases clean' : clean k with
    | none => rfl
    | some pair =>
        obtain ⟨_, b, member⟩ := found k pair.1 pair.2 clean'
        cases member
  have unpassed : passed = Option.none := by
    cases passed with
    | none => rfl
    | some check => exact absurd rfl (none (by simp))
  rw [unknown, unclean, unpassed]

theorem dupCheckChanged_triple (held : HoldsPairs known pairs)
    (calm : ∀ ghost : Ghost n, ghost.role = role → ghost.Calm)
    (unhidden : S.distinct → ∀ (ghost : Ghost n) k, k ∈ changedKeys S.D old new →
      dupChecked (S.D.keydef k) new = true → Unhidden S t promise ghost k new idx) :
    ∀ (changed : List Nat) {clean : Nat → Option (Rec n × Nat)}, FoundFor clean idx pairs →
      (∀ k ∈ changed, k ∈ changedKeys S.D old new ∧
        (k, fmCoreKeyBucket (S.D.keydef k) new) ∈ pairs) →
      CoreTriple S t kind promise (scope slots seen role known clean none)
        (dupCheckChanged S.D S.gran new changed) fun dup ghost' =>
          ∃ clean' passed, FoundFor clean' idx pairs ∧
            ghost' = scope slots seen role known clean' passed ∧
            (dup = none → passed = none ∧
              (∀ k, clean k = some (new, idx) → clean' k = some (new, idx)) ∧
              ∀ k ∈ changed, dupChecked (S.D.keydef k) new = true →
                clean' k = some (new, idx)) := by
  intro changed
  induction changed with
  | nil =>
      intro clean found _
      refine Protocol.Triple.ret ⟨clean, none, found, rfl, fun _ => ⟨rfl, fun _ same => same, ?_⟩⟩
      exact fun k member => absurd member List.not_mem_nil
  | cons k rest ih =>
      intro clean found locked
      obtain ⟨isChanged, member⟩ := locked k (List.mem_cons_self ..)
      obtain ⟨items, isKnown⟩ := Option.isSome_iff_exists.mp ((held k _).mpr member)
      refine Protocol.Triple.bind (dupCheck_triple idx isKnown (calm _ rfl)
        fun distinct checked => unhidden distinct _ k isChanged checked) ?_
      intro dup ghost' outcome
      cases dup with
      | true =>
          obtain ⟨seenSlots, rfl⟩ := outcome
          exact Protocol.Triple.ret ⟨clean, _, found, rfl, fun clash => (by cases clash)⟩
      | false =>
          simp only [Bool.false_eq_true, if_false] at outcome ⊢
          -- the key is approved if it needed a check
          obtain ⟨clean', found', rfl, more, approved⟩ : ∃ clean', FoundFor clean' idx pairs ∧
              ghost' = scope slots seen role known clean' none ∧
              (∀ k', clean k' = some (new, idx) → clean' k' = some (new, idx)) ∧
              (dupChecked (S.D.keydef k) new = true → clean' k = some (new, idx)) := by
            by_cases check : dupChecked (S.D.keydef k) new = true
            · rw [if_pos check] at outcome
              refine ⟨_, ?_, outcome, fun k' before => ?_, fun _ => Function.update_self ..⟩
              · intro k' rec self left
                by_cases same : k' = k
                · rw [same, Function.update_self] at left
                  cases left
                  exact ⟨rfl, _, same ▸ member⟩
                · rw [Function.update_of_ne same] at left
                  exact found k' rec self left
              · by_cases same : k' = k
                · rw [same, Function.update_self]
                · rw [Function.update_of_ne same]
                  exact before
            · rw [if_neg check] at outcome
              exact ⟨clean, found, outcome, fun _ same => same, fun yes => absurd yes check⟩
          refine (ih found' fun k' later => locked k' (List.mem_cons_of_mem k later)).mono ?_
          rintro dup _ ⟨clean'', passed, found'', same, none⟩
          refine ⟨clean'', passed, found'', same, fun isNone => ?_⟩
          obtain ⟨unpassed, more', rest'⟩ := none isNone
          refine ⟨unpassed, fun k' before => more' k' (more k' before), fun k' later check => ?_⟩
          rcases List.mem_cons.mp later with rfl | later
          · exact more' _ (approved check)
          · exact rest' k' later check

/-! ### Moving the row -/

/-- Where an update has its row while the keys in `left` are still to be moved. -/
def Moved (S : Setting n) (old new : Rec n) (left : List Nat) (p : Nat → Option Nat) : Prop :=
  S.linked → ∀ k, p k = if k ∈ left then homeOf S.D old k else homeOf S.D new k

theorem Moved.start (S : Setting n) (old new : Rec n) :
    Moved S old new (changedKeys S.D old new) (homeOf S.D old) := by
  intro linked k
  split
  · rfl
  · rename_i unchanged
    unfold homeOf
    split
    · rename_i valid
      have equal : (S.D.keydef k).ops.cmpRecRec old new = 0 := by
        by_contra differs
        exact unchanged (mem_changedKeys.mpr ⟨valid, differs⟩)
      unfold fmCoreKeyBucket
      rw [S.hashes linked k valid old new equal]
    · rfl

theorem mover_ok {slot : Nat → Slot n} {p : Nat → Option Nat} {k : Nat} {bucket : Option Nat}
    (role : ghost.role = .mover idx old new p)
    (locked : (ghost.known k (fmCoreKeyBucket (S.D.keydef k) old)).isSome = true ∧
      (ghost.known k (fmCoreKeyBucket (S.D.keydef k) new)).isSome = true)
    (placed : ∀ b, bucket = some b → k < S.D.keys ∧ b = fmCoreKeyBucket (S.D.keydef k) new)
    (ok : RoleOk S slot ghost) :
    RoleOk S slot (ghost.become (.mover idx old new (Function.update p k bucket))) := by
  obtain ⟨active, held, rest⟩ := ok.mover role
  refine ⟨active, held, fun linked => ?_⟩
  obtain ⟨image, buckets, locks⟩ := rest linked
  refine ⟨image, fun k' b there => ?_, fun k' valid => ?_⟩
  · by_cases same : k' = k
    · rw [same, Function.update_self] at there
      rw [same]
      exact ⟨(placed b there).1, Or.inl (placed b there).2⟩
    · rw [Function.update_of_ne same] at there
      exact buckets k' b there
  · by_cases same : k' = k
    · rw [same]
      exact Or.inr locked
    · rw [Function.update_of_ne same]
      exact locks k' valid

theorem HoldsPairs.rechain {k b : Nat} {items : List Nat} (held : HoldsPairs known pairs)
    (member : (k, b) ∈ pairs) :
    HoldsPairs (fun k' b' => if k' = k ∧ b' = b then some items else known k' b') pairs := by
  intro k' b'
  dsimp only
  split
  · rename_i same
    rw [same.1, same.2]
    exact ⟨fun _ => member, fun _ => rfl⟩
  · exact held k' b'

theorem relinkChanged_triple (held : HoldsPairs known pairs)
    (locked : ∀ k ∈ changedKeys S.D old new, (k, fmCoreKeyBucket (S.D.keydef k) new) ∈ pairs ∧
      (k, fmCoreKeyBucket (S.D.keydef k) old) ∈ pairs)
    (found : FoundFor clean idx pairs)
    (opens : S.linked → ∀ (ghost : Ghost n) k, k ∈ changedKeys S.D old new →
      HeadOpen S t promise ghost k (fmCoreKeyBucket (S.D.keydef k) new) idx) :
    CoreTriple S t kind promise
      (scope slots seen (.mover idx old new (homeOf S.D old)) known clean none)
      (relinkChanged S.D old new idx (changedKeys S.D old new)) fun _ ghost' => ∃ known' p,
        HoldsPairs known' pairs ∧ (S.linked → ∀ k, p k = homeOf S.D new k) ∧
        ghost' = scope slots seen (.mover idx old new p) known' clean none := by
  have moving : CoreTriple S t kind promise
      (scope slots seen (.mover idx old new (homeOf S.D old)) known clean none)
      (relinkChanged S.D old new idx (changedKeys S.D old new)) fun _ ghost' =>
        (∀ k ∈ ([] : List Nat), k ∈ changedKeys S.D old new) ∧ ([] : List Nat).Nodup ∧
        ∃ known' p, HoldsPairs known' pairs ∧ Moved S old new [] p ∧
        ghost' = scope slots seen (.mover idx old new p) known' clean none := by
    refine Protocol.Triple.forEach (P := coreProtocol S)
      (fun (left : List Nat) (ghost' : Ghost n) =>
        (∀ k ∈ left, k ∈ changedKeys S.D old new) ∧ left.Nodup ∧
        ∃ known' p, HoldsPairs known' pairs ∧ Moved S old new left p ∧
        ghost' = scope slots seen (.mover idx old new p) known' clean none) ?_ ?_
    swap
    · exact ⟨fun _ member => member, changedKeys_nodup S.D old new, known, homeOf S.D old, held,
        Moved.start S old new, rfl⟩
    rintro k left _ ⟨changed, distinct, known, p, held, moved, rfl⟩
    have isChanged := changed k (List.mem_cons_self ..)
    have valid := (mem_changedKeys.mp isChanged).1
    obtain ⟨memberNew, memberOld⟩ := locked k isChanged
    have locks : ∀ {known' : Nat → Nat → Option (List Nat)}, HoldsPairs known' pairs →
        (known' k (fmCoreKeyBucket (S.D.keydef k) old)).isSome = true ∧
          (known' k (fmCoreKeyBucket (S.D.keydef k) new)).isSome = true :=
      fun held' => ⟨(held' k _).mpr memberOld, (held' k _).mpr memberNew⟩
    obtain ⟨items, isKnown⟩ := Option.isSome_iff_exists.mp (locks held).1
    have unlinked : CoreTriple S t kind promise
        (scope slots seen (.mover idx old new p) known clean none)
        (fmCoreChainUnlink k (fmCoreKeyBucket (S.D.keydef k) old) idx) fun _ ghost' =>
          ∃ known', HoldsPairs known' pairs ∧ ghost' =
            scope slots seen (.mover idx old new (Function.update p k none)) known' clean none := by
      refine (unlink_triple (Role.movable_mover S idx old new) rfl isKnown (fun linked => ?_)
        fun slot ok => mover_ok rfl (locks held) (fun _ clash => (by cases clash)) ok).mono ?_
      · right
        rw [moved linked k, if_pos (List.mem_cons_self ..)]
        exact if_pos valid
      · rintro _ _ ⟨items', rfl⟩
        exact ⟨_, held.rechain memberOld, rfl⟩
    refine Protocol.Triple.bind unlinked ?_
    rintro _ _ ⟨known', held', rfl⟩
    obtain ⟨items', isKnown'⟩ := Option.isSome_iff_exists.mp (locks held').2
    refine (link_triple (Role.movable_mover S idx old new) rfl isKnown'
      (fun _ => Function.update_self ..) (fun linked => opens linked _ k isChanged)
      (fun slot ok => mover_ok rfl (locks held') (fun b same => ?_) ok)
      (fun _ _ clash => (by cases clash)) (fun _ k' rec self left => (found k' rec self left).1)
      fun _ _ _ _ _ clash => (by cases clash)).mono ?_
    · cases same
      exact ⟨valid, rfl⟩
    rintro _ _ rfl
    refine ⟨fun k' later => changed k' (List.mem_cons_of_mem k later),
      (List.nodup_cons.mp distinct).2, _, _, held'.rechain memberNew, fun linked k' => ?_, rfl⟩
    rw [Function.update_idem]
    by_cases same : k' = k
    · rw [same, Function.update_self, if_neg (List.nodup_cons.mp distinct).1]
      exact (if_pos valid).symm
    · rw [Function.update_of_ne same, moved linked k']
      simp only [List.mem_cons, same, false_or]
  refine moving.mono ?_
  rintro _ _ ⟨_, _, known', p, held', moved, same⟩
  exact ⟨known', p, held', moved, same⟩

/-- What a writer of any row relies on: its duplicate checks overlook no equal row, and no
truncation has emptied the buckets it links into. -/
structure MayMove (S : Setting n) (t : Nat) (promise : (coreProtocol S).Promise) (idx : Nat)
    (old new : Rec n) : Prop where
  unhidden : S.distinct → ∀ (ghost : Ghost n) k, k ∈ changedKeys S.D old new →
    dupChecked (S.D.keydef k) new = true → Unhidden S t promise ghost k new idx
  opens : S.linked → ∀ (ghost : Ghost n) k, k ∈ changedKeys S.D old new →
    HeadOpen S t promise ghost k (fmCoreKeyBucket (S.D.keydef k) new) idx

theorem locksetMembers (old new : Rec n) : ∀ k ∈ changedKeys S.D old new,
    (k, fmCoreKeyBucket (S.D.keydef k) new) ∈ lockset S.D old new (changedKeys S.D old new) ∧
    (k, fmCoreKeyBucket (S.D.keydef k) old) ∈ lockset S.D old new (changedKeys S.D old new) :=
  fun k changed => ⟨mem_lockset.mpr ⟨k, changed, Or.inl rfl⟩, mem_lockset.mpr ⟨k, changed, Or.inr rfl⟩⟩

theorem lockset_nonempty (changed : changedKeys S.D old new ≠ []) :
    lockset S.D old new (changedKeys S.D old new) ≠ [] := by
  obtain ⟨k, member⟩ := List.exists_mem_of_ne_nil _ changed
  exact List.ne_nil_of_mem (locksetMembers old new k member).1

theorem writeMoved_triple {γ : Type} {after : CoreProg n γ} {post : γ → Ghost n → Prop}
    (mayMove : MayMove S t promise idx old new)
    (held : HoldsPairs known (lockset S.D old new (changedKeys S.D old new)))
    (found : FoundFor clean idx (lockset S.D old new (changedKeys S.D old new)))
    (approved : ∀ k ∈ changedKeys S.D old new, dupChecked (S.D.keydef k) new = true →
      clean k = some (new, idx))
    (rest : ∀ known p, HoldsPairs known (lockset S.D old new (changedKeys S.D old new)) →
      (S.linked → ∀ k, p k = homeOf S.D new k) →
      CoreTriple S t kind promise (scope slots seen (.mover idx old new p) known clean none)
        after post) :
    CoreTriple S t kind promise
      (scope slots seen (.writer idx old new false false) known clean none)
      (do fmCoreWriteImage S.gran idx new
          relinkChanged S.D old new idx (changedKeys S.D old new)
          after) post := by
  have members := locksetMembers (S := S) old new
  refine Protocol.Triple.bind (writeImage_triple rfl rfl ?_ ?_ ?_ fun _ => rfl) ?_
  · exact fun _ k changed => ⟨(held k _).mpr (members k changed).2,
      (held k _).mpr (members k changed).1⟩
  · exact fun _ k changed => ⟨(held k _).mpr (members k changed).1, approved k changed⟩
  · exact fun _ k rec self left => (found k rec self left).1
  rintro _ _ rfl
  refine Protocol.Triple.bind (relinkChanged_triple held members found mayMove.opens) ?_
  rintro _ _ ⟨known', p, held', moved, rfl⟩
  exact rest known' p held' moved

theorem mover_unbound {p : Nat → Option Nat} (moved : S.linked → ∀ k, p k = homeOf S.D new k) :
    S.linked → (Role.mover idx old new p).unbound S.D := by
  intro linked k valid
  rw [moved linked k]
  exact if_pos valid

theorem writePlain_triple (unchanged : changedKeys S.D old new = []) :
    CoreTriple S t kind promise
      (scope slots seen (.writer idx old new false false) (fun _ _ => none) (fun _ => none) none)
      (fmCoreWriteImage S.gran idx new) fun _ ghost' => ∃ p,
        (S.linked → ∀ k, p k = homeOf S.D new k) ∧ ghost' =
          scope slots seen (.mover idx old new p) (fun _ _ => none) (fun _ => none) none := by
  refine (writeImage_triple rfl rfl ?_ ?_ ?_ fun _ => rfl).mono ?_
  · intro _ k changed
    rw [unchanged] at changed
    cases changed
  · intro _ k changed
    rw [unchanged] at changed
    cases changed
  · intro _ k rec self clash
    cases clash
  rintro _ _ rfl
  refine ⟨homeOf S.D old, fun linked k => ?_, rfl⟩
  have moved := Moved.start S old new linked k
  rw [unchanged, if_neg List.not_mem_nil] at moved
  exact moved

theorem updateRowLocked_triple (holds : slots idx = true)
    (current : S.linked → Current S promise idx expectGen old)
    (mayMove : MayMove S t promise idx old new) :
    CoreTriple S t kind promise (Ghost.rest slots seen)
      (fmCoreUpdateRowLocked S.D S.gran idx expectGen old new) fun _ ghost' => ∃ role,
        ghost' = (Ghost.rest slots seen).become role ∧
          (role = .idle ∨ role.settled S.D S.linked idx) := by
  refine Protocol.Triple.bind (slotStale_write new holds rfl rfl current)
    fun stale ghost' outcome => ?_
  cases stale with
  | true =>
      refine Protocol.Triple.ret ?_
      rcases outcome with rfl | rfl
      · exact ⟨.idle, rfl, Or.inl rfl⟩
      · exact ⟨.live idx, rfl, Or.inr (Or.inl rfl)⟩
  | false =>
      simp only [Bool.false_eq_true, if_false] at outcome ⊢
      obtain rfl := outcome
      by_cases unchanged : changedKeys S.D old new = []
      · simp only [unchanged, if_true]
        refine Protocol.Triple.bind (writePlain_triple unchanged) ?_
        rintro _ _ ⟨p, moved, rfl⟩
        exact Protocol.Triple.ret ⟨_, rfl, Or.inr (Or.inr (Or.inr ⟨old, new, p, rfl, moved⟩))⟩
      · simp only [unchanged, if_false]
        refine Protocol.Triple.bind (lockBuckets_triple (fun _ _ clash => (by cases clash)) _) ?_
        rintro _ _ ⟨known, held, rfl⟩
        refine Protocol.Triple.bind (dupCheckChanged_triple held ?_ mayMove.unhidden _
          (fun _ _ _ clash => (by cases clash))
          fun k changed => ⟨changed, (locksetMembers old new k changed).1⟩) ?_
        · intro ghost role
          exact ⟨fun _ _ _ _ clash => (by cases role.symm.trans clash),
            fun _ _ _ _ clash => (by cases role.symm.trans clash)⟩
        rintro dup _ ⟨clean, passed, found, rfl, none⟩
        cases dup with
        | some k =>
            refine Protocol.Triple.bind (unlockBuckets_triple (fun _ _ clash => (by cases clash))
              (fun _ => rfl) (lockset_nodup ..) held found (lockset_nonempty unchanged)) ?_
            rintro _ _ rfl
            exact Protocol.Triple.ret ⟨_, rfl, Or.inr (Or.inr (Or.inl ⟨old, new, rfl⟩))⟩
        | none =>
            obtain ⟨rfl, _, approved⟩ := none rfl
            refine writeMoved_triple mayMove held found approved fun known p held moved => ?_
            refine Protocol.Triple.bind (unlockBuckets_triple (fun _ _ clash => (by cases clash))
              (mover_unbound moved) (lockset_nodup ..) held found (lockset_nonempty unchanged)) ?_
            rintro _ _ rfl
            exact Protocol.Triple.ret ⟨_, rfl, Or.inr (Or.inr (Or.inr ⟨old, new, p, rfl, moved⟩))⟩

theorem unlockRow (free : slots idx = false)
    (ended : role = .idle ∨ role.settled S.D S.linked idx) :
    CoreTriple S t kind promise
      (scope (Function.update slots idx true) seen role known clean passed)
      (perform (.unlock (.wlock idx))) fun _ ghost' =>
        ghost' = scope slots seen .idle known clean passed := by
  have restored : Function.update (Function.update slots idx true) idx false = slots := by
    rw [Function.update_idem, ← free, Function.update_eq_self]
  have held : (scope (Function.update slots idx true) seen role known clean passed).slots idx =
      true := Function.update_self ..
  have dropped : CoreTriple S t kind promise
      (scope (Function.update slots idx true) seen role known clean passed)
      (perform (.unlock (.wlock idx))) fun _ ghost' => ghost' =
        scope (Function.update (Function.update slots idx true) idx false) seen .idle known clean
          passed := by
    rcases ended with rfl | settled
    · exact unlockSlot held fun clash => (by cases clash)
    · exact unlockSettled settled held rfl
  rw [restored] at dropped
  exact dropped

theorem updateRow_triple (below : idx < seen)
    (current : S.linked → Current S promise idx expectGen old)
    (mayMove : MayMove S t promise idx old new) :
    CoreTriple S t kind promise (Ghost.rest slots seen)
      (fmCoreUpdateRow S.D S.gran idx expectGen old new) fun _ ghost' =>
        ghost' = Ghost.rest slots seen := by
  unfold fmCoreUpdateRow
  by_cases unchanged : changedKeys S.D old new = []
  · simp only [unchanged, if_true]
    refine Protocol.Triple.bind (lockSlot (Or.inl below)) ?_
    rintro _ _ ⟨free, rfl⟩
    refine Protocol.Triple.bind (slotStale_write new (Function.update_self ..) rfl rfl current)
      fun stale ghost' outcome => ?_
    cases stale with
    | true =>
        obtain ⟨role, rfl, ended⟩ : ∃ role, ghost' = scope (Function.update slots idx true) seen role
            (fun _ _ => none) (fun _ => none) none ∧
            (role = .idle ∨ role.settled S.D S.linked idx) := by
          rcases outcome with rfl | rfl
          · exact ⟨.idle, rfl, Or.inl rfl⟩
          · exact ⟨.live idx, rfl, Or.inr (Or.inl rfl)⟩
        refine Protocol.Triple.bind (unlockRow free ended) ?_
        rintro _ _ rfl
        exact Protocol.Triple.ret rfl
    | false =>
        simp only [Bool.false_eq_true, if_false] at outcome ⊢
        obtain rfl := outcome
        refine Protocol.Triple.bind (writePlain_triple unchanged) ?_
        rintro _ _ ⟨p, moved, rfl⟩
        refine Protocol.Triple.bind
          (unlockRow free (Or.inr (Or.inr (Or.inr ⟨old, new, p, rfl, moved⟩)))) ?_
        rintro _ _ rfl
        exact Protocol.Triple.ret rfl
  · simp only [unchanged, if_false]
    refine Protocol.Triple.bind (lockBuckets_triple (fun _ _ clash => (by cases clash)) _) ?_
    rintro _ _ ⟨known, held, rfl⟩
    refine Protocol.Triple.bind (dupCheckChanged_triple held (fun _ role => idle_calm role)
      mayMove.unhidden _ (fun _ _ _ clash => (by cases clash))
      fun k changed => ⟨changed, (locksetMembers old new k changed).1⟩) ?_
    rintro dup _ ⟨clean, passed, found, rfl, none⟩
    cases dup with
    | some k =>
        refine Protocol.Triple.bind (unlockBuckets_triple (fun _ _ clash => (by cases clash))
          (fun _ => trivial) (lockset_nodup ..) held found (lockset_nonempty unchanged)) ?_
        rintro _ _ rfl
        exact Protocol.Triple.ret rfl
    | none =>
        obtain ⟨rfl, _, approved⟩ := none rfl
        refine Protocol.Triple.bind (lockSlot (Or.inl below)) ?_
        rintro _ _ ⟨free, rfl⟩
        refine Protocol.Triple.bind (slotStale_write new (Function.update_self ..) rfl rfl current)
          fun stale ghost' outcome => ?_
        cases stale with
        | true =>
            obtain ⟨role, rfl, ended⟩ : ∃ role, ghost' = scope (Function.update slots idx true) seen
                role known clean Option.none ∧ (role = .idle ∨ role.settled S.D S.linked idx) := by
              rcases outcome with rfl | rfl
              · exact ⟨.idle, rfl, Or.inl rfl⟩
              · exact ⟨.live idx, rfl, Or.inr (Or.inl rfl)⟩
            refine Protocol.Triple.bind (unlockRow free ended) ?_
            rintro _ _ rfl
            refine Protocol.Triple.bind (unlockBuckets_triple (fun _ _ clash => (by cases clash))
              (fun _ => trivial) (lockset_nodup ..) held found (lockset_nonempty unchanged)) ?_
            rintro _ _ rfl
            exact Protocol.Triple.ret rfl
        | false =>
            simp only [Bool.false_eq_true, if_false] at outcome ⊢
            obtain rfl := outcome
            refine writeMoved_triple mayMove held found approved fun known p held moved => ?_
            refine Protocol.Triple.bind
              (unlockRow free (Or.inr (Or.inr (Or.inr ⟨old, new, p, rfl, moved⟩)))) ?_
            rintro _ _ rfl
            refine Protocol.Triple.bind (unlockBuckets_triple (fun _ _ clash => (by cases clash))
              (fun _ => trivial) (lockset_nodup ..) held found (lockset_nonempty unchanged)) ?_
            rintro _ _ rfl
            exact Protocol.Triple.ret rfl

end Buckets

end CoreTriple

end Fastmem
