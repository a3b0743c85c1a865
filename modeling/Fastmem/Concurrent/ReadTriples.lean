/-
Readers and chain walks under interference.

A reader changes nothing and needs nothing. A walk along a chain whose bucket
lock the thread holds visits the slots the thread knows to be in it, whatever
the other threads do: nobody else stores to the cells of that chain.
-/

import Fastmem.Concurrent.CoreProtocol

set_option autoImplicit false

namespace Fastmem

open Prog (perform iterate forEach foldEach)

variable {n : Nat}

def Act.Loads {ρ : Type} : Act n ρ → Prop
  | .loadState _ | .loadGen _ | .loadSeq _ | .loadData _ | .loadByte _ _ | .loadCell _
  | .loadChunkCnt => True
  | _ => False

theorem Act.Loads.same {ρ : Type} {action : Act n ρ} (loads : action.Loads) {t : Nat}
    {s s' : Core n} {result : ρ} (ran : Act.exec t action s = some (result, s')) : s' = s := by
  cases action <;> first | exact loads.elim | (cases ran; rfl)

theorem Act.Loads.permits {ρ : Type} {action : Act n ρ} (loads : action.Loads) (S : Setting n)
    (ghost : Ghost n) : Permits S ghost action := by
  cases action <;> first | exact loads.elim | trivial

namespace CoreTriple

variable {S : Setting n} {t : Nat} {kind : Bool} {promise : (coreProtocol S).Promise}
  {ghost : Ghost n} {α β ρ : Type} {idx : Nat}

theorem load (action : Act n ρ) (loads : action.Loads) :
    CoreTriple S t kind promise ghost (perform action) fun _ ghost' => ghost' = ghost :=
  read (loads.permits S ghost) (fun _ _ _ ran => loads.same ran) fun _ _ _ _ _ _ _ _ => rfl

theorem loadFact (action : Act n ρ) (loads : action.Loads) (fact : ρ → Prop)
    (facts : ∀ s (kinds : Nat → Bool) g result, CoreInv S s g → g t = ghost →
      promise action s (fun u => (kinds u, g u)) → Act.exec t action s = some (result, s) →
      fact result) :
    CoreTriple S t kind promise ghost (perform action)
      fun result ghost' => fact result ∧ ghost' = ghost :=
  read (loads.permits S ghost) (fun _ _ _ ran => loads.same ran)
    fun s kinds g result inv mine promised ran =>
      ⟨facts s kinds g result inv mine promised ran, rfl⟩

theorem loadState_sees :
    CoreTriple S t kind promise ghost (perform (.loadState idx)) fun result ghost' =>
      ∃ count, ghost' = ghost.see count ∧ (result = .active → idx < count) := by
  refine act trivial fun s kinds g result s' inv truncates mine kindIs _ ran => ?_
  cases ran
  subst mine
  refine ⟨_, inv.see, ?_, s.slotCount, rfl, inv.roles.active idx⟩
  intro truncating
  exact kindIs ▸ truncates t truncating

/-! ### Row reads -/

theorem memcpyOut_same (gran : Gran) :
    CoreTriple S t kind promise ghost (memcpyOut gran idx) fun _ ghost' => ghost' = ghost := by
  cases gran with
  | whole => exact load (.loadData idx) trivial
  | bytewise =>
      refine (Protocol.Triple.foldEach (P := coreProtocol S)
        (fun _ _ (ghost' : Ghost n) => ghost' = ghost) ?_ rfl)
      rintro at_ rest buf _ rfl
      exact Protocol.Triple.bind (load (.loadByte idx at_) trivial)
        fun _ _ same => Protocol.Triple.ret same

def copyOutcome (again : Ghost n → Prop) (post : Except Err (Rec n) → Ghost n → Prop) :
    Option (Rec n) → Ghost n → Prop
  | none, ghost => again ghost
  | some buf, ghost => post (.ok buf) ghost

/-- The rule for a row read. `I` holds at the start of every round, `K` from an ACTIVE state
to the copy, `J` after it. -/
theorem readRow_rule {gran : Gran} {checkGen : Bool} {expectGen : UInt32}
    {post : Except Err (Rec n) → Ghost n → Prop} (I K : Ghost n → Prop)
    (J : Rec n → Ghost n → Prop)
    (state : ∀ ghost, I ghost → CoreTriple S t kind promise ghost (perform (.loadState idx))
      fun result ghost' => if result = .active then K ghost' else post (.error .deleted) ghost')
    (gen : ∀ ghost, K ghost → checkGen = true →
      CoreTriple S t kind promise ghost (perform (.loadGen idx))
      fun result ghost' => if result = expectGen then K ghost' else post (.error .deleted) ghost')
    (again : ∀ ghost, K ghost → I ghost)
    (copy : ∀ ghost, K ghost → CoreTriple S t kind promise ghost (memcpyOut gran idx) J)
    (keeps : ∀ buf ghost, J buf ghost → I ghost ∧ post (.ok buf) ghost)
    (initially : I ghost) :
    CoreTriple S t kind promise ghost (fmCoreReadRow gran idx checkGen expectGen) post := by
  refine Protocol.Triple.iterate (fun _ => I) (fun _ ghost holds => ?_) initially
  refine Protocol.Triple.bind (state ghost holds) fun result ghost holds => ?_
  by_cases active : result = .active
  swap
  · rw [if_neg active] at holds
    simp only [ne_eq, active, not_false_eq_true, if_true]
    exact Protocol.Triple.ret holds
  rw [if_pos active] at holds
  simp only [ne_eq, active, not_true_eq_false, if_false]
  have mismatch : CoreTriple S t kind promise ghost
      (genMismatch idx checkGen expectGen : CoreProg n Bool)
      fun result ghost' => if result = true then post (.error .deleted) ghost' else K ghost' := by
    unfold genMismatch
    cases checked : checkGen with
    | false => exact Protocol.Triple.ret (by simpa using holds)
    | true =>
        refine Protocol.Triple.bind (gen ghost holds checked) fun result ghost' outcome => ?_
        refine Protocol.Triple.ret ?_
        by_cases same : result = expectGen
        · rw [if_pos same] at outcome
          simpa [same] using outcome
        · rw [if_neg same] at outcome
          simpa [same] using outcome
  refine Protocol.Triple.bind mismatch fun result ghost outcome => ?_
  cases result with
  | true => exact Protocol.Triple.ret (by simpa using outcome)
  | false =>
      have holds : K ghost := by simpa using outcome
      have copied : CoreTriple S t kind promise ghost (seqlockCopy gran idx)
          (copyOutcome I post) := by
        refine Protocol.Triple.bind (load (.loadSeq idx) trivial) fun s1 _ same => ?_
        subst same
        by_cases odd : s1 % 2 = 1
        · simp only [odd, if_true]
          exact Protocol.Triple.ret (again _ holds)
        · simp only [odd, if_false]
          refine Protocol.Triple.bind (copy _ holds) fun buf ghost' after => ?_
          refine Protocol.Triple.bind (load (.loadSeq idx) trivial) fun s2 _ same => ?_
          subst same
          by_cases changed : s2 = s1
          · simp only [changed, ne_eq, not_true_eq_false, if_false]
            exact Protocol.Triple.ret (keeps buf _ after).2
          · simp only [changed, ne_eq, not_false_eq_true, if_true]
            exact Protocol.Triple.ret (keeps buf _ after).1
      refine Protocol.Triple.bind copied fun result ghost' outcome => ?_
      cases result with
      | none => exact Protocol.Triple.ret outcome
      | some buf => exact Protocol.Triple.ret outcome

theorem readRow_same {gran : Gran} {checkGen : Bool} {expectGen : UInt32} :
    CoreTriple S t kind promise ghost (fmCoreReadRow gran idx checkGen expectGen)
      fun _ ghost' => ghost' = ghost := by
  refine readRow_rule (fun ghost' => ghost' = ghost) (fun ghost' => ghost' = ghost)
    (fun _ ghost' => ghost' = ghost) ?_ ?_ (fun _ same => same) ?_ (fun _ _ same => ⟨same, same⟩) rfl
  · rintro _ rfl
    exact (load (n := n) (.loadState idx) trivial).mono fun _ _ same => by
      split <;> exact same
  · rintro _ rfl _
    exact (load (n := n) (.loadGen idx) trivial).mono fun _ _ same => by
      split <;> exact same
  · rintro _ rfl
    exact memcpyOut_same gran

theorem readPassing_same {gran : Gran} {test : Rec n → Bool} :
    CoreTriple S t kind promise ghost (readPassing gran idx test)
      fun _ ghost' => ghost' = ghost := by
  refine Protocol.Triple.bind readRow_same fun row _ same => ?_
  cases row with
  | ok buf => exact Protocol.Triple.ret same
  | error e => exact Protocol.Triple.ret same

theorem readRow_sees {gran : Gran} {checkGen : Bool} {expectGen : UInt32} :
    CoreTriple S t kind promise ghost (fmCoreReadRow gran idx checkGen expectGen)
      fun row ghost' => ∃ count, ghost' = ghost.see count ∧
        (∀ buf, row = .ok buf → idx < count) := by
  refine readRow_rule (fun ghost' => ∃ count, ghost' = ghost.see count)
    (fun ghost' => ∃ count, ghost' = ghost.see count ∧ idx < count)
    (fun _ ghost' => ∃ count, ghost' = ghost.see count ∧ idx < count) ?_ ?_ ?_ ?_ ?_
    ⟨0, Ghost.see_zero _⟩
  · rintro _ ⟨first, rfl⟩
    refine loadState_sees.mono ?_
    rintro result _ ⟨second, rfl, below⟩
    rw [Ghost.see_see]
    split
    · rename_i active
      exact ⟨_, rfl, Nat.lt_of_lt_of_le (below active) (Nat.le_max_right first second)⟩
    · exact ⟨_, rfl, fun _ clash => by cases clash⟩
  · rintro _ ⟨count, rfl, below⟩ _
    refine (load (n := n) (.loadGen idx) trivial).mono fun result ghost' same => ?_
    split
    · exact ⟨count, same, below⟩
    · exact ⟨count, same, fun _ clash => by cases clash⟩
  · rintro _ ⟨count, rfl, _⟩
    exact ⟨count, rfl⟩
  · rintro _ ⟨count, rfl, below⟩
    exact (memcpyOut_same gran).mono fun _ _ same => ⟨count, same, below⟩
  · rintro buf _ ⟨count, rfl, below⟩
    exact ⟨⟨count, rfl⟩, count, rfl, fun _ _ => below⟩

theorem scanNext_sees {gran : Gran} {pos : Nat} :
    CoreTriple S t kind promise ghost (fmCoreScanNext gran pos)
      fun outcome ghost' => ∃ count, ghost' = ghost.see count ∧
        (∀ buf, outcome.2 = .ok buf → outcome.1 - 1 < count) := by
  refine Protocol.Triple.bind (load .loadChunkCnt trivial) fun cnt ghost' same => ?_
  rw [same]
  refine Protocol.Triple.iterate (fun _ ghost' => ∃ count, ghost' = ghost.see count) ?_
    ⟨0, Ghost.see_zero _⟩
  rintro at_ _ ⟨first, rfl⟩
  unfold scanRound
  split
  · refine Protocol.Triple.bind readRow_sees ?_
    rintro row _ ⟨second, rfl, below⟩
    rw [Ghost.see_see]
    cases row with
    | ok buf =>
        refine Protocol.Triple.ret ⟨_, rfl, fun _ _ => ?_⟩
        rw [Nat.add_sub_cancel]
        exact Nat.lt_of_lt_of_le (below buf rfl) (Nat.le_max_right first second)
    | error e => exact Protocol.Triple.ret ⟨_, rfl⟩
  · exact Protocol.Triple.ret ⟨first, rfl, fun _ clash => by cases clash⟩

/-! ### Point lookups -/

/-- In every state in which the thread acts, slot `r` holds a row that matches the packed
key, and no truncation runs. -/
def Stays (S : Setting n) (promise : (coreProtocol S).Promise) (key : Nat) (packed : PackedKey)
    (r : Nat) : Prop :=
  ∀ ⦃ρ : Type⦄ (action : Act n ρ) (s : Core n) (kinds : Nat → Bool) (g : Nat → Ghost n),
    promise action s (fun u => (kinds u, g u)) → (s.slot r).state = .active ∧
      (S.D.keydef key).ops.cmpRecKey (s.slot r).data packed = 0 ∧ ∀ u, (g u).Truncates → False

/-- A row that stays passes the test of a lookup; a row that passes it is in an allocated
slot. -/
theorem readPassing_finds (key : Nat) (packed : PackedKey) {test : Rec n → Bool}
    (tests : ∀ buf, (S.D.keydef key).ops.cmpRecKey buf packed = 0 → test buf = true) :
    CoreTriple S t kind promise ghost (readPassing S.gran idx test) fun result ghost' =>
      ∃ count, ghost' = ghost.see count ∧ (∀ buf, result = some buf → idx < count) ∧
        (result = none → S.gran = .whole → ¬ Stays S promise key packed idx) := by
  have row : CoreTriple S t kind promise ghost (fmCoreReadRow S.gran idx false 0)
      fun result ghost' => ∃ count, ghost' = ghost.see count ∧
        (∀ buf, result = .ok buf → idx < count) ∧
        (S.gran = .whole → Stays S promise key packed idx →
          ∃ buf, result = .ok buf ∧ test buf = true) := by
    refine readRow_rule (fun ghost' => ∃ count, ghost' = ghost.see count)
      (fun ghost' => ∃ count, ghost' = ghost.see count ∧ idx < count)
      (fun buf ghost' => ∃ count, ghost' = ghost.see count ∧ idx < count ∧
        (S.gran = .whole → Stays S promise key packed idx → test buf = true)) ?_ ?_ ?_ ?_ ?_
      ⟨0, Ghost.see_zero _⟩
    · rintro _ ⟨first, rfl⟩
      refine act trivial fun s kinds g result s' inv truncates mine kindIs promised ran => ?_
      cases ran
      refine ⟨_, inv.see, fun truncating => kindIs ▸ truncates t truncating, ?_⟩
      rw [mine, Ghost.see_see]
      split
      · rename_i active
        exact ⟨_, rfl, Nat.lt_of_lt_of_le (inv.roles.active idx active)
          (Nat.le_max_right first s.slotCount)⟩
      · rename_i notActive
        exact ⟨_, rfl, fun _ clash => (by cases clash),
          fun _ stays => absurd (stays _ s kinds g promised).1 notActive⟩
    · intro _ _ impossible
      cases impossible
    · rintro _ ⟨count, rfl, _⟩
      exact ⟨count, rfl⟩
    · rintro _ ⟨count, rfl, below⟩
      cases gran : S.gran with
      | whole =>
          refine (loadFact (n := n) (.loadData idx) trivial
            (fun buf => Stays S promise key packed idx → test buf = true)
            fun s kinds g result _ _ promised ran => ?_).mono fun result _ outcome =>
              ⟨count, outcome.2, below, fun _ => outcome.1⟩
          intro stays
          cases ran
          exact tests _ (stays _ s kinds g promised).2.1
      | bytewise =>
          exact (memcpyOut_same .bytewise).mono fun _ _ same =>
            ⟨count, same, below, fun clash => by cases clash⟩
    · rintro buf _ ⟨count, rfl, below, passes⟩
      exact ⟨⟨count, rfl⟩, count, rfl, fun _ _ => below,
        fun whole stays => ⟨buf, rfl, passes whole stays⟩⟩
  refine Protocol.Triple.bind row ?_
  rintro result _ ⟨count, rfl, below, passes⟩
  cases result with
  | ok buf =>
      refine Protocol.Triple.ret ⟨count, rfl, fun _ _ => below buf rfl, fun refused whole stays => ?_⟩
      obtain ⟨buf', equal, passing⟩ := passes whole stays
      cases equal
      simp [passing] at refused
  | error e =>
      refine Protocol.Triple.ret ⟨count, rfl, fun _ clash => (by cases clash),
        fun _ whole stays => ?_⟩
      obtain ⟨buf', impossible, _⟩ := passes whole stays
      cases impossible

/-- A chain walk has not come past slot `r` yet. -/
def Ahead (items : List Nat) (h : Option Nat) (r : Nat) : Prop :=
  ∃ before after, items = before ++ after ∧ h = after.head? ∧ r ∈ after

theorem Ahead.head {items : List Nat} {r : Nat} (member : r ∈ items) :
    Ahead items items.head? r :=
  ⟨[], items, rfl, rfl, member⟩

theorem Ahead.not_none {items : List Nat} {r : Nat} : ¬ Ahead items none r := by
  rintro ⟨before, after, _, empty, member⟩
  cases after with
  | nil => cases member
  | cons first rest => cases empty

theorem Ahead.next {items : List Nat} {idx r : Nat} {next : Option Nat}
    (ahead : Ahead items (some idx) r) (different : r ≠ idx)
    (loaded : ∀ before after, items = before ++ idx :: after → next = after.head?) :
    Ahead items next r := by
  obtain ⟨before, after, split, head, member⟩ := ahead
  cases after with
  | nil => cases member
  | cons first rest =>
      cases head
      refine ⟨before ++ [idx], rest, ?_, loaded before rest split, ?_⟩
      · rw [split, List.append_assoc]
        rfl
      · exact (List.mem_cons.mp member).resolve_left different

theorem loadNext {k b : Nat} {items : List Nat} (known : ghost.known k b = some items) :
    CoreTriple S t kind promise ghost (perform (.loadCell (.next k idx))) fun next ghost' =>
      (S.linked → ∀ before after, items = before ++ idx :: after → next = after.head?) ∧
        ghost' = ghost := by
  refine loadFact (n := n) (.loadCell (.next k idx)) trivial _
    fun s kinds g result inv mine _ ran => ?_
  intro linked before after split
  cases ran
  subst mine split
  exact inv.knownNext linked known

theorem loadHead {k : Nat} {items : List Nat} {packed : PackedKey}
    (known : ghost.known k (fmBucket (S.D.keydef k) ((S.D.keydef k).ops.hashKey packed)) =
      some items) (calm : ghost.Calm) :
    CoreTriple S t kind promise ghost (perform (.loadCell
      (.head k (fmBucket (S.D.keydef k) ((S.D.keydef k).ops.hashKey packed)))))
      fun head ghost' => (S.linked → PackedAgrees S.D k packed → ∀ r,
        Stays S promise k packed r → Ahead items head r) ∧ ghost' = ghost := by
  refine loadFact (n := n) (.loadCell
    (.head k (fmBucket (S.D.keydef k) ((S.D.keydef k).ops.hashKey packed)))) trivial _
    fun s kinds g result inv mine promised ran => ?_
  intro linked agrees r stays
  cases ran
  subst mine
  obtain ⟨active, equal, untruncated⟩ := stays _ s kinds g promised
  have bucket : fmCoreKeyBucket (S.D.keydef k) (s.slot r).data =
      fmBucket (S.D.keydef k) ((S.D.keydef k).ops.hashKey packed) := by
    unfold fmCoreKeyBucket
    rw [agrees.2 _ equal]
  have unemptied : ¬ Emptied (rolesOf g) k
      (fmBucket (S.D.keydef k) ((S.D.keydef k).ops.hashKey packed)) := by
    rintro ⟨u, c, e, role, _⟩
    exact untruncated u ⟨c, e, role⟩
  rw [inv.knownHead linked known]
  exact Ahead.head (inv.occupies_chained linked agrees.1 calm known unemptied
    (Or.inl ⟨active, rfl⟩) bucket)

theorem dropBucket_eq (before : Ghost n) {k b : Nat} (slots : ghost.slots = before.slots)
    (known : ∀ k' b', ¬ (k' = k ∧ b' = b) → ghost.known k' b' = before.known k' b')
    (mutex : ghost.mutex = before.mutex) (ready : ghost.ready = before.ready)
    (seen : ghost.seen = before.seen) (clean : ∀ k', k' ≠ k → ghost.clean k' = before.clean k')
    (unknown : before.known k b = none) (unclean : before.clean k = none)
    (unpassed : before.passed = none) : ghost.dropBucket k b = before.become ghost.role := by
  unfold Ghost.dropBucket Ghost.become
  rw [slots, mutex, ready, seen, unpassed]
  congr 1
  · funext k' b'
    split
    · rename_i same
      rw [same.1, same.2, unknown]
    · rename_i different
      exact known k' b' different
  · funext k'
    by_cases same : k' = k
    · rw [same, Function.update_self, unclean]
    · rw [Function.update_of_ne same, clean k' same]

variable {slots : Nat → Bool} {seen key : Nat} {packed : PackedKey}

theorem idle_calm (idle : ghost.role = .idle) : ghost.Calm :=
  ⟨fun _ _ _ _ clash => (by cases idle.symm.trans clash),
    fun _ _ _ _ clash => (by cases idle.symm.trans clash)⟩

theorem underBucket {k b : Nat} (body : CoreProg n α) {post : α → Nat → Prop}
    (inside : ∀ items, CoreTriple S t kind promise
      ((Ghost.rest slots seen : Ghost n).takeBucket k b items) body
      fun result ghost' => ∃ count,
        ghost' = ((Ghost.rest slots seen).takeBucket k b items).see count ∧ post result count) :
    CoreTriple S t kind promise (Ghost.rest slots seen)
      (do perform (.lock (.bucket k b)); let result ← body; perform (.unlock (.bucket k b))
          return result)
      fun result ghost' => ∃ count, ghost' = Ghost.rest slots (max seen count) ∧
        post result count := by
  refine Protocol.Triple.bind (lockBucket fun c e clash => by cases clash) ?_
  rintro _ _ ⟨items, rfl⟩
  refine Protocol.Triple.bind (inside items) ?_
  rintro result _ ⟨count, rfl, holds⟩
  refine Protocol.Triple.bind (unlockBucket ?_ (fun c e clash => by cases clash)
    (fun _ => trivial) rfl) ?_
  · simp [Ghost.takeBucket, Ghost.holds, Ghost.see]
  · rintro _ _ rfl
    refine Protocol.Triple.ret ⟨count, ?_, holds⟩
    exact dropBucket_eq (Ghost.rest slots (max seen count)) rfl
      (fun _ _ different => if_neg different) rfl rfl rfl (fun _ _ => rfl) rfl rfl rfl

def FoundBelow (result : Except Err (Nat × Rec n)) (count : Nat) : Prop :=
  ∀ found, result = .ok found → found.1 < count

theorem find_triple :
    CoreTriple S t kind promise (Ghost.rest slots seen) (fmCoreFind S.D S.gran key packed)
      fun result ghost' => ∃ count, ghost' = Ghost.rest slots (max seen count) ∧
        FoundBelow result count ∧
        (S.linked → PackedAgrees S.D key packed → ∀ r, Stays S promise key packed r →
          result ≠ .error .notFound) := by
  refine underBucket (k := key) (do
    let head ← perform (.loadCell (.head key
      (fmBucket (S.D.keydef key) ((S.D.keydef key).ops.hashKey packed))))
    iterate head (findRound S.gran key fun buf =>
      (S.D.keydef key).ops.cmpRecKey buf packed = 0)) fun items => ?_
  have known : ((Ghost.rest slots seen : Ghost n).takeBucket key
      (fmBucket (S.D.keydef key) ((S.D.keydef key).ops.hashKey packed)) items).known key
      (fmBucket (S.D.keydef key) ((S.D.keydef key).ops.hashKey packed)) = some items :=
    Ghost.takeBucket_known ..
  refine Protocol.Triple.bind (loadHead known (idle_calm rfl)) ?_
  rintro head _ ⟨ahead, rfl⟩
  refine Protocol.Triple.iterate (fun h ghost' => ∃ count, ghost' =
      ((Ghost.rest slots seen).takeBucket key
        (fmBucket (S.D.keydef key) ((S.D.keydef key).ops.hashKey packed)) items).see count ∧
    (S.linked → PackedAgrees S.D key packed → ∀ r, Stays S promise key packed r →
      Ahead items h r)) ?_ ⟨0, Ghost.see_zero _, ahead⟩
  rintro h _ ⟨first, rfl, ahead⟩
  cases h with
  | none =>
      refine Protocol.Triple.ret ⟨first, rfl, fun _ clash => (by cases clash),
        fun linked agrees r stays => ?_⟩
      exact absurd (ahead linked agrees r stays) Ahead.not_none
  | some idx =>
      refine Protocol.Triple.bind (readPassing_finds key packed
        fun buf equal => decide_eq_true equal) ?_
      rintro result _ ⟨second, rfl, below, refused⟩
      rw [Ghost.see_see]
      cases result with
      | some buf =>
          refine Protocol.Triple.ret ⟨_, rfl, fun found same => ?_, fun _ _ _ _ clash => by
            cases clash⟩
          cases same
          exact Nat.lt_of_lt_of_le (below buf rfl) (Nat.le_max_right first second)
      | none =>
          refine Protocol.Triple.bind (loadNext (b := fmBucket (S.D.keydef key)
            ((S.D.keydef key).ops.hashKey packed)) known) ?_
          rintro next _ ⟨loaded, rfl⟩
          refine Protocol.Triple.ret ⟨_, rfl, fun linked agrees r stays => ?_⟩
          refine (ahead linked agrees r stays).next ?_ (loaded linked)
          rintro rfl
          exact refused rfl (S.whole linked) stays

theorem findNext_triple {cur : Option Nat} :
    CoreTriple S t kind promise (Ghost.rest slots seen)
      (fmCoreFindNext S.D S.gran key packed cur)
      fun result ghost' => ∃ count, ghost' = Ghost.rest slots (max seen count) ∧
        FoundBelow result count := by
  refine underBucket (k := key) (do
    let head ← perform (.loadCell (.head key
      (fmBucket (S.D.keydef key) ((S.D.keydef key).ops.hashKey packed))))
    iterate (head, false) (findNextRound S.gran key (fun buf =>
      (S.D.keydef key).ops.cmpRecKey buf packed = 0) cur)) fun items => ?_
  refine Protocol.Triple.bind (load (.loadCell (.head key
    (fmBucket (S.D.keydef key) ((S.D.keydef key).ops.hashKey packed)))) trivial) ?_
  rintro head _ rfl
  refine Protocol.Triple.iterate (fun _ ghost' => ∃ count, ghost' =
    ((Ghost.rest slots seen).takeBucket key
      (fmBucket (S.D.keydef key) ((S.D.keydef key).ops.hashKey packed)) items).see count) ?_
    ⟨0, Ghost.see_zero _⟩
  rintro ⟨h, afterCur⟩ _ ⟨first, rfl⟩
  cases h with
  | none => exact Protocol.Triple.ret ⟨first, rfl, fun _ clash => by cases clash⟩
  | some idx =>
      simp only [findNextRound]
      by_cases isCur : some idx = cur
      · rw [if_pos isCur]
        refine Protocol.Triple.bind (load (.loadCell (.next key idx)) trivial) ?_
        rintro next _ rfl
        exact Protocol.Triple.ret ⟨first, rfl⟩
      · rw [if_neg isCur]
        have row : CoreTriple S t kind promise (((Ghost.rest slots seen : Ghost n).takeBucket key
            (fmBucket (S.D.keydef key) ((S.D.keydef key).ops.hashKey packed)) items).see first)
            (if afterCur then readPassing S.gran idx
              (fun buf => (S.D.keydef key).ops.cmpRecKey buf packed = 0) else return none)
            fun result ghost' => ∃ count, ghost' = ((Ghost.rest slots seen).takeBucket key
              (fmBucket (S.D.keydef key) ((S.D.keydef key).ops.hashKey packed)) items).see count ∧
              (∀ buf, result = some buf → idx < count) := by
          cases afterCur with
          | true =>
              refine (readPassing_finds key packed fun buf equal => decide_eq_true equal).mono ?_
              rintro result _ ⟨second, rfl, below, _⟩
              rw [Ghost.see_see]
              exact ⟨_, rfl, fun buf found =>
                Nat.lt_of_lt_of_le (below buf found) (Nat.le_max_right first second)⟩
          | false => exact Protocol.Triple.ret ⟨first, rfl, fun _ clash => by cases clash⟩
        refine Protocol.Triple.bind row ?_
        rintro result _ ⟨count, rfl, below⟩
        cases result with
        | some buf =>
            refine Protocol.Triple.ret ⟨count, rfl, fun found same => ?_⟩
            cases same
            exact below buf rfl
        | none =>
            refine Protocol.Triple.bind (load (.loadCell (.next key idx)) trivial) ?_
            rintro next _ rfl
            exact Protocol.Triple.ret ⟨count, rfl⟩

end CoreTriple

end Fastmem
