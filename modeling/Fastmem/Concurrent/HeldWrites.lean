/-
Writes of rows whose lock the writer holds (fm_core_update_row_locked).

The check of state and generation, the bucket locks and the duplicate check
change no row. The image is then stored between two steps of the sequence
counter; nobody else touches the slot meanwhile, so what was there at the first
step is what the check found, and what is there at the second is the new record.
-/

import Fastmem.Concurrent.HeldRows
import Fastmem.Concurrent.TidyPrograms

set_option autoImplicit false

namespace Fastmem

open Prog (perform forEach)
open ThreadSystem

variable {n : Nat} {S : Setting n} {X : ThreadSystem (coreMachine n)} {R : X.Run} {t a b idx : Nat}

/-! ### Calm parts -/

theorem slotStale_keeps (idx : Nat) (g : UInt32) :
    (slotStale (n := n) idx g).Performs Act.keepsHeld :=
  (slotStale_readsSlot idx g).mono fun _ action kind =>
    Act.reads.keepsHeld (Act.readsSlot.reads _ action kind)

theorem dupCheckChanged_keeps (D : ShareDef n) (gran : Gran) (new : Rec n) (changed : List Nat) :
    (dupCheckChanged D gran new changed).Performs Act.keepsHeld :=
  (dupCheckChanged_reads new changed).mono fun _ _ kind => Act.reads.keepsHeld kind

theorem lockBuckets_keeps (pairs : List (Nat × Nat)) :
    (lockBuckets (n := n) pairs).Performs Act.keepsHeld :=
  .forEach fun _ _ => .perform trivial

theorem unlockBuckets_keeps (pairs : List (Nat × Nat)) :
    (unlockBuckets (n := n) pairs).Performs Act.keepsHeld :=
  .forEach fun _ _ => .perform trivial

theorem slotStale_passed {g : UInt32} (performed : Performed R t a (slotStale idx g) b false) :
    ∃ c d, a ≤ c ∧ c ≤ d ∧ d < b ∧ R.tid d = t ∧ ((R.st c).slot idx).state = .active ∧
      Marked R d (.gen idx) ∧ ((R.st d).slot idx).gen = g := by
  obtain ⟨a', state, first, rest⟩ := Performed.bind_inv performed
  obtain ⟨c, lowerC, upperC, _, loaded, _, _⟩ := first.perform_inv
  have isState : ((R.st c).slot idx).state = state := congrArg Prod.fst (Option.some.inj loaded)
  split at rest
  · cases rest.pure_inv
  · rename_i active
    obtain ⟨b', gen, second, rest⟩ := rest.bind_inv
    obtain ⟨d, lowerD, upperD, own, loaded, marked, _⟩ := second.perform_inv
    have isGen : ((R.st d).slot idx).gen = gen := congrArg Prod.fst (Option.some.inj loaded)
    have passed := rest.pure_inv
    have order := rest.le
    refine ⟨c, d, lowerC, by omega, by omega, own, ?_, marked, ?_⟩
    · rw [isState]
      exact Decidable.not_not.mp active
    · rw [isGen]
      simpa using passed

theorem slotStale_held {g : UInt32} (explained : ∀ i, i ≤ R.len → ∃ g, Quietly S (R.cfg i) g)
    (performed : Performed R t a (slotStale idx g) b false) (bound : b ≤ R.len)
    (owner : (R.st a).owner (.wlock idx) = some t) :
    (R.st b).owner (.wlock idx) = some t ∧ ((R.st b).slot idx).state = .active := by
  obtain ⟨c, d, lowerC, lowerD, upperD, _, active, _⟩ := slotStale_passed performed
  have calm : Calm R t a b := performed.calm (slotStale_keeps idx g)
  have held : (R.st c).owner (.wlock idx) = some t :=
    held_owner explained lowerC (by omega) (calm.until (by omega)).keepsLock owner
  have rest : OwnSteps (KeepsSlot id idx) R t c b := fun m lower upper own =>
    (calm m (by omega) upper own).keepsSlot
  have after := held_view id explained (by omega : c ≤ b) bound rest held active
  exact ⟨after.1, after.2.1⟩

/-! ### Stores of the holder -/

theorem held_perform {ρ : Type} {action : Act n ρ} {value : ρ} (effect : Slot n → Slot n)
    (state : ∀ slot, (effect slot).state = slot.state)
    (acts : ∀ {s s' : Core n} {result : ρ}, Act.exec t action s = some (result, s') →
      s'.slot idx = effect (s.slot idx) ∧ s'.owner (.wlock idx) = s.owner (.wlock idx))
    (explained : ∀ i, i ≤ R.len → ∃ g, Quietly S (R.cfg i) g)
    (performed : Performed R t a (perform action) b value) (bound : b ≤ R.len)
    (owner : (R.st a).owner (.wlock idx) = some t)
    (active : ((R.st a).slot idx).state = .active) :
    ∃ m, a ≤ m ∧ m < b ∧ R.tid m = t ∧ Marked R m (action.mark value) ∧
      (∀ k, a ≤ k → k < b → k ≠ m → R.tid k ≠ t) ∧
      (R.st m).slot idx = (R.st a).slot idx ∧
      (R.st (m + 1)).slot idx = effect ((R.st a).slot idx) ∧
      (R.st b).slot idx = effect ((R.st a).slot idx) ∧
      (R.st b).owner (.wlock idx) = some t := by
  obtain ⟨m, lower, upper, own, ran, marked, alone⟩ := performed.perform_inv
  have before : OwnSteps (KeepsSlot id idx) R t a m := fun k lowerK upperK mine =>
    absurd mine (alone k lowerK (by omega) (by omega))
  have after : OwnSteps (KeepsSlot id idx) R t (m + 1) b := fun k lowerK upperK mine =>
    absurd mine (alone k (by omega) upperK (by omega))
  obtain ⟨held, still, same⟩ := held_view id explained lower (by omega) before owner active
  obtain ⟨changed, kept⟩ := acts ran
  rw [show (R.st m).slot idx = (R.st a).slot idx from same] at changed
  obtain ⟨heldAfter, _, sameAfter⟩ := held_view id explained upper bound after (kept.trans held)
    (by rw [changed, state]; exact active)
  exact ⟨m, lower, upper, own, marked, alone, same, changed, sameAfter.trans changed, heldAfter⟩

def Act.stores (ρ : Type) : Act n ρ → Prop
  | .storeData _ _ | .storeByte _ _ _ => True
  | _ => False

theorem Act.stores.keepsSeq {ρ : Type} {action : Act n ρ} (kind : Act.stores ρ action)
    {s s' : Core n} {result : ρ} (ran : Act.exec t action s = some (result, s')) :
    KeepsSlot Slot.seq idx s s' := by
  have stored : ∀ {j : Nat} {data : Rec n},
      KeepsSlot Slot.seq idx s (s.setSlot j { s.slot j with data := data }) := by
    intro j data
    refine ⟨rfl, ?_, ?_⟩
    · change (Function.update s.slot j _ idx).state = _
      by_cases here : idx = j
      · subst here
        rw [Function.update_self]
      · rw [Function.update_of_ne here]
    · change (Function.update s.slot j _ idx).seq = _
      by_cases here : idx = j
      · subst here
        rw [Function.update_self]
      · rw [Function.update_of_ne here]
  cases action with
  | storeData j rec =>
      cases ran
      exact stored
  | storeByte j at_ byte =>
      cases ran
      exact stored
  | _ => cases kind

theorem memcpyIn_stores (gran : Gran) (idx : Nat) (rec : Rec n) :
    (memcpyIn gran idx rec).Performs Act.stores := by
  cases gran with
  | whole => exact .perform trivial
  | bytewise => exact .forEach fun _ _ => .perform trivial

theorem storeBytes_held (explained : ∀ i, i ≤ R.len → ∃ g, Quietly S (R.cfg i) g) {rec : Rec n}
    (items : List (Fin n))
    (performed : Performed R t a
      (forEach items fun at_ => perform (.storeByte idx at_ (rec at_))) b ())
    (bound : b ≤ R.len) (owner : (R.st a).owner (.wlock idx) = some t)
    (active : ((R.st a).slot idx).state = .active) :
    (R.st b).owner (.wlock idx) = some t ∧ ∃ out : Rec n,
      (∀ j, out j = if j ∈ items then rec j else ((R.st a).slot idx).data j) ∧
      (R.st b).slot idx = { (R.st a).slot idx with data := out } := by
  induction items generalizing a with
  | nil =>
      have none : OwnSteps (KeepsSlot id idx) R t a b := fun k lower upper own =>
        absurd own ((Does.ret_inv performed).2 k lower upper)
      obtain ⟨held, _, same⟩ := held_view id explained performed.le bound none owner active
      exact ⟨held, ((R.st a).slot idx).data, fun j => (by simp), same⟩
  | cons item rest ih =>
      obtain ⟨c, _, first, later⟩ := Performed.bind_inv performed
      have order := later.le
      obtain ⟨_, _, _, _, _, _, _, _, slot, held⟩ := held_perform
        (fun slot => { slot with data := Function.update slot.data item (rec item) })
        (fun _ => rfl) (fun ran => by cases ran; exact ⟨Function.update_self .., rfl⟩) explained first
        (by omega) owner active
      obtain ⟨heldAfter, out, bytes, after⟩ := ih later held (by rw [slot]; exact active)
      refine ⟨heldAfter, out, fun j => ?_, ?_⟩
      · rw [bytes j, slot]
        by_cases inRest : j ∈ rest
        · simp [inRest]
        · by_cases same : j = item
          · subst same
            simp [inRest]
          · simp [inRest, same]
      · rw [after, slot]

theorem memcpyIn_held (explained : ∀ i, i ≤ R.len → ∃ g, Quietly S (R.cfg i) g) {gran : Gran}
    {rec : Rec n} (performed : Performed R t a (memcpyIn gran idx rec) b ()) (bound : b ≤ R.len)
    (owner : (R.st a).owner (.wlock idx) = some t)
    (active : ((R.st a).slot idx).state = .active) :
    (R.st b).owner (.wlock idx) = some t ∧
      (R.st b).slot idx = { (R.st a).slot idx with data := rec } := by
  cases gran with
  | whole =>
      obtain ⟨_, _, _, _, _, _, _, _, slot, held⟩ := held_perform
        (fun slot => { slot with data := rec }) (fun _ => rfl)
        (fun ran => by cases ran; exact ⟨Function.update_self .., rfl⟩) explained performed bound
        owner active
      exact ⟨held, slot⟩
  | bytewise =>
      obtain ⟨held, out, bytes, slot⟩ := storeBytes_held explained _ performed bound owner active
      have whole : out = rec := by
        funext j
        simp [bytes j]
      rw [slot, whole]
      exact ⟨held, rfl⟩

/-! ### Steps of the sequence counter -/

def Unbumped (R : X.Run) (t a b : Nat) : Prop :=
  ∀ m, a ≤ m → m < b → R.tid m = t → ∀ idx, ¬ Marked R m (.bumpSeq idx)

theorem Unbumped.trans {c : Nat} (first : Unbumped R t a b) (second : Unbumped R t b c) :
    Unbumped R t a c := by
  intro m lower upper
  rcases Nat.lt_or_ge m b with earlier | later
  · exact first m lower earlier
  · exact second m later upper

theorem Unbumped.of_rest (rests : ∀ m, a ≤ m → m < b → R.tid m ≠ t) : Unbumped R t a b :=
  fun m lower upper own => absurd own (rests m lower upper)

theorem Plain.performs {D : ShareDef n} {α : Type} {program : CoreProg n α}
    (plain : Plain D program) : program.Performs fun _ action => ∀ result,
      ∀ idx, action.mark result ≠ .bumpSeq idx := by
  induction program with
  | ret value => trivial
  | act action next ih =>
      refine ⟨fun result idx => ?_, fun result => ih result (plain.2 result)⟩
      have kind := plain.1
      cases action with
      | bumpSeq i => exact kind.elim
      | _ => exact fun clash => by cases clash
  | loop body start next ihBody ihNext =>
      exact ⟨fun state => ihBody state (plain.1 state), fun result => ihNext result (plain.2 result)⟩

theorem Performed.unbumped {D : ShareDef n} {α : Type} {program : CoreProg n α} {value : α}
    (performed : Performed R t a program b value) (plain : Plain D program) :
    Unbumped R t a b := by
  intro m lower upper own idx marked
  have unmarked : ∀ mark, Marked R m mark → ∀ idx, mark ≠ .bumpSeq idx :=
    performed.marks plain.performs m lower upper own
  exact unmarked _ marked idx rfl

theorem Marked.raises {m : Nat} (marked : Marked R m (.bumpSeq idx)) (bound : m < R.len) :
    ((R.st (m + 1)).slot idx).seq = ((R.st m).slot idx).seq + 1 := by
  rcases R.acts bound with ⟨call, ρ, action, next, result, _, event, ran, _⟩ | ⟨none, _⟩
  · have label : action.mark result = .bumpSeq idx := by
      unfold Marked at marked
      rw [event] at marked
      exact Option.some.inj marked
    cases action with
    | bumpSeq i =>
        cases label
        have after : (R.st m).setSlot idx { (R.st m).slot idx with
            seq := ((R.st m).slot idx).seq + 1 } = R.st (m + 1) :=
          congrArg Prod.snd (Option.some.inj ran)
        rw [← after]
        change (Function.update (R.st m).slot idx _ idx).seq = _
        rw [Function.update_self]
    | _ => cases label
  · unfold Marked at marked
    cases event : R.ev m with
    | act action result => exact absurd event (none _ action result)
    | start call =>
        rw [event] at marked
        cases marked
    | unroll =>
        rw [event] at marked
        cases marked
    | finish call result =>
        rw [event] at marked
        cases marked

theorem OwnSteps.unbumped (calm : OwnSteps SameHeld R t a b) (bound : b ≤ R.len) :
    Unbumped R t a b := by
  intro m lower upper own idx marked
  have raised := marked.raises (by omega)
  rw [(calm m lower upper own).slot] at raised
  exact absurd raised (by simp)

/-! ### Image writes -/

/-- An image write of the holder, from one step of the sequence counter to the other. -/
structure WriteSpan (R : X.Run) (t idx : Nat) (new : Rec n) (m e : Nat) : Prop where
  order : m < e
  own : R.tid m = t ∧ R.tid e = t
  begins : Marked R m (.bumpSeq idx)
  ends : Marked R e (.bumpSeq idx)
  between : ∀ k, m < k → k ≤ e → ((R.st k).slot idx).seq = ((R.st m).slot idx).seq + 1
  after : ((R.st (e + 1)).slot idx).data = new

theorem writeImage_span (explained : ∀ i, i ≤ R.len → ∃ g, Quietly S (R.cfg i) g) {gran : Gran}
    {new : Rec n} (performed : Performed R t a (fmCoreWriteImage gran idx new) b ())
    (bound : b ≤ R.len) (owner : (R.st a).owner (.wlock idx) = some t)
    (active : ((R.st a).slot idx).state = .active) :
    ∃ m e, a ≤ m ∧ e < b ∧ WriteSpan R t idx new m e ∧ Unbumped R t (m + 1) e ∧ Calm R t a m ∧
      ∀ k, e < k → k < b → R.tid k ≠ t := by
  obtain ⟨c, _, first, rest⟩ := Performed.bind_inv performed
  obtain ⟨d, _, copy, last⟩ := Performed.bind_inv rest
  have copyLe := copy.le
  have lastLe := last.le
  have bumps : ∀ {s s' : Core n} {result : Unit},
      Act.exec t (.bumpSeq idx) s = some (result, s') →
      s'.slot idx = (fun slot : Slot n => { slot with seq := slot.seq + 1 }) (s.slot idx) ∧
        s'.owner (.wlock idx) = s.owner (.wlock idx) := by
    intro s s' result ran
    cases ran
    exact ⟨Function.update_self .., rfl⟩
  obtain ⟨m, lowerM, upperM, ownM, markedM, aloneM, atM, behindM, atC, heldC⟩ :=
    held_perform (fun slot => { slot with seq := slot.seq + 1 }) (fun _ => rfl) bumps explained first
      (by omega) owner active
  have activeC : ((R.st c).slot idx).state = .active := by
    rw [atC]
    exact active
  obtain ⟨heldD, atD⟩ := memcpyIn_held explained copy (by omega) heldC activeC
  have activeD : ((R.st d).slot idx).state = .active := by
    rw [atD]
    exact activeC
  obtain ⟨e, lowerE, upperE, ownE, markedE, aloneE, atE, behindE, atB, heldB⟩ :=
    held_perform (fun slot => { slot with seq := slot.seq + 1 }) (fun _ => rfl) bumps explained last
      bound heldD activeD
  -- the holder's steps between the two bumps store into the image only
  have stores : OwnSteps (KeepsSlot Slot.seq idx) R t c d :=
    copy.steps (fun _ => ⟨rfl, rfl, rfl⟩) (fun kind ran => kind.keepsSeq ran)
      (memcpyIn_stores gran idx new)
  have between : OwnSteps (KeepsSlot Slot.seq idx) R t (m + 1) e := by
    intro k lower upper own
    rcases Nat.lt_or_ge k c with earlier | notEarlier
    · exact absurd own (aloneM k (by omega) earlier (by omega))
    · rcases Nat.lt_or_ge k d with copying | later
      · exact stores k notEarlier copying own
      · exact absurd own (aloneE k later (by omega) (by omega))
  have heldM : (R.st (m + 1)).owner (.wlock idx) = some t :=
    held_back (by omega : m + 1 ≤ c) (by omega)
      (fun k lower upper own => absurd own (aloneM k (by omega) upper (by omega))) heldC
  have activeM : ((R.st (m + 1)).slot idx).state = .active := by
    rw [behindM]
    exact active
  have copying : Unbumped R t c d := copy.unbumped (D := S.D) (memcpyIn_plain idx new)
  refine ⟨m, e, lowerM, upperE, ⟨by omega, ⟨ownM, ownE⟩, markedM, markedE, ?_, ?_⟩, ?_, ?_, ?_⟩
  · intro k lower upper
    have seq := (held_view Slot.seq explained lower (by omega) (between.until upper) heldM
      activeM).2.2
    rw [seq, behindM, atM]
  · rw [behindE, atD]
  · intro k lower upper own
    rcases Nat.lt_or_ge k c with earlier | notEarlier
    · exact absurd own (aloneM k (by omega) earlier (by omega))
    · rcases Nat.lt_or_ge k d with inCopy | later
      · exact copying k notEarlier inCopy own
      · exact absurd own (aloneE k later (by omega) (by omega))
  · exact fun k lower upper own => absurd own (aloneM k lower (by omega) (by omega))
  · exact fun k lower upper => aloneE k (by omega) upper (by omega)

/-- What a locked update does to the row it holds: it writes the row once, or it changes
nothing. -/
theorem updateRowLocked_steps {D : ShareDef n} {gran : Gran} {g : UInt32} {old new : Rec n}
    {result : Except Err Unit} (explained : ∀ i, i ≤ R.len → ∃ g, Quietly S (R.cfg i) g)
    (performed : Performed R t a (fmCoreUpdateRowLocked D gran idx g old new) b result)
    (bound : b ≤ R.len) (owner : (R.st a).owner (.wlock idx) = some t) :
    (result = .ok () ∧ ∃ c m e, c ≤ m ∧ e < b ∧ Performed R t a (slotStale idx g) c false ∧
      Calm R t a m ∧ WriteSpan R t idx new m e ∧ Unbumped R t (m + 1) e ∧
        Unbumped R t (e + 1) b) ∨
    (∃ e, result = .error e) ∧ Calm R t a b := by
  obtain ⟨c, stale, check, rest⟩ := Performed.bind_inv performed
  have checkCalm := check.calm (slotStale_keeps idx g)
  have order := check.le
  have orderRest := rest.le
  cases stale with
  | true =>
      have refused := rest.pure_inv
      exact Or.inr ⟨⟨_, refused⟩, checkCalm.trans (rest.calm (.ret _))⟩
  | false =>
      obtain ⟨held, active⟩ := slotStale_held explained check (by omega) owner
      simp only [Bool.false_eq_true, if_false] at rest
      -- the write that begins at the end of a calm time
      have writes : ∀ {d f : Nat}, Calm R t c d → c ≤ d → f ≤ b →
          Performed R t d (fmCoreWriteImage gran idx new) f () → Unbumped R t f b →
          ∃ m e, c ≤ m ∧ e < b ∧ Calm R t a m ∧ WriteSpan R t idx new m e ∧
            Unbumped R t (m + 1) e ∧ Unbumped R t (e + 1) b := by
        intro d f calm lower upper write behind
        have writeLe := write.le
        have heldD := held_view id explained lower (by omega)
          (fun k lowerK upperK own => (calm k lowerK upperK own).keepsSlot) held active
        obtain ⟨m, e, lowerM, upperE, span, silent, until_, alone⟩ :=
          writeImage_span explained write (by omega) heldD.1 heldD.2.1
        have rests : Unbumped R t (e + 1) f := .of_rest fun k lowerK upperK =>
          alone k (by omega) upperK
        exact ⟨m, e, by omega, by omega, checkCalm.trans (calm.trans until_), span, silent,
          rests.trans behind⟩
      split at rest
      · obtain ⟨d, _, write, rest⟩ := rest.bind_inv
        have done := rest.pure_inv
        have none : Calm R t c c := fun m lower upper => absurd upper (Nat.not_lt.mpr lower)
        obtain ⟨m, e, lower, upper, calm, span, silent, behind⟩ := writes none (Nat.le_refl c) rest.le write
          (.of_rest fun k lower upper => (Does.ret_inv rest).2 k lower upper)
        exact Or.inl ⟨done, c, m, e, lower, upper, check, calm, span, silent, behind⟩
      · obtain ⟨d, _, lock, rest⟩ := rest.bind_inv
        obtain ⟨e, dup, dupCheck, rest⟩ := rest.bind_inv
        have calm : Calm R t c e := (lock.calm (lockBuckets_keeps _)).trans
          (dupCheck.calm (dupCheckChanged_keeps _ _ _ _))
        have lowerE := lock.le
        have upperE := dupCheck.le
        cases dup with
        | some k =>
            obtain ⟨f, _, unlock, rest⟩ := Performed.bind_inv rest
            have refused := rest.pure_inv
            exact Or.inr ⟨⟨_, refused⟩, checkCalm.trans (calm.trans
              ((unlock.calm (unlockBuckets_keeps _)).trans (rest.calm (.ret _))))⟩
        | none =>
            obtain ⟨f, _, write, rest⟩ := Performed.bind_inv rest
            have later := rest.le
            obtain ⟨g₁, _, relink, rest⟩ := rest.bind_inv
            obtain ⟨g₂, _, unlock, rest⟩ := rest.bind_inv
            have done := rest.pure_inv
            have behind : Unbumped R t f b :=
              (relink.unbumped (D := D) (relinkChanged_plain old new idx _)).trans
                ((unlock.unbumped (D := D) (unlockBuckets_plain _)).trans
                  (.of_rest fun k lower upper => (Does.ret_inv rest).2 k lower upper))
            obtain ⟨m, e', lower, upper, calm', span, silent, rests⟩ :=
              writes calm (by omega) later write behind
            exact Or.inl ⟨done, c, m, e', lower, upper, check, calm', span, silent, rests⟩

end Fastmem
