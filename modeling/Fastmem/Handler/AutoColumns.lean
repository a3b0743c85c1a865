/-
The AUTO_INCREMENT column of a table (fm_data.cc).

A write or update that succeeds raises the counter of the share to the value of
the column, so a value reserved later is above every value stored before. The
counter is raised after the row is in the table; a call that fails leaves it.
-/

import Fastmem.AutoOverflow
import Fastmem.Handler.IndexTraversal
import Fastmem.MachineProduct

set_option autoImplicit false

namespace Fastmem

open Prog (perform iterate)
open Machine

variable {n : Nat}

/-! ### fm_update_auto_increment -/

inductive AutoKeyType
  | int8
  | binary
  | shortInt
  | ushortInt
  | longInt
  | ulongInt
  | int24
  | uint24
  | float
  | double
  | longlong
  | ulonglong
  | other
  deriving DecidableEq, Repr

def uintKorr (count : Nat) (m : Bytes) : Nat :=
  (slice m 0 count).foldr (fun byte high => byte.toNat + 256 * high) 0

def sintKorr (count : Nat) (m : Bytes) : Int := (BitVec.ofNat (8 * count) (uintKorr count m)).toInt

/-- A table with what its share knows of its AUTO_INCREMENT column; `autoKey` counts keys
from 1. The values of a FLOAT or DOUBLE column, 0 where they are negative, are those of the
machine. -/
structure AutoTable (n : Nat) extends TableShare n where
  autoKey : Nat
  autoKeyType : AutoKeyType
  floatValue : Bytes → UInt64
  doubleValue : Bytes → UInt64

/-- `s_value` and `value` after the switch. -/
def AutoTable.switch (A : AutoTable n) (key : Bytes) : Int × UInt64 :=
  match A.autoKeyType with
  | .int8 => (sintKorr 1 key, 0)
  | .binary => (0, UInt64.ofNat (uintKorr 1 key))
  | .shortInt => (sintKorr 2 key, 0)
  | .ushortInt => (0, UInt64.ofNat (uintKorr 2 key))
  | .longInt => (sintKorr 4 key, 0)
  | .ulongInt => (0, UInt64.ofNat (uintKorr 4 key))
  | .int24 => (sintKorr 3 key, 0)
  | .uint24 => (0, UInt64.ofNat (uintKorr 3 key))
  | .float => (0, A.floatValue key)
  | .double => (0, A.doubleValue key)
  | .longlong => (sintKorr 8 key, 0)
  | .ulonglong => (0, UInt64.ofNat (uintKorr 8 key))
  | .other => (0, 0)

/-- `record + keydef->seg->start`; a key has a segment. -/
def AutoTable.column (A : AutoTable n) (record : Rec n) : Bytes :=
  match (A.keydef (A.autoKey - 1)).seg with
  | [] => record.toBytes
  | seg :: _ => fun i => record.toBytes (seg.start + i)

/-- `(s_value > 0) ? (ulonglong) s_value : value`. -/
def AutoTable.observed (A : AutoTable n) (key : Bytes) : UInt64 :=
  let (sValue, value) := A.switch key
  if sValue > 0 then UInt64.ofNat sValue.toNat else value

def fmUpdateAutoIncrement (A : AutoTable n) (record : Rec n) : AutoProg Unit :=
  if A.autoKey = 0 then return () else fmCoreAutoIncObserve (A.observed (A.column record))

/-! ### fm_write, fm_update_locked, fm_get_auto_increment -/

abbrev tableMachine (n : Nat) : Machine := (coreMachine n).prod autoIncMachine

abbrev TableProg (n : Nat) (α : Type) := Prog (tableMachine n).Act α

/-- `if (rc == FM_ERR_DUP_KEY) info->errkey= ek`. -/
def Handler.noteErr (h : Handler) : Err → Handler
  | .dupKey errkey => { h with errkey := errkey }
  | .notFound | .eof | .deleted | .full | .nomem => h

/-- `if (share->auto_key) fm_update_auto_increment(info, record)`. -/
def raiseCounter (A : AutoTable n) (record : Rec n) : AutoProg Unit :=
  if A.autoKey ≠ 0 then fmUpdateAutoIncrement A record else return ()

/-- fm_write; `core` runs what is of the core and `raised` raises the counter before the rest. -/
def fmWriteOn {Act : Type → Type} (core : {α : Type} → CoreProg n α → Prog Act α)
    (raised : {α : Type} → Prog Act α → Prog Act α) (T : TableShare n) (gran : Gran)
    (record : Rec n) (h : Handler) : Prog Act (HaResult Unit) := do
  match ← core (fmCoreInsertRow T.core gran record) with
  | .error e => return (.error e.toHa, h.noteErr e)
  | .ok idx => raised do
      let g ← core (perform (.loadGen idx))
      return (.ok (), { h with
        lastinx := none
        currentSlot := some idx
        currentGen := g
        update := { HaState.none with aktiv := true } })

def fmWrite (A : AutoTable n) (gran : Gran) (record : Rec n) (h : Handler) :
    TableProg n (HaResult Unit) :=
  fmWriteOn (onLeft (M := coreMachine n)) (fun rest => do onRight (raiseCounter A record); rest)
    A.toTableShare gran record h

/-- The comparison with the stored row under READ_CHECK_USED. -/
def readCheck (gran : Gran) (idx : Nat) (old : Rec n) (h : Handler) :
    CoreProg n (Except HaErr Unit) :=
  if h.readCheckUsed then do
    match ← fmCoreReadRow gran idx true h.currentGen with
    | .error e => return .error e.toHa
    | .ok scratch => if old ≠ scratch then return .error .recordChanged else return .ok ()
  else return .ok ()

/-- fm_update_locked, likewise. Called with a current row only. -/
def fmUpdateLockedOn {Act : Type → Type} (core : {α : Type} → CoreProg n α → Prog Act α)
    (raised : {α : Type} → Prog Act α → Prog Act α) (T : TableShare n) (gran : Gran)
    (old new : Rec n) (h : Handler) : Prog Act (HaResult Unit) :=
  match h.currentSlot with
  | none => return (.error .recordDeleted, h)
  | some idx => do
      match ← core (readCheck gran idx old h) with
      | .error e => return (.error e, h)
      | .ok _ =>
          match ← core (fmCoreUpdateRowLocked T.core gran idx h.currentGen old new) with
          | .error e => return (.error e.toHa, h.noteErr e)
          | .ok _ => raised do
              return (.ok (), { h with update := { HaState.none with aktiv := true } })

def fmUpdateLocked (A : AutoTable n) (gran : Gran) (old new : Rec n) (h : Handler) :
    TableProg n (HaResult Unit) :=
  fmUpdateLockedOn (onLeft (M := coreMachine n)) (fun rest => do onRight (raiseCounter A new); rest)
    A.toTableShare gran old new h

/-- The first value with the number of values; all bits and 0 for an overflow. -/
def fmGetAutoIncrement (offset inc nb : UInt64) : TableProg n (UInt64 × UInt64) := do
  let first ← onRight (fmCoreAutoIncReserve offset inc nb)
  if first = 0 then return (~~~0, 0) else return (first, orOne nb)

/-! ### The counter after a call -/

section Counter

variable {t : Nat} {a a' : AutoInc}

theorem exchange_inv {expected desired found : UInt64} {swapped : Bool}
    (ran : autoIncMachine.exec t (.compareExchangeWeak expected desired) a =
      some ((swapped, found), a')) :
    if swapped then a.value = expected ∧ a'.value = desired
    else found = a.value ∧ a'.value = a.value := by
  change AutoAct.exec (.compareExchangeWeak expected desired) a = _ at ran
  by_cases both : a.value = expected ∧ a.whim a.tried = false
  · simp only [AutoAct.exec, if_pos both] at ran
    cases ran
    exact ⟨both.1, rfl⟩
  · simp only [AutoAct.exec, if_neg both] at ran
    cases ran
    exact ⟨rfl, rfl⟩

theorem observe_inv {v : UInt64}
    (ran : Exec autoIncMachine t (fmCoreAutoIncObserve v) a () a') :
    a'.value.toNat = max a.value.toNat v.toNat := by
  obtain ⟨cur, b, loaded, looped⟩ := Exec.perform_bind_inv (M := autoIncMachine) ran
  cases loaded
  -- a round that goes on has the counter in its hands
  obtain ⟨cur, b, ⟨same, kept⟩, last⟩ := Exec.iterate_inv (M := autoIncMachine)
    (fun cur b => cur = b.value ∧ b.value = a.value)
    (by
      rintro cur b again b' ⟨same, kept⟩ round
      unfold raiseRound at round
      split at round
      · obtain ⟨⟨swapped, found⟩, c, tried, rest⟩ :=
          Exec.perform_bind_inv (M := autoIncMachine) round
        have outcome := exchange_inv tried
        cases swapped with
        | true => cases (Exec.ret_inv (M := autoIncMachine) rest).1
        | false =>
            obtain ⟨left, rfl⟩ := Exec.ret_inv (M := autoIncMachine) rest
            cases left
            exact ⟨outcome.1.trans outcome.2.symm, outcome.2.trans kept⟩
      · cases (Exec.ret_inv (M := autoIncMachine) round).1)
    ⟨rfl, rfl⟩ looped
  unfold raiseRound at last
  split at last
  · rename_i above
    obtain ⟨⟨swapped, found⟩, c, tried, rest⟩ := Exec.perform_bind_inv (M := autoIncMachine) last
    have outcome := exchange_inv tried
    cases swapped with
    | true =>
        obtain ⟨_, rfl⟩ := Exec.ret_inv (M := autoIncMachine) rest
        rw [outcome.2]
        have order : cur.toNat < v.toNat := above
        rw [same, kept] at order
        omega
    | false => cases (Exec.ret_inv (M := autoIncMachine) rest).1
  · rename_i reached
    obtain ⟨_, rfl⟩ := Exec.ret_inv (M := autoIncMachine) last
    have order : v.toNat ≤ cur.toNat := UInt64.not_lt.mp reached
    rw [same] at order
    rw [kept] at order ⊢
    omega

theorem reserve_inv {offset inc nb v : UInt64}
    (ran : Exec autoIncMachine t (fmCoreAutoIncReserve offset inc nb) a v a') :
    (v, a'.value) = reservation a.value offset inc nb := by
  have untouched : ∀ {b b' : AutoInc} {outcome : Unit ⊕ UInt64}, b.value = a.value →
      Exec autoIncMachine t (reserveRound (orOne offset) (orOne inc) (orOne nb)) b outcome b' →
      match outcome with
      | .inl _ => b'.value = a.value
      | .inr v => (v, b'.value) = reservation a.value offset inc nb := by
    intro b b' outcome kept round
    unfold reservation
    obtain ⟨cur, c, loaded, rest⟩ := Exec.perform_bind_inv (M := autoIncMachine) round
    cases loaded
    rw [kept] at rest
    cases found : interval a.value (orOne offset) (orOne inc) (orOne nb) with
    | none =>
        rw [found] at rest
        obtain ⟨rfl, rfl⟩ := Exec.ret_inv (M := autoIncMachine) rest
        rw [kept]
    | some pair =>
        rw [found] at rest
        obtain ⟨⟨swapped, value⟩, c, tried, tail⟩ :=
          Exec.perform_bind_inv (M := autoIncMachine) rest
        have outcome := exchange_inv tried
        cases swapped with
        | true =>
            obtain ⟨rfl, rfl⟩ := Exec.ret_inv (M := autoIncMachine) tail
            exact congrArg (Prod.mk pair.1) outcome.2
        | false =>
            obtain ⟨rfl, rfl⟩ := Exec.ret_inv (M := autoIncMachine) tail
            exact outcome.2.trans kept
  obtain ⟨_, b, kept, last⟩ := Exec.iterate_inv (M := autoIncMachine)
    (fun _ b => b.value = a.value) (fun _ _ _ _ kept round => untouched kept round) rfl ran
  exact untouched kept last

end Counter

/-! ### The value of the column -/

def AutoKeyType.integer : AutoKeyType → Option (Bool × Nat)
  | .int8 => some (true, 1)
  | .binary => some (false, 1)
  | .shortInt => some (true, 2)
  | .ushortInt => some (false, 2)
  | .longInt => some (true, 4)
  | .ulongInt => some (false, 4)
  | .int24 => some (true, 3)
  | .uint24 => some (false, 3)
  | .longlong => some (true, 8)
  | .ulonglong => some (false, 8)
  | .float | .double | .other => none

def AutoTable.columnValue (A : AutoTable n) (record : Rec n) : Int :=
  match A.autoKeyType.integer with
  | some (true, count) => sintKorr count (A.column record)
  | some (false, count) => uintKorr count (A.column record)
  | none => 0

theorem littleEndian_lt (bytes : List UInt8) :
    bytes.foldr (fun byte high => byte.toNat + 256 * high) 0 < 256 ^ bytes.length := by
  induction bytes with
  | nil => decide
  | cons byte rest ih =>
      have small := byte.toNat_lt
      rw [List.foldr_cons, List.length_cons, Nat.pow_succ]
      omega

theorem uintKorr_lt {count : Nat} (short : count ≤ 8) (m : Bytes) : uintKorr count m < 2 ^ 64 := by
  have bound := littleEndian_lt (slice m 0 count)
  rw [slice_length] at bound
  refine Nat.lt_of_lt_of_le bound ?_
  exact Nat.le_trans (Nat.pow_le_pow_right (by decide) short) (by decide)

theorem sintKorr_lt {count : Nat} (short : count ≤ 8) (m : Bytes) :
    (sintKorr count m).toNat < 2 ^ 64 := by
  have below : sintKorr count m < ((2 ^ (8 * count - 1) : Nat) : Int) := by
    rw [Int.natCast_pow]
    exact BitVec.toInt_lt
  have power : 2 ^ (8 * count - 1) ≤ 2 ^ 63 := Nat.pow_le_pow_right (by decide) (by omega)
  generalize 2 ^ (8 * count - 1) = bound at below power
  omega

theorem AutoKeyType.integer_le {type : AutoKeyType} {signed : Bool} {count : Nat}
    (integer : type.integer = some (signed, count)) : count ≤ 8 := by
  cases type <;> cases integer <;> decide

theorem AutoTable.switch_eq {A : AutoTable n} {signed : Bool} {count : Nat}
    (integer : A.autoKeyType.integer = some (signed, count)) (key : Bytes) :
    A.switch key = if signed then (sintKorr count key, 0)
      else (0, UInt64.ofNat (uintKorr count key)) := by
  unfold AutoTable.switch
  generalize A.autoKeyType = type at integer
  cases type <;> cases integer <;> rfl

theorem observed_toNat (A : AutoTable n) (integer : A.autoKeyType.integer ≠ none)
    (record : Rec n) :
    (A.observed (A.column record)).toNat = (A.columnValue record).toNat := by
  obtain ⟨⟨signed, count⟩, isInteger⟩ := Option.ne_none_iff_exists'.mp integer
  have short := AutoKeyType.integer_le isInteger
  unfold AutoTable.observed AutoTable.columnValue
  rw [AutoTable.switch_eq isInteger, isInteger]
  cases signed with
  | true =>
      rw [if_pos rfl]
      dsimp only
      split
      · exact UInt64.toNat_ofNat_of_lt' (sintKorr_lt short _)
      · rename_i notPositive
        rw [Int.toNat_of_nonpos (Int.not_lt.mp notPositive)]
        rfl
  | false => exact UInt64.toNat_ofNat_of_lt' (uintKorr_lt short _)

/-! ### Runs of calls -/

inductive ColumnCall (n : Nat)
  | write (h : Handler) (record : Rec n)
  | updateLocked (h : Handler) (old new : Rec n)
  | getAutoIncrement (offset inc nb : UInt64)

def ColumnCall.Res : ColumnCall n → Type
  | .write .. | .updateLocked .. => HaResult Unit
  | .getAutoIncrement .. => UInt64 × UInt64

def ColumnCall.program (A : AutoTable n) (gran : Gran) : (call : ColumnCall n) →
    TableProg n call.Res
  | .write h record => fmWrite A gran record h
  | .updateLocked h old new => fmUpdateLocked A gran old new h
  | .getAutoIncrement offset inc nb => fmGetAutoIncrement offset inc nb

def ColumnCall.row : ColumnCall n → Option (Rec n)
  | .write _ record => some record
  | .updateLocked _ _ new => some new
  | .getAutoIncrement .. => none

def storedValue (A : AutoTable n) : (call : ColumnCall n) → call.Res → Option Int
  | .write _ record, (.ok _, _) => some (A.columnValue record)
  | .updateLocked _ _ new, (.ok _, _) => some (A.columnValue new)
  | _, _ => none

structure ServedColumn (n : Nat) where
  call : ColumnCall n
  result : call.Res

def storedValues (A : AutoTable n) (served : List (ServedColumn n)) : List Int :=
  served.filterMap fun entry => storedValue A entry.call entry.result

/-- Calls one after another. Between them a caller does what it wants with the rows: it locks
and reads the row that it updates. -/
inductive ColumnRun (A : AutoTable n) (gran : Gran) (start : Core n × AutoInc) :
    List (ServedColumn n) → Core n × AutoInc → Prop
  | nil : ColumnRun A gran start [] start
  | call {served : List (ServedColumn n)} {st st' : Core n × AutoInc} {t : Nat}
      {call : ColumnCall n} {result : call.Res} (before : ColumnRun A gran start served st)
      (ran : Exec (tableMachine n) t (call.program A gran) st result st') :
      ColumnRun A gran start (served ++ [⟨call, result⟩]) st'
  | rows {served : List (ServedColumn n)} {s s' : Core n} {a : AutoInc} {t : Nat} {α : Type}
      {program : CoreProg n α} {value : α} (before : ColumnRun A gran start served (s, a))
      (ran : Runs t program s value s') : ColumnRun A gran start served (s', a)

def raisedTo (counter : UInt64) (x : Int) : Except HaErr Unit → Nat
  | .ok _ => max counter.toNat x.toNat
  | .error _ => counter.toNat

theorem raisedTo_ge (counter : UInt64) (x : Int) (outcome : Except HaErr Unit) :
    counter.toNat ≤ raisedTo counter x outcome := by
  cases outcome with
  | ok _ => exact Nat.le_max_left _ _
  | error e => exact Nat.le_refl _

section Calls

variable {A : AutoTable n} {gran : Gran} {t : Nat} {s : Core n} {a : AutoInc}
  {st' : Core n × AutoInc}

theorem raise_inv {record : Rec n} (column : A.autoKey ≠ 0)
    (integer : A.autoKeyType.integer ≠ none)
    (ran : Exec (tableMachine n) t (onRight (raiseCounter A record)) (s, a) () st') :
    ∃ a', st' = (s, a') ∧ a'.value.toNat = max a.value.toNat (A.columnValue record).toNat := by
  obtain ⟨a', rfl, raised⟩ := exec_onRight_inv ran
  refine ⟨a', rfl, ?_⟩
  unfold raiseCounter fmUpdateAutoIncrement at raised
  rw [if_pos column, if_neg column] at raised
  rw [observe_inv raised, observed_toNat A integer record]

theorem write_inv {h : Handler} {record : Rec n} {result : HaResult Unit}
    (column : A.autoKey ≠ 0) (integer : A.autoKeyType.integer ≠ none)
    (ran : Exec (tableMachine n) t (fmWrite A gran record h) (s, a) result st') :
    st'.2.value.toNat = raisedTo a.value (A.columnValue record) result.1 := by
  obtain ⟨inserted, mid, first, rest⟩ := Exec.bind_inv (M := tableMachine n) ran
  obtain ⟨s₁, rfl, _⟩ := exec_onLeft_inv first
  cases inserted with
  | error e =>
      obtain ⟨rfl, rfl⟩ := Exec.ret_inv (M := tableMachine n) rest
      rfl
  | ok idx =>
      obtain ⟨_, mid, raised, rest⟩ := Exec.bind_inv (M := tableMachine n) rest
      obtain ⟨a', rfl, value⟩ := raise_inv column integer raised
      obtain ⟨g, mid, loaded, rest⟩ := Exec.bind_inv (M := tableMachine n) rest
      obtain ⟨s₂, rfl, _⟩ := exec_onLeft_inv loaded
      obtain ⟨rfl, rfl⟩ := Exec.ret_inv (M := tableMachine n) rest
      exact value

theorem updateLocked_inv {h : Handler} {old new : Rec n} {result : HaResult Unit}
    (column : A.autoKey ≠ 0) (integer : A.autoKeyType.integer ≠ none)
    (ran : Exec (tableMachine n) t (fmUpdateLocked A gran old new h) (s, a) result st') :
    st'.2.value.toNat = raisedTo a.value (A.columnValue new) result.1 := by
  unfold fmUpdateLocked fmUpdateLockedOn at ran
  cases current : h.currentSlot with
  | none =>
      rw [current] at ran
      obtain ⟨rfl, rfl⟩ := Exec.ret_inv (M := tableMachine n) ran
      rfl
  | some idx =>
      rw [current] at ran
      obtain ⟨checked, mid, first, rest⟩ := Exec.bind_inv (M := tableMachine n) ran
      obtain ⟨s₁, rfl, _⟩ := exec_onLeft_inv first
      cases checked with
      | error e =>
          obtain ⟨rfl, rfl⟩ := Exec.ret_inv (M := tableMachine n) rest
          rfl
      | ok _ =>
          obtain ⟨updated, mid, second, rest⟩ := Exec.bind_inv (M := tableMachine n) rest
          obtain ⟨s₂, rfl, _⟩ := exec_onLeft_inv second
          cases updated with
          | error e =>
              obtain ⟨rfl, rfl⟩ := Exec.ret_inv (M := tableMachine n) rest
              rfl
          | ok _ =>
              obtain ⟨_, mid, raised, rest⟩ := Exec.bind_inv (M := tableMachine n) rest
              obtain ⟨a', rfl, value⟩ := raise_inv column integer raised
              obtain ⟨rfl, rfl⟩ := Exec.ret_inv (M := tableMachine n) rest
              exact value

theorem getAutoIncrement_inv {offset inc nb first reserved : UInt64}
    (ran : Exec (tableMachine n) t (fmGetAutoIncrement offset inc nb) (s, a) (first, reserved)
      st') :
    a.value.toNat ≤ st'.2.value.toNat ∧
      (reserved = 0 ∧ st'.2.value = a.value ∨
        reserved = orOne nb ∧ a.value.toNat < first.toNat) := by
  obtain ⟨v, mid, taken, rest⟩ := Exec.bind_inv (M := tableMachine n) ran
  obtain ⟨a', rfl, reserve⟩ := exec_onRight_inv taken
  have outcome := reserve_inv reserve
  unfold reservation at outcome
  cases found : interval a.value (orOne offset) (orOne inc) (orOne nb) with
  | none =>
      rw [found] at outcome
      obtain ⟨rfl, same⟩ := Prod.mk.inj outcome
      rw [if_pos rfl] at rest
      obtain ⟨answer, rfl⟩ := Exec.ret_inv (M := tableMachine n) rest
      cases answer
      exact ⟨Nat.le_of_eq (congrArg UInt64.toNat same.symm), Or.inl ⟨rfl, same⟩⟩
  | some pair =>
      rw [found] at outcome
      obtain rfl : (v, a'.value) = pair := outcome
      obtain ⟨above, ordered, _⟩ := interval_spec found
      have below := firstAbove_lt above
      have order : v.toNat ≤ a'.value.toNat := ordered
      have some_ : v ≠ 0 := by
        rintro rfl
        exact absurd below (Nat.not_lt_zero _)
      rw [if_neg some_] at rest
      obtain ⟨answer, rfl⟩ := Exec.ret_inv (M := tableMachine n) rest
      cases answer
      exact ⟨Nat.le_trans (Nat.le_of_lt below) order, Or.inr ⟨rfl, below⟩⟩

/-- A call that stores a row moves the counter to the value it stored, and a call that fails
or stores no positive value leaves it. -/
theorem call_counter {call : ColumnCall n} {result : call.Res} (column : A.autoKey ≠ 0)
    (integer : A.autoKeyType.integer ≠ none)
    (ran : Exec (tableMachine n) t (call.program A gran) (s, a) result st') :
    a.value.toNat ≤ st'.2.value.toNat ∧
      (∀ record, call.row = some record → st'.2.value.toNat =
        max a.value.toNat ((storedValue A call result).getD 0).toNat) ∧
      ∀ x, storedValue A call result = some x → ∃ record, call.row = some record ∧
        x = A.columnValue record := by
  cases call with
  | write h record =>
      obtain ⟨outcome, h'⟩ := result
      have counter := write_inv column integer ran
      refine ⟨counter ▸ raisedTo_ge .., fun _ _ => ?_, fun x stored => ⟨record, rfl, ?_⟩⟩
      · rw [counter]
        cases outcome with
        | ok _ => rfl
        | error e => exact (Nat.max_eq_left (Nat.zero_le _)).symm
      · cases outcome <;> cases stored
        rfl
  | updateLocked h old new =>
      obtain ⟨outcome, h'⟩ := result
      have counter := updateLocked_inv column integer ran
      refine ⟨counter ▸ raisedTo_ge .., fun _ _ => ?_, fun x stored => ⟨new, rfl, ?_⟩⟩
      · rw [counter]
        cases outcome with
        | ok _ => rfl
        | error e => exact (Nat.max_eq_left (Nat.zero_le _)).symm
      · cases outcome <;> cases stored
        rfl
  | getAutoIncrement offset inc nb =>
      obtain ⟨first, reserved⟩ := result
      exact ⟨(getAutoIncrement_inv ran).1, nofun, nofun⟩

/-- The counter is at or above every positive value stored so far. -/
theorem ColumnRun.stored_le {start st : Core n × AutoInc} {served : List (ServedColumn n)}
    (column : A.autoKey ≠ 0) (integer : A.autoKeyType.integer ≠ none)
    (run : ColumnRun A gran start served st) :
    ∀ x ∈ storedValues A served, x.toNat ≤ st.2.value.toNat := by
  induction run with
  | nil => exact nofun
  | @call served st st' t call result _ ran ih =>
      obtain ⟨s, a⟩ := st
      obtain ⟨rises, raised, isColumn⟩ := call_counter column integer ran
      intro x member
      unfold storedValues at member
      rw [List.filterMap_append, List.mem_append] at member
      rcases member with earlier | now
      · exact Nat.le_trans (ih x earlier) rises
      · have stored : storedValue A call result = some x := by simpa using now
        obtain ⟨record, isRow, _⟩ := isColumn x stored
        rw [raised record isRow, stored]
        exact Nat.le_max_right _ _
  | rows _ _ ih => exact ih

end Calls

/-- After every call the counter is at or above every positive value the run has stored; every
value of a later reservation that does not wrap is above them all; and failed calls and values
that are not positive leave the counter. -/
theorem generated_above_stored (A : AutoTable n) (column : A.autoKey ≠ 0)
    (integer : A.autoKeyType.integer ≠ none) (gran : Gran) (start st : Core n × AutoInc)
    (served : List (ServedColumn n)) (run : ColumnRun A gran start served st) :
    (∀ x ∈ storedValues A served, 0 < x → x ≤ (st.2.value.toNat : Int)) ∧
    (∀ t offset inc nb first reserved st',
      Exec (tableMachine n) t (fmGetAutoIncrement offset inc nb) st (first, reserved) st' →
      reserved ≠ 0 → first.toNat + ((orOne nb).toNat - 1) * (orOne inc).toNat < 2 ^ 64 →
      ∀ k < orOne nb, ∀ x ∈ storedValues A served, 0 < x →
        x < ((first + k * orOne inc).toNat : Int)) ∧
    ∀ t call result st', Exec (tableMachine n) t (ColumnCall.program A gran call) st result st' →
      ∀ record, call.row = some record →
        storedValue A call result = none ∨ A.columnValue record ≤ 0 →
        st'.2.value = st.2.value := by
  have stored := run.stored_le column integer
  obtain ⟨s, a⟩ := st
  refine ⟨fun x member positive => ?_, ?_, ?_⟩
  · have below := stored x member
    omega
  · intro t offset inc nb first reserved st' ran success fits k inside x member positive
    obtain ⟨_, ⟨refused, _⟩ | ⟨_, above⟩⟩ := getAutoIncrement_inv ran
    · exact absurd refused success
    · have below := stored x member
      have order : k.toNat < (orOne nb).toNat := inside
      have within : k.toNat * (orOne inc).toNat ≤ ((orOne nb).toNat - 1) * (orOne inc).toNat :=
        Nat.mul_le_mul_right _ (by omega)
      have exactly : (first + k * orOne inc).toNat = first.toNat + k.toNat * (orOne inc).toNat := by
        rw [UInt64.toNat_add, UInt64.toNat_mul]
        generalize k.toNat * (orOne inc).toNat = step at within ⊢
        generalize ((orOne nb).toNat - 1) * (orOne inc).toNat = span at within fits
        rw [Nat.mod_eq_of_lt (by omega : step < 2 ^ 64), Nat.mod_eq_of_lt (by omega)]
      rw [exactly]
      dsimp only at below
      omega
  · intro t call result st' ran record isRow unmoved
    obtain ⟨_, raised, isColumn⟩ := call_counter column integer ran
    apply UInt64.toNat_inj.mp
    rw [raised record isRow]
    refine Nat.max_eq_left ?_
    rcases unmoved with failed | small
    · rw [failed]
      exact Nat.zero_le _
    · cases result_ : storedValue A call result with
      | none => exact Nat.zero_le _
      | some x =>
          obtain ⟨record', isRow', rfl⟩ := isColumn x result_
          obtain rfl : record = record' := Option.some.inj (isRow.symm.trans isRow')
          rw [Option.getD_some, Int.toNat_of_nonpos small]
          exact Nat.zero_le _

def autoTable : AutoTable 1 where
  toTableShare := twinTable
  autoKey := 1
  autoKeyType := .binary
  floatValue _ := 0
  doubleValue _ := 0

/-- 7 is stored, then 8 is generated. -/
theorem generated_above_stored_autoTable :
    ∃ (st st' : Core 1 × AutoInc) (served : List (ServedColumn 1)) (first reserved : UInt64),
      ColumnRun autoTable .whole (byteStart, ⟨0, fun _ => false, 0⟩) served st ∧
      storedValues autoTable served = [7] ∧
      Exec (tableMachine 1) 0 (fmGetAutoIncrement 1 1 1) st (first, reserved) st' ∧
      reserved ≠ 0 ∧ (7 : Int) < (first + 0 * orOne 1).toNat := by
  have room : canAlloc twinTable.core byteStart := .inr ⟨by decide, rfl⟩
  obtain ⟨idx, s, g, inserted, _⟩ : ∃ idx s' g,
      Runs 0 (fmCoreInsertRow twinTable.core .whole fun _ => 7) byteStart (.ok idx) s' ∧ _ :=
    takesRow twinTable_hashes (fun _ _ => rfl) .whole (Rep.fresh _ _ _) (fun _ => rfl) room
  have observed : Exec autoIncMachine 0 (fmUpdateAutoIncrement autoTable fun _ => 7)
      ⟨0, fun _ => false, 0⟩ () ⟨7, fun _ => false, 1⟩ :=
    .act rfl (.loop (.act rfl (.ret _ _)))
  obtain ⟨h, wrote⟩ : ∃ h, Exec (tableMachine 1) 0
      (fmWrite autoTable .whole (fun _ => 7) writingHandler)
      (byteStart, ⟨0, fun _ => false, 0⟩) (.ok (), h) (s, ⟨7, fun _ => false, 1⟩) := by
    apply Exists.intro
    refine Exec.bind (M := tableMachine 1) (exec_onLeft inserted) ?_
    refine Exec.bind (M := tableMachine 1) (exec_onRight observed) ?_
    exact Exec.bind (M := tableMachine 1) (exec_onLeft (Exec.perform rfl)) (.ret _ _)
  let served : List (ServedColumn 1) := [⟨.write writingHandler fun _ => 7, (.ok (), h)⟩]
  have run : ColumnRun autoTable .whole (byteStart, ⟨0, fun _ => false, 0⟩) served
      (s, ⟨7, fun _ => false, 1⟩) := .call .nil wrote
  have stored : storedValues autoTable served = [7] := rfl
  have taken : Exec autoIncMachine 0 (fmCoreAutoIncReserve 1 1 1) ⟨7, fun _ => false, 1⟩ 8
      ⟨8, fun _ => false, 2⟩ := .loop (.act rfl (.act rfl (.ret _ _)))
  have reserved : Exec (tableMachine 1) 0 (fmGetAutoIncrement 1 1 1)
      (s, ⟨7, fun _ => false, 1⟩) (8, 1) (s, ⟨8, fun _ => false, 2⟩) :=
    Exec.bind (M := tableMachine 1) (exec_onRight taken) (.ret _ _)
  refine ⟨_, _, served, 8, 1, run, stored, reserved, by decide, ?_⟩
  exact (generated_above_stored autoTable (by decide) (by decide) .whole _ _ served run).2.1 0 1 1 1
    8 1 _ reserved (by decide) (by decide) 0 (by decide) 7 (by rw [stored]; simp) (by decide)

end Fastmem
