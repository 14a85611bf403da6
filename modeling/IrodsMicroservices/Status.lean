import IrodsMicroservices.Text

/-!
# Statuses and parameters

A microservice returns an `int`: a negative number names an error of the iRODS
error table, anything else is success. The services return and compare a
handful of the table's names; the numbers behind the names are iRODS's and are
all negative. A `Status` is therefore either a number or a name
(`Status.isNeg`), and a `Failure` is a status that carries the proof that it is
an error, so that a call which has failed cannot be mistaken for one that has
returned.

A parameter (`MsParam`) is a typed pointer, and `parseMspForStr` is the way
every service reads a string from it.
-/

/-- The names of the iRODS error table that the services return or compare a
status with, and those a session returns. -/
inductive ErrorCode
  | sysInvalidInputParam
  | sysUserNoPermission
  | sysInvalidFilePath
  | sysTarOpenErr
  | sysTarAppendErr
  | sysTarExtractAllErr
  | sysRescQuotaExceeded
  | sysRescDoesNotExist
  | catUnknownCollection
  | catUnknownResource
  | catNoRowsFound
  | catalogAlreadyHasItemByThatName
  | catNameExistsAsDataobj
  | catNameExistsAsCollection
  | objPathDoesNotExist
  | overwriteWithoutForceFlag
  | sysFileDescOutOfRange
  | unmatchedKeyOrIndex
  | userInvalidRescInput
  deriving DecidableEq, Repr

/-- The `int` a call returns: a number, or the negative number the error table
gives to a name. -/
inductive Status
  | num (n : ℤ)
  | named (e : ErrorCode)
  deriving DecidableEq, Repr

namespace Status

/-- `status < 0`. -/
def isNeg : Status → Bool
  | num n => decide (n < 0)
  | named _ => true

/-- `(int) n`, for a status that is a `long long`. -/
def ofLongLong : Status → Status
  | num n => num (BitVec.ofInt 32 n).toInt
  | named e => named e

@[simp] theorem isNeg_num (n : ℤ) : (num n).isNeg = decide (n < 0) := rfl

@[simp] theorem isNeg_named (e : ErrorCode) : (named e).isNeg = true := rfl

end Status

/-- **A failed call**: a status together with the facts that it is negative and an `int`. -/
structure Failure where
  /-- The status the call returned. -/
  status : Status
  /-- It is an error. -/
  neg : status.isNeg = true
  /-- It is an `int`. -/
  int : status.ofLongLong = status
  deriving DecidableEq

namespace Failure

/-- The failure a name of the error table stands for. -/
def ofCode (e : ErrorCode) : Failure := ⟨Status.named e, rfl, rfl⟩

@[simp] theorem status_ofCode (e : ErrorCode) : (ofCode e).status = Status.named e := rfl

end Failure

/-- What keeps a call from returning. -/
inductive Fault
  /-- A NULL pointer is followed. -/
  | nullPointer
  /-- There is no memory for a buffer. -/
  | badAlloc
  /-- What is copied does not fit its buffer. -/
  | overrun
  /-- An exception is not caught. -/
  | exception
  /-- Memory is used that has been freed. -/
  | useAfterFree
  /-- The steps granted to the model are used up. -/
  | outOfFuel
  deriving DecidableEq, Repr

/-- What a run returns, where it is known to return something of a kind. -/
theorem Except.ok_of_any {ε α : Type} {x : Except ε α} {p : α → Bool}
    (h : x.toOption.any p = true) : ∃ a, x = .ok a ∧ p a = true := by
  cases x with
  | error e => cases h
  | ok a => exact ⟨a, rfl, h⟩

/-- The parameter types the services tell apart. -/
inductive MsType
  | str
  | int
  | keyValPair
  | other
  deriving DecidableEq, Repr

/-- A parameter: its type name, `none` where that pointer is NULL, and the
string its structure holds, `none` where there is no structure. -/
structure MsParam where
  /-- The type of the parameter. -/
  type : Option MsType
  /-- The text the structure holds. -/
  value : Option Text

namespace MsParam

/-- `type == NULL || strcmp(type, STR_MS_T)` does not hold. -/
def isStr (p : MsParam) : Bool := p.type == some MsType.str

/-- The string a parameter holds: NULL for a missing structure, for a parameter
that is no string, and for the text `null`. -/
def parseMspForStr (p : MsParam) : Option Text :=
  match p.isStr, p.value with
  | true, some s => if s = "null".toList then none else some s
  | _, _ => none

/-- What is read from a parameter that is tested first. -/
@[simp] theorem ite_isStr (p : MsParam) :
    (if p.isStr then p.parseMspForStr else none) = p.parseMspForStr := by
  unfold parseMspForStr
  cases p.isStr <;> rfl

theorem isStr_of_parse {p : MsParam} {s : Text} (h : p.parseMspForStr = some s) :
    p.isStr = true := by
  unfold parseMspForStr at h
  split at h
  · assumption
  · exact nomatch h

theorem parse_ne_null {p : MsParam} : p.parseMspForStr ≠ some "null".toList := by
  unfold parseMspForStr
  split
  · split
    · simp
    · rename_i hne
      exact fun h => hne (Option.some.inj h)
  · simp

/-- A string parameter. -/
def ofText (s : Text) : MsParam := ⟨some MsType.str, some s⟩

theorem parseMspForStr_ofText {s : Text} (h : s ≠ "null".toList) :
    (ofText s).parseMspForStr = some s := if_neg h

theorem eq_of_parseMspForStr {s t : Text} (h : (ofText s).parseMspForStr = some t) : s = t := by
  by_cases hnull : s = "null".toList
  · rw [show (ofText s).parseMspForStr = none from if_pos hnull] at h
    exact absurd h (by simp)
  · rw [parseMspForStr_ofText hnull] at h
    exact Option.some.inj h

end MsParam
