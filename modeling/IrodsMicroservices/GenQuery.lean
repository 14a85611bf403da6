import IrodsMicroservices.ArchiveIndex
import IrodsMicroservices.Paging
import IrodsMicroservices.Status

/-!
# The catalog, as GenQuery shows it

The catalog is asked through `rsGenQuery`. A statement is a condition and a
selection of columns; its answer is the list of rows that match, handed out in
pages. The server is not part of the repository, so it is a parameter: for each
statement the services make, the rows it matches (`Catalog`), and for each
request of a run, counted from zero, whether it delivers a page and of which
size, or fails (`GenQuery`).

A condition on a name is a text put into a buffer of `MAX_NAME_LEN` bytes
(`Catalog.nameCond`), and the server sees that text. A condition on an
identifier always fits.

`Walk` is the state of a run that makes such requests: the calls it has issued
to the archive, the number of requests made, and the number of statements that
are open.
-/

/-- A row of the collections below a parent. -/
structure CollRow where
  /-- The path of the collection. -/
  name : Text
  id : ℤ
  owner : Text
  zone : Text
  created : ℤ
  modified : ℤ
  deriving DecidableEq

/-- A row of the data objects of a collection: one good replica. -/
structure DataRow where
  /-- The name of the data object, without its collection. -/
  name : Text
  id : ℤ
  size : ℤ
  owner : Text
  zone : Text
  created : ℤ
  modified : ℤ
  checksum : Text
  deriving DecidableEq

/-- An attribute: a name, a value and a unit. -/
structure Avu where
  name : Text
  value : Text
  unit : Text
  deriving DecidableEq

/-- A row of an access control list. -/
structure AclRow where
  user : Text
  zone : Text
  access : Text
  deriving DecidableEq

/-- **The catalog**: the rows each statement of the services matches. -/
structure Catalog where
  /-- The identifiers of the collections whose name meets a condition. -/
  collIds : Text → List ℤ
  /-- The collections whose parent's name meets a condition. -/
  subColls : Text → List CollRow
  /-- The good replicas of the data objects of a collection. -/
  dataObjs : ℤ → List DataRow
  /-- The attributes of a data object. -/
  dataAttrs : ℤ → List Avu
  /-- The attributes of a collection. -/
  collAttrs : ℤ → List Avu
  /-- The access control list of a data object. -/
  dataAcl : ℤ → List AclRow
  /-- The access control list of a collection. -/
  collAcl : ℤ → List AclRow

/-- **The catalog server**: the rows, and what becomes of each request. -/
structure GenQuery extends Catalog where
  /-- What the server decides about each request. -/
  outcome : ℕ → PageOutcome
  /-- The error a failing request returns. -/
  failure : ℕ → Failure

/-- The state of a run that asks the catalog. -/
structure Walk where
  /-- The calls issued to the archive. -/
  calls : List ArchiveCall
  /-- The requests made. -/
  requests : ℕ
  /-- The statements that are open. -/
  opened : ℕ
  /-- The largest number of statements that have been open at once. -/
  peak : ℕ

namespace Walk

/-- Nothing done yet. -/
def start : Walk := ⟨[], 0, 0, 0⟩

/-- A call issued to the archive. -/
def emit (w : Walk) (c : ArchiveCall) : Walk := { w with calls := w.calls ++ [c] }

/-- One request made, of a statement that was open or not before it and is open
or not after it. -/
def answered (before after : Bool) (w : Walk) : Walk :=
  let opened := w.opened - before.toNat + after.toNat
  { w with requests := w.requests + 1, opened := opened, peak := max w.peak opened }

@[simp] theorem calls_start : start.calls = [] := rfl

@[simp] theorem calls_emit (w : Walk) (c : ArchiveCall) :
    (w.emit c).calls = w.calls ++ [c] := rfl

@[simp] theorem requests_emit (w : Walk) (c : ArchiveCall) :
    (w.emit c).requests = w.requests := rfl

@[simp] theorem calls_answered (a b : Bool) (w : Walk) :
    (w.answered a b).calls = w.calls := rfl

@[simp] theorem requests_answered (a b : Bool) (w : Walk) :
    (w.answered a b).requests = w.requests + 1 := rfl

end Walk

/-- `snprintf(cond, MAX_NAME_LEN, "='%s'", name)`. -/
def Catalog.nameCond (name : Text) : Text :=
  Text.rstrcpy ("='".toList ++ name ++ "'".toList)

namespace GenQuery

/-- The server of the requests of a run. -/
def server (Q : GenQuery) : PageServer Walk where
  outcome w := Q.outcome w.requests
  answered := Walk.answered

/-- **No request made so far has failed.** -/
def Fine (Q : GenQuery) (w : Walk) : Prop :=
  ∀ n < w.requests, Q.outcome n ≠ PageOutcome.fail

theorem fine_of_le {Q : GenQuery} {w w' : Walk} (h : w.requests ≤ w'.requests)
    (hf : Q.Fine w') : Q.Fine w :=
  fun n hn => hf n (lt_of_lt_of_le hn h)

/-- No request that has been made after a state has failed. -/
def FineSince (Q : GenQuery) (v w : Walk) : Prop :=
  ∀ n, v.requests ≤ n → n < w.requests → Q.outcome n ≠ PageOutcome.fail

/-- The state tells whether a request has failed. -/
theorem guards_fine (Q : GenQuery) : Q.server.Guards Q.Fine where
  of_answered := fine_of_le (Nat.le_succ _)
  not_fail h := h _ (Nat.lt_succ_self _)

/-- A server none of whose requests fails. -/
def Reliable (Q : GenQuery) : Prop := ∀ n, Q.outcome n ≠ PageOutcome.fail

theorem Reliable.fine {Q : GenQuery} (h : Q.Reliable) (w : Walk) : Q.Fine w :=
  fun n _ => h n

/-- `collID`: the identifier of a collection, or a negative status. The query
asks for one row at most, and its statement is left as the server leaves it. -/
def collID (Q : GenQuery) (coll : Text) (w : Walk) : Status × Walk :=
  match Q.outcome w.requests, Q.collIds (Catalog.nameCond coll) with
  | .fail, _ => ((Q.failure w.requests).status, w.answered false false)
  | .page _ _, [] => (.named .catNoRowsFound, w.answered false false)
  | .page _ more, id :: rest => (.num id, w.answered false (more || !rest.isEmpty))

theorem collID_calls (Q : GenQuery) (coll : Text) (w : Walk) :
    (Q.collID coll w).2.calls = w.calls := by
  unfold collID
  split <;> rfl

theorem collID_requests (Q : GenQuery) (coll : Text) (w : Walk) :
    (Q.collID coll w).2.requests = w.requests + 1 := by
  unfold collID
  split <;> rfl

end GenQuery
