import IrodsMicroservices.GenQuery

/-!
# A session with iRODS

What the archive services ask of iRODS besides the catalog: making collections,
opening, creating, reading, writing and closing data objects, and changing
metadata. The server is not part of the repository. Its state is what its
documentation speaks of – a logical namespace of collections and data objects,
and the attributes of each (`Session`) – and what it may do beyond that is a
parameter (`Irods`): it may refuse any request, store only the start of what is
written, and deliver less than is asked for in a read.

The `n`-th request of a session is answered by the `n`-th decision of the
server, so that every pattern of failures is one `Irods`. The session keeps a
log of the requests and of whether each was granted.

A descriptor is identified with the path it was opened for. The services have
at most one descriptor open for writing at a path, and write it from its start
to its end, so that a write appends to the object.
-/

/-- What stands at a path of the logical namespace. -/
inductive Node
  | coll
  | obj (data : Bytes)
  deriving DecidableEq

/-- The operation of `rsModAVUMetadata`. -/
inductive AvuOp
  | set
  | add
  deriving DecidableEq, Repr

/-- A request. -/
inductive Request
  | collCreate (path : Text) (recursive : Bool)
  | objOpen (path : Text) (truncate : Bool) (resource : Option Text)
  | objCreate (path : Text) (resource : Option Text)
  | objRead (path : Text)
  | objWrite (path : Text) (data : Bytes)
  | objClose (path : Text)
  | modDataObjMeta (path : Text) (modified : ℤ)
  | modAvuMetadata (op : AvuOp) (isColl : Bool) (path : Text)
      (name value unit : Option Text)
  deriving DecidableEq

/-- **The server's freedom.** -/
structure Irods where
  /-- Whether a request is refused, and with which status. -/
  deny : ℕ → Option Failure
  /-- How many bytes a write stores at most: all of them where there is no
  bound. -/
  short : ℕ → Option ℕ
  /-- One less than how many bytes a read delivers at most. -/
  chunk : ℕ → ℕ

/-- **The state of a session.** -/
structure Session where
  /-- The logical namespace. -/
  nodes : Text → Option Node
  /-- The attributes of what stands at a path. -/
  avus : Text → Finset Avu
  /-- The requests made, and whether each was granted. -/
  log : List (Request × Bool)

namespace Session

/-- A request on record. -/
def record (s : Session) (r : Request) (granted : Bool) : Session :=
  { s with log := s.log ++ [(r, granted)] }

/-- Something put at a path. -/
def put (s : Session) (path : Text) (n : Node) : Session :=
  { s with nodes := Function.update s.nodes path (some n) }

@[simp] theorem nodes_record (s : Session) (r : Request) (b : Bool) :
    (s.record r b).nodes = s.nodes := rfl

@[simp] theorem avus_record (s : Session) (r : Request) (b : Bool) :
    (s.record r b).avus = s.avus := rfl

@[simp] theorem log_record (s : Session) (r : Request) (b : Bool) :
    (s.record r b).log = s.log ++ [(r, b)] := rfl

@[simp] theorem nodes_put_self (s : Session) (path : Text) (n : Node) :
    (s.put path n).nodes path = some n := Function.update_self ..

theorem nodes_put_of_ne (s : Session) {path p : Text} (n : Node) (h : p ≠ path) :
    (s.put path n).nodes p = s.nodes p := Function.update_of_ne h ..

@[simp] theorem avus_put (s : Session) (path : Text) (n : Node) :
    (s.put path n).avus = s.avus := rfl

@[simp] theorem log_put (s : Session) (path : Text) (n : Node) :
    (s.put path n).log = s.log := rfl

/-! ## The requests -/

/-- **The shape of every request**: it is refused at the server's will, fails on
the state it finds, or is carried out. -/
def request {α : Type} (E : Irods) (r : Request) (answer : Except Failure (α × Session))
    (s : Session) : Except Failure α × Session :=
  match E.deny s.log.length, answer with
  | some f, _ => (.error f, s.record r false)
  | none, .error f => (.error f, s.record r false)
  | none, .ok (a, s') => (.ok a, s'.record r true)

/-- The collections above a path, the outermost first, without the root. -/
def ancestors (path : Text) : List Text :=
  path.inits.filter (fun p => p != [] && (path.drop p.length).head? == some '/')

/-- `rsCollCreate`. With `RECURSIVE_OPR__KW` the collections above the path are
made too. -/
def collCreate (E : Irods) (path : Text) (recursive : Bool) (s : Session) :
    Except Failure Unit × Session :=
  s.request E (.collCreate path recursive) <|
    match s.nodes path with
    | some .coll => .error (.ofCode .catalogAlreadyHasItemByThatName)
    | some (.obj _) => .error (.ofCode .catNameExistsAsDataobj)
    | none =>
      if recursive then
        -- an object above the path stops the call before anything is made
        if (ancestors path).any (fun p => s.nodes p matches some (.obj _)) then
          .error (.ofCode .catNameExistsAsDataobj)
        else .ok ((), (ancestors path ++ [path]).foldl (fun s p => s.put p .coll) s)
      else if s.nodes (Text.parent path) = some .coll then .ok ((), s.put path .coll)
      else .error (.ofCode .catUnknownCollection)

/-- `rsDataObjOpen`, for reading, or for writing with `O_TRUNC`. -/
def objOpen (E : Irods) (path : Text) (truncate : Bool) (resource : Option Text)
    (s : Session) : Except Failure Unit × Session :=
  s.request E (.objOpen path truncate resource) <|
    match s.nodes path with
    | some (.obj _) => .ok ((), if truncate then s.put path (.obj []) else s)
    | _ => .error (.ofCode .objPathDoesNotExist)

/-- `rsDataObjCreate`, without the force flag. -/
def objCreate (E : Irods) (path : Text) (resource : Option Text) (s : Session) :
    Except Failure Unit × Session :=
  s.request E (.objCreate path resource) <|
    match s.nodes path with
    | some .coll => .error (.ofCode .catNameExistsAsCollection)
    | some (.obj _) => .error (.ofCode .overwriteWithoutForceFlag)
    | none =>
      if s.nodes (Text.parent path) = some .coll then .ok ((), s.put path (.obj []))
      else .error (.ofCode .catUnknownCollection)

/-- `rsDataObjRead`: the bytes delivered, none at the end of the object. -/
def objRead (E : Irods) (path : Text) (pos len : ℕ) (s : Session) :
    Except Failure Bytes × Session :=
  s.request E (.objRead path) <|
    match s.nodes path with
    | some (.obj data) => .ok ((data.drop pos).take (min len (E.chunk s.log.length + 1)), s)
    | _ => .error (.ofCode .sysFileDescOutOfRange)

/-- How many bytes of `len` the next write stores. -/
def stored (E : Irods) (s : Session) (len : ℕ) : ℕ :=
  match E.short s.log.length with
  | none => len
  | some n => min n len

/-- `rsDataObjWrite`: the number of bytes stored. -/
def objWrite (E : Irods) (path : Text) (buf : Bytes) (s : Session) :
    Except Failure ℕ × Session :=
  s.request E (.objWrite path buf) <|
    match s.nodes path with
    | some (.obj data) =>
      .ok (s.stored E buf.length, s.put path (.obj (data ++ buf.take (s.stored E buf.length))))
    | _ => .error (.ofCode .sysFileDescOutOfRange)

/-- `rsDataObjClose`. -/
def objClose (E : Irods) (path : Text) (s : Session) : Except Failure Unit × Session :=
  s.request E (.objClose path) (.ok ((), s))

/-- `rsModDataObjMeta` with `DATA_MODIFY_KW`. The times of an object are not part
of the state. -/
def modDataObjMeta (E : Irods) (path : Text) (modified : ℤ) (s : Session) :
    Except Failure Unit × Session :=
  s.request E (.modDataObjMeta path modified) (.ok ((), s))

/-- The attributes after one has been set, in the place of all of its name, or
added. -/
def changeAvus (op : AvuOp) (a : Avu) (avus : Finset Avu) : Finset Avu :=
  match op with
  | .set => insert a (avus.filter (fun b => b.name ≠ a.name))
  | .add => insert a avus

/-- An attribute set or added at a path. -/
def change (s : Session) (op : AvuOp) (path : Text) (a : Avu) : Session :=
  { s with avus := Function.update s.avus path (changeAvus op a (s.avus path)) }

/-- `rsModAVUMetadata`. A NULL name or value is refused, a NULL unit is an empty
one. -/
def modAvuMetadata (E : Irods) (op : AvuOp) (isColl : Bool) (path : Text)
    (name value unit : Option Text) (s : Session) : Except Failure Unit × Session :=
  s.request E (.modAvuMetadata op isColl path name value unit) <|
    match name, value with
    | some name, some value => .ok ((), s.change op path ⟨name, value, unit.getD []⟩)
    | _, _ => .error (.ofCode .sysInvalidInputParam)

/-! ## What a request does -/

section Requests

variable {E : Irods} {s s' : Session} {path : Text}

theorem request_ok {α : Type} {r : Request} {answer : Except Failure (α × Session)} {a : α}
    (h : s.request E r answer = (.ok a, s')) :
    ∃ t, answer = .ok (a, t) ∧ s' = t.record r true := by
  unfold request at h
  split at h
  · exact absurd (Prod.mk.inj h).1 (by simp)
  · exact absurd (Prod.mk.inj h).1 (by simp)
  · rename_i b t _
    obtain ⟨h1, rfl⟩ := Prod.mk.inj h
    exact ⟨t, by rw [Except.ok.inj h1], rfl⟩

/-- What a server that refuses nothing answers. -/
theorem request_of_willing (hE : ∀ n, E.deny n = none) {α : Type} {r : Request} {a : α}
    {t : Session} : s.request E r (.ok (a, t)) = (.ok a, t.record r true) := by
  unfold request
  rw [hE]

theorem request_error {α : Type} {r : Request} {answer : Except Failure (α × Session)}
    {f : Failure} (h : s.request E r answer = (.error f, s')) : s' = s.record r false := by
  unfold request at h
  split at h
  · exact (Prod.mk.inj h).2.symm
  · exact (Prod.mk.inj h).2.symm
  · exact absurd (Prod.mk.inj h).1 (by simp)

/-- A request fails because it is refused, or on the state it finds. -/
theorem request_error_cases {α : Type} {r : Request} {answer : Except Failure (α × Session)}
    {f : Failure} (h : s.request E r answer = (.error f, s')) :
    E.deny s.log.length = some f ∨ answer = .error f := by
  unfold request at h
  split at h
  · rename_i hdeny
    exact .inl (hdeny.trans (congrArg some (Except.error.inj (Prod.mk.inj h).1)))
  · exact .inr (congrArg Except.error (Except.error.inj (Prod.mk.inj h).1))
  · exact nomatch (Prod.mk.inj h).1

/-- Closing changes nothing and goes on record. -/
theorem objClose_spec {r : Except Failure Unit}
    (h : s.objClose E path = (r, s')) :
    s'.nodes = s.nodes
      ∧ (s'.log.getLast? = some (.objClose path, true) ↔ r = .ok ()) := by
  cases r with
  | ok =>
    obtain ⟨t, ht, rfl⟩ := request_ok h
    obtain ⟨-, rfl⟩ := Prod.mk.inj (Except.ok.inj ht)
    exact ⟨rfl, by simp⟩
  | error f =>
    rw [request_error h]
    exact ⟨rfl, by simp⟩

/-- Closing changes nothing, whatever comes of it. -/
theorem objClose_frame (s : Session) (E : Irods) (path : Text) :
    (s.objClose E path).2.nodes = s.nodes ∧ (s.objClose E path).2.avus = s.avus := by
  unfold objClose request
  cases E.deny s.log.length with
  | some f => exact ⟨rfl, rfl⟩
  | none => exact ⟨rfl, rfl⟩

/-- Opening for reading changes nothing. -/
theorem objOpen_read_spec {resource : Option Text} {r : Except Failure Unit}
    (h : s.objOpen E path false resource = (r, s')) :
    s'.nodes = s.nodes ∧ s'.avus = s.avus
      ∧ (r = .ok () → ∃ data, s.nodes path = some (.obj data)) := by
  cases r with
  | ok =>
    obtain ⟨t, ht, rfl⟩ := request_ok h
    split at ht
    · rename_i data hnode
      obtain ⟨-, rfl⟩ := Prod.mk.inj (Except.ok.inj ht)
      exact ⟨rfl, rfl, fun _ => ⟨data, hnode⟩⟩
    · exact absurd ht (by simp)
  | error f =>
    rw [request_error h]
    exact ⟨rfl, rfl, by simp⟩

/-- Opening for writing leaves an empty object, where it succeeds, and changes
nothing else. -/
theorem objOpen_write_spec {resource : Option Text} {r : Except Failure Unit}
    (h : s.objOpen E path true resource = (r, s')) :
    s'.avus = s.avus ∧ (∀ f, r = .error f → s'.nodes = s.nodes)
      ∧ (r = .ok () → (∃ data, s.nodes path = some (.obj data))
        ∧ s'.nodes = Function.update s.nodes path (some (.obj []))) := by
  cases r with
  | ok =>
    obtain ⟨t, ht, rfl⟩ := request_ok h
    split at ht
    · rename_i data hnode
      obtain ⟨-, rfl⟩ := Prod.mk.inj (Except.ok.inj ht)
      exact ⟨rfl, by simp, fun _ => ⟨⟨data, hnode⟩, rfl⟩⟩
    · exact absurd ht (by simp)
  | error f =>
    rw [request_error h]
    exact ⟨rfl, fun _ _ => rfl, by simp⟩

/-- Creating leaves an empty object, where it succeeds, and changes nothing
else. -/
theorem objCreate_spec {resource : Option Text} {r : Except Failure Unit}
    (h : s.objCreate E path resource = (r, s')) :
    s'.avus = s.avus ∧ (∀ f, r = .error f → s'.nodes = s.nodes)
      ∧ (r = .ok () → s.nodes path = none ∧ s.nodes (Text.parent path) = some .coll
        ∧ s'.nodes = Function.update s.nodes path (some (.obj []))) := by
  cases r with
  | ok =>
    obtain ⟨t, ht, rfl⟩ := request_ok h
    split at ht
    · exact absurd ht (by simp)
    · exact absurd ht (by simp)
    · rename_i hnode
      split at ht
      · rename_i hparent
        obtain ⟨-, rfl⟩ := Prod.mk.inj (Except.ok.inj ht)
        exact ⟨rfl, by simp, fun _ => ⟨hnode, hparent, rfl⟩⟩
      · exact absurd ht (by simp)
  | error f =>
    rw [request_error h]
    exact ⟨rfl, fun _ _ => rfl, by simp⟩

/-- Reading changes nothing, and delivers what comes next in the object: nothing
only at its end. -/
theorem objRead_spec {pos len : ℕ} {r : Except Failure Bytes}
    (h : s.objRead E path pos len = (r, s')) :
    s'.nodes = s.nodes
      ∧ ∀ buf, r = .ok buf → ∃ data n, s.nodes path = some (.obj data)
        ∧ buf = (data.drop pos).take n ∧ (0 < len → 0 < n) := by
  cases r with
  | ok =>
    obtain ⟨t, ht, rfl⟩ := request_ok h
    split at ht
    · rename_i data hnode
      obtain ⟨rfl, rfl⟩ := Prod.mk.inj (Except.ok.inj ht)
      refine ⟨rfl, fun buf hbuf => ⟨data, _, hnode, (Except.ok.inj hbuf).symm, ?_⟩⟩
      exact fun hlen => lt_min hlen (Nat.succ_pos _)
    · exact absurd ht (by simp)
  | error f =>
    rw [request_error h]
    exact ⟨rfl, by simp⟩

end Requests

/-- A session in which nothing has been asked yet. -/
def fresh (nodes : Text → Option Node) : Session := ⟨nodes, fun _ => ∅, []⟩

end Session

namespace Irods

/-- A server that refuses nothing, and stores a byte at least of what is
written. -/
def Willing (E : Irods) : Prop := ∀ n, E.deny n = none ∧ E.short n ≠ some 0

/-- A server that refuses nothing, and stores and delivers what it is asked to. -/
def obliging : Irods := ⟨fun _ => none, fun _ => none, fun _ => 1048575⟩

theorem obliging_willing : obliging.Willing := fun _ => ⟨rfl, by simp [obliging]⟩

/-- The same server, refusing one request. -/
def refusing (n : ℕ) : Irods :=
  { obliging with deny := fun m => if m = n then some (.ofCode .sysRescQuotaExceeded) else none }

end Irods
