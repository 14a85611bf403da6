import IrodsMicroservices.Session

/-!
# The libarchive library

What the services use of libarchive: writing an archive entry by entry through a
callback, and reading one back. The library is not part of the repository, so
what it does with the bytes is a parameter (`Libarchive`): which bytes a call
adds to the stream, how many of them stay in its buffer, which calls it refuses,
and what it finds in a stream.

The callbacks are the repository's. `aWrite` is `a_write`; the library calls it
again with what is left when it has taken only part of a buffer, and gives up
when it takes nothing (`drain`). A writer that has given up is dead. Freeing a
writer hands over what it still holds with the end of the archive, and calls the
close callback (`ArchiveWriter.free`); whether it does so for a dead one is up to
the library.
-/

/-- What is set in an entry before its header is written. -/
structure EntryHeader where
  /-- The path name: none where it is set to NULL. -/
  pathname : Option Text
  /-- `AE_IFDIR`, against `AE_IFREG`. -/
  isDir : Bool
  perm : ℕ
  size : ℤ
  mtime : Option ℤ
  deriving DecidableEq

/-- A call that writes. -/
inductive WriteCall
  | header (e : EntryHeader)
  | data (buf : Bytes)
  deriving DecidableEq

/-- An entry whose header has been read. -/
structure ReadEntry where
  pathname : Option Text
  isDir : Bool
  size : ℤ
  /-- What the calls of `archive_read_data` return one after the other. -/
  blocks : List Bytes
  /-- Whether the last of these calls fails. -/
  fails : Bool

/-- What `archive_read_next_header` returns. -/
inductive HeaderResult
  | ok (e : ReadEntry)
  | eof
  | retry
  | warn
  | failed
  | fatal
  /-- There is no header to read: `archive_read_open` knows no format of the data, and has
  called the close callback. -/
  | unopened

/-- **The libarchive library.** The flag of the writing part is the format: zip,
or else pax. -/
structure Libarchive where
  /-- The bytes a call adds to the stream, after the calls before it. -/
  emit : Bool → List WriteCall → WriteCall → Bytes
  /-- The end of the archive. -/
  trailer : Bool → List WriteCall → Bytes
  /-- Whether a call is refused by the library itself. -/
  refuses : Bool → List WriteCall → WriteCall → Bool
  /-- How many bytes stay in the buffer after some calls. -/
  holds : Bool → List WriteCall → ℕ
  /-- Whether freeing a writer that it has given up on calls the close callback. -/
  closesDead : Bool
  /-- The entries found in a stream: the result of the `n`-th call that reads a
  header. -/
  entryAt : Bytes → ℕ → HeaderResult

namespace Libarchive

/-- The bytes some calls add to the stream, after the calls before them. -/
def emitted (L : Libarchive) (zip : Bool) : List WriteCall → List WriteCall → Bytes
  | _, [] => []
  | done, c :: calls => L.emit zip done c ++ L.emitted zip (done ++ [c]) calls

/-- The stream after some calls. -/
def stream (L : Libarchive) (zip : Bool) (calls : List WriteCall) : Bytes :=
  L.emitted zip [] calls

/-- **The whole archive.** -/
def whole (L : Libarchive) (zip : Bool) (calls : List WriteCall) : Bytes :=
  L.stream zip calls ++ L.trailer zip calls

theorem emitted_append (L : Libarchive) (zip : Bool) (c : WriteCall) :
    ∀ calls done, L.emitted zip done (calls ++ [c])
      = L.emitted zip done calls ++ L.emit zip (done ++ calls) c := by
  intro calls
  induction calls with
  | nil => intro done; simp [emitted]
  | cons b calls ih =>
    intro done
    rw [List.cons_append, emitted, ih, emitted, List.append_assoc, List.append_assoc]
    rfl

/-- A call adds its bytes at the end of the stream. -/
theorem stream_append (L : Libarchive) (zip : Bool) (calls : List WriteCall)
    (c : WriteCall) :
    L.stream zip (calls ++ [c]) = L.stream zip calls ++ L.emit zip calls c :=
  L.emitted_append zip c calls []

/-- The data that comes before the next header. -/
def dataOf : List WriteCall → Bytes
  | .data buf :: calls => buf ++ dataOf calls
  | _ => []

/-- The entries some calls write. -/
def entriesOf : List WriteCall → List (EntryHeader × Bytes)
  | [] => []
  | .header e :: calls => (e, dataOf calls) :: entriesOf calls
  | .data _ :: calls => entriesOf calls

/-- An entry that is as its header says: a directory without data, or a file
with as many bytes as announced. -/
def Faithful (p : EntryHeader × Bytes) : Prop :=
  p.2.length = if p.1.isDir then 0 else p.1.size

/-- An entry that has been read is the one that was written: its type, its size
and its data, in blocks of a byte at least, and for a file its name. -/
def Restores (p : EntryHeader × Bytes) (e : ReadEntry) : Prop :=
  e.isDir = p.1.isDir ∧ (p.1.isDir = false → e.pathname = p.1.pathname ∧ e.size = p.1.size)
    ∧ e.blocks.flatten = p.2 ∧ [] ∉ e.blocks ∧ e.fails = false

/-- **What the services rely on**: a stream that has been written whole gives back
its entries in their order, and nothing after them. -/
structure ReadsBack (L : Libarchive) : Prop where
  entry : ∀ (zip : Bool) (calls : List WriteCall), (∀ p ∈ entriesOf calls, Faithful p) →
    ∀ (n : ℕ) (p : EntryHeader × Bytes), (entriesOf calls)[n]? = some p →
      ∃ e, L.entryAt (L.whole zip calls) n = .ok e ∧ Restores p e
  eof : ∀ (zip : Bool) (calls : List WriteCall), (∀ p ∈ entriesOf calls, Faithful p) →
    L.entryAt (L.whole zip calls) (entriesOf calls).length = .eof

end Libarchive

/-! ## Writing -/

/-- `a_write`: the number of bytes taken, none for an error. -/
def aWrite (E : Irods) (path : Text) (buf : Bytes) (s : Session) : Option ℕ × Session :=
  match s.objWrite E path buf with
  | (.ok n, s) => (some n, s)
  | (.error _, s) => (none, s)

/-- The library handing over a buffer: it calls `aWrite` with what is left until
nothing is left, and gives up where nothing is taken. -/
def drain (E : Irods) (path : Text) : ℕ → Bytes → Session → Bool × Session
  | 0, buf, s => (buf.isEmpty, s)
  | fuel + 1, buf, s =>
    if buf = [] then (true, s)
    else match aWrite E path buf s with
      | (some (n + 1), s) => drain E path fuel (buf.drop (n + 1)) s
      -- a write that takes nothing is an error, and so the loop ends
      | (some 0, s) => (false, s)
      | (none, s) => (false, s)

/-- **A writer** and the archive object it writes to. -/
structure ArchiveWriter where
  /-- The path of the archive object. -/
  path : Text
  /-- Whether the format is zip. -/
  zip : Bool
  /-- The calls accepted so far. -/
  calls : List WriteCall
  /-- The bytes still in the buffer. -/
  pending : Bytes
  /-- Whether the library has given up. -/
  dead : Bool

namespace ArchiveWriter

/-- A writer that has just been opened. -/
def start (path : Text) (zip : Bool) : ArchiveWriter := ⟨path, zip, [], [], false⟩

/-- `archive_write_header` and `archive_write_data`: whether the call succeeds. -/
def call (L : Libarchive) (E : Irods) (c : WriteCall) (w : ArchiveWriter) (s : Session) :
    Bool × ArchiveWriter × Session :=
  if w.dead || L.refuses w.zip w.calls c then (false, w, s)
  else
    let calls := w.calls ++ [c]
    let pending := w.pending ++ L.emit w.zip w.calls c
    let out := pending.length - L.holds w.zip calls
    let r := drain E w.path (pending.take out).length (pending.take out) s
    (r.1, { w with calls := calls, pending := pending.drop out, dead := !r.1 }, r.2)

/-- `archive_write_free`: what is left is handed over with the end of the archive,
then the close callback is called. The result tells whether both succeeded. Of a
writer that is dead nothing more is handed over. -/
def free (L : Libarchive) (E : Irods) (w : ArchiveWriter) (s : Session) : Bool × Session :=
  if w.dead then (false, if L.closesDead then (s.objClose E w.path).2 else s)
  else
    let out := w.pending ++ L.trailer w.zip w.calls
    let r := drain E w.path out.length out s
    match r.2.objClose E w.path with
    | (.ok (), s) => (r.1, s)
    | (.error _, s) => (false, s)

end ArchiveWriter

/-! ## What handing over a buffer does -/

section Drain

variable {E : Irods} {path : Text}

/-- What a write does: it appends some start of the buffer, and nothing where it
fails. -/
theorem aWrite_spec {buf data : Bytes} {s s' : Session} {r : Option ℕ}
    (hs : s.nodes path = some (.obj data)) (h : aWrite E path buf s = (r, s')) :
    (∀ p, p ≠ path → s'.nodes p = s.nodes p)
      ∧ s'.nodes path = some (.obj (data ++ buf.take (r.getD 0)))
      ∧ r.getD 0 ≤ buf.length := by
  unfold aWrite at h
  split at h
  · rename_i n t hw
    obtain ⟨rfl, rfl⟩ := Prod.mk.inj h
    obtain ⟨u, hu, rfl⟩ := Session.request_ok hw
    rw [hs] at hu
    obtain ⟨rfl, rfl⟩ := Prod.mk.inj (Except.ok.inj hu)
    refine ⟨fun p hp => ?_, ?_, ?_⟩
    · rw [Session.nodes_record, Session.nodes_put_of_ne _ _ hp]
    · rw [Session.nodes_record, Session.nodes_put_self]
      rfl
    · show s.stored E buf.length ≤ _
      unfold Session.stored
      split
      · exact le_rfl
      · exact min_le_right _ _
  · rename_i t hw
    obtain ⟨rfl, rfl⟩ := Prod.mk.inj h
    rw [Session.request_error hw]
    exact ⟨fun _ _ => rfl, by rw [Session.nodes_record, hs]; simp, Nat.zero_le _⟩

/-- **What handing over a buffer does**: it appends a start of the buffer to the
object – all of it exactly where it succeeds – and leaves the rest of the
namespace alone. -/
theorem drain_spec : ∀ {fuel : ℕ} {buf data : Bytes} {s s' : Session} {ok : Bool},
    buf.length ≤ fuel → s.nodes path = some (.obj data) →
    drain E path fuel buf s = (ok, s') →
    (∀ p, p ≠ path → s'.nodes p = s.nodes p)
      ∧ ∃ n, s'.nodes path = some (.obj (data ++ buf.take n))
        ∧ n ≤ buf.length ∧ (ok = true ↔ n = buf.length) := by
  intro fuel
  induction fuel with
  | zero =>
    intro buf data s s' ok hfuel hs h
    have hbuf : buf = [] := List.length_eq_zero_iff.mp (Nat.le_zero.mp hfuel)
    subst hbuf
    obtain ⟨rfl, rfl⟩ := Prod.mk.inj h
    exact ⟨fun _ _ => rfl, 0, by rw [hs]; simp, le_rfl, by simp⟩
  | succ fuel ih =>
    intro buf data s s' ok hfuel hs h
    unfold drain at h
    split at h
    · rename_i hbuf
      subst hbuf
      obtain ⟨rfl, rfl⟩ := Prod.mk.inj h
      exact ⟨fun _ _ => rfl, 0, by rw [hs]; simp, le_rfl, by simp⟩
    · rename_i hbuf
      have hpos : 0 < buf.length := List.length_pos_iff.mpr hbuf
      split at h
      · rename_i n t hw
        obtain ⟨hframe, hnode, hle⟩ := aWrite_spec hs hw
        rw [Option.getD_some] at hnode hle
        have hlen : (buf.drop (n + 1)).length ≤ fuel := by
          rw [List.length_drop]
          omega
        obtain ⟨hframe', m, hnode', hm, hok⟩ := ih hlen hnode h
        rw [List.length_drop] at hm hok
        refine ⟨fun p hp => (hframe' p hp).trans (hframe p hp), n + 1 + m, ?_, by omega,
          hok.trans (by omega)⟩
        rw [hnode', List.append_assoc, ← List.take_add]
      · rename_i t hw
        obtain ⟨hframe, hnode, -⟩ := aWrite_spec hs hw
        obtain ⟨rfl, rfl⟩ := Prod.mk.inj h
        exact ⟨hframe, 0, hnode, Nat.zero_le _, by simp; omega⟩
      · rename_i t hw
        obtain ⟨hframe, hnode, -⟩ := aWrite_spec hs hw
        obtain ⟨rfl, rfl⟩ := Prod.mk.inj h
        exact ⟨hframe, 0, hnode, Nat.zero_le _, by simp; omega⟩

/-- A server that is willing takes everything. -/
theorem drain_of_willing (hE : E.Willing) : ∀ {fuel : ℕ} {buf data : Bytes} {s : Session},
    buf.length ≤ fuel → s.nodes path = some (.obj data) →
    (drain E path fuel buf s).1 = true := by
  intro fuel
  induction fuel with
  | zero =>
    intro buf data s hfuel _
    rw [List.length_eq_zero_iff.mp (Nat.le_zero.mp hfuel)]
    rfl
  | succ fuel ih =>
    intro buf data s hfuel hs
    unfold drain
    split
    · rfl
    · rename_i hbuf
      have hpos : 0 < s.stored E buf.length := by
        unfold Session.stored
        split
        · exact List.length_pos_iff.mpr hbuf
        · rename_i n hn
          refine lt_min (Nat.pos_of_ne_zero ?_) (List.length_pos_iff.mpr hbuf)
          rintro rfl
          exact (hE _).2 hn
      have hwrite : aWrite E path buf s = (some (s.stored E buf.length),
          (s.put path (.obj (data ++ buf.take (s.stored E buf.length)))).record
            (.objWrite path buf) true) := by
        unfold aWrite Session.objWrite
        rw [hs]
        dsimp only
        rw [Session.request_of_willing (fun n => (hE n).1)]
      obtain ⟨n, hn⟩ := Nat.exists_eq_succ_of_ne_zero (Nat.ne_of_gt hpos)
      rw [hwrite, hn]
      refine ih ?_ (Session.nodes_put_self ..)
      rw [List.length_drop]
      omega

end Drain

namespace ArchiveWriter

variable {L : Libarchive} {E : Irods}

/-- **What the object holds and what is still in the buffer are the stream.** -/
def Sound (L : Libarchive) (w : ArchiveWriter) (s : Session) : Prop :=
  w.dead = false
    ∧ ∃ data, s.nodes w.path = some (.obj data)
      ∧ data ++ w.pending = L.stream w.zip w.calls

/-- **The whole archive is stored, and its object closed.** -/
def Complete (L : Libarchive) (w : ArchiveWriter) (s : Session) : Prop :=
  s.nodes w.path = some (.obj (L.whole w.zip w.calls))
    ∧ s.log.getLast? = some (.objClose w.path, true)

theorem Sound.start {path : Text} {s : Session} (h : s.nodes path = some (.obj []))
    (zip : Bool) : (start path zip).Sound L s :=
  ⟨rfl, [], h, rfl⟩

/-- What leaves the object of the writer alone keeps it sound. -/
theorem Sound.of_nodes {w : ArchiveWriter} {s s' : Session} (h : w.Sound L s)
    (hnodes : s'.nodes w.path = s.nodes w.path) : w.Sound L s' :=
  ⟨h.1, by rw [hnodes]; exact h.2⟩

/-- **What a call that succeeds does.** -/
theorem call_spec {c : WriteCall} {w w' : ArchiveWriter} {s s' : Session}
    (hw : w.Sound L s) (h : w.call L E c s = (true, w', s')) :
    w'.Sound L s' ∧ w'.path = w.path ∧ w'.zip = w.zip ∧ w'.calls = w.calls ++ [c]
      ∧ ∀ p, p ≠ w.path → s'.nodes p = s.nodes p := by
  obtain ⟨hdead, data, hnode, hdata⟩ := hw
  unfold call at h
  split at h
  · exact absurd (Prod.mk.inj h).1 (by simp)
  · dsimp only at h
    obtain ⟨hok, h⟩ := Prod.mk.inj h
    obtain ⟨rfl, rfl⟩ := Prod.mk.inj h
    set pending := w.pending ++ L.emit w.zip w.calls c with hpending
    set out := pending.length - L.holds w.zip (w.calls ++ [c])
    obtain ⟨hframe, n, hnode', -, hn⟩ := drain_spec le_rfl hnode
      (rfl : drain E w.path (pending.take out).length (pending.take out) s = _)
    rw [hn.mp hok, List.take_length] at hnode'
    refine ⟨⟨by show (!_) = false; rw [hok]; rfl, _, hnode', ?_⟩, rfl, rfl, rfl, hframe⟩
    rw [List.append_assoc]
    show data ++ (pending.take out ++ pending.drop out) = _
    rw [List.take_append_drop, hpending, ← List.append_assoc, hdata, L.stream_append]

/-- A library that refuses no entry with a name. -/
def Accepting (L : Libarchive) : Prop :=
  ∀ zip calls c, (∀ e, c = .header e → e.pathname.isSome) → L.refuses zip calls c = false

/-- A call succeeds where neither the library nor the server refuses. -/
theorem call_of_willing (hE : E.Willing) (hL : Accepting L) {c : WriteCall}
    (hc : ∀ e, c = .header e → e.pathname.isSome) {w : ArchiveWriter} {s : Session}
    (hw : w.Sound L s) : ∃ w' s', w.call L E c s = (true, w', s') := by
  obtain ⟨hdead, data, hnode, -⟩ := hw
  unfold call
  rw [hdead, hL _ _ c hc, if_neg (by simp)]
  dsimp only
  rw [drain_of_willing hE le_rfl hnode]
  exact ⟨_, _, rfl⟩

/-- **Freeing a writer succeeds exactly where the whole archive is stored and its
object closed.** -/
theorem free_spec {w : ArchiveWriter} {s s' : Session} {ok : Bool} (hw : w.Sound L s)
    (h : w.free L E s = (ok, s')) :
    (ok = true ↔ w.Complete L s') ∧ ∀ p, p ≠ w.path → s'.nodes p = s.nodes p := by
  obtain ⟨hdead, data, hnode, hdata⟩ := hw
  unfold free at h
  rw [if_neg (by simp [hdead])] at h
  dsimp only at h
  set out := w.pending ++ L.trailer w.zip w.calls with hout
  obtain ⟨hframe, n, hnode', hn, hok⟩ := drain_spec le_rfl hnode
    (rfl : drain E w.path out.length out s = _)
  set r := drain E w.path out.length out s
  have hwhole : data ++ out = L.whole w.zip w.calls := by
    rw [hout, ← List.append_assoc, hdata]
    rfl
  have hcontent : r.2.nodes w.path = some (.obj (L.whole w.zip w.calls)) ↔ r.1 = true := by
    rw [hnode', ← hwhole, hok]
    refine ⟨fun heq => ?_, fun heq => by rw [heq, List.take_length]⟩
    have hlen := congrArg List.length (List.append_cancel_left (Node.obj.inj (Option.some.inj heq)))
    rw [List.length_take] at hlen
    omega
  split at h
  · rename_i hclose
    obtain ⟨rfl, rfl⟩ := Prod.mk.inj h
    obtain ⟨hnodes, hlast⟩ := Session.objClose_spec hclose
    refine ⟨?_, fun p hp => by rw [hnodes]; exact hframe p hp⟩
    unfold Complete
    rw [hnodes, hcontent, hlast]
    simp
  · rename_i hclose
    obtain ⟨rfl, rfl⟩ := Prod.mk.inj h
    obtain ⟨hnodes, hlast⟩ := Session.objClose_spec hclose
    refine ⟨?_, fun p hp => by rw [hnodes]; exact hframe p hp⟩
    unfold Complete
    rw [hlast]
    simp

/-- Freeing a writer succeeds where nothing is refused. -/
theorem free_of_willing (hE : E.Willing) {w : ArchiveWriter} {s : Session} (hw : w.Sound L s) :
    (w.free L E s).1 = true := by
  obtain ⟨hdead, data, hnode, -⟩ := hw
  unfold free
  rw [if_neg (by simp [hdead])]
  dsimp only
  have hdrain := drain_of_willing hE (le_refl (w.pending ++ L.trailer w.zip w.calls).length) hnode
  unfold Session.objClose
  rw [Session.request_of_willing (fun n => (hE n).1)]
  exact hdrain

end ArchiveWriter
