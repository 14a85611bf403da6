import IrodsMicroservices.RequestLog

/-!
# Writes that store less

`rsDataObjWrite` may store the start of what it is given, and returns how much. When an
archive is made that count goes back to libarchive, which hands over the rest once more.
`extractItem` looks at the sign of it only, so that what a write has not stored is left out
and what comes after moves up (`writeBlocks_stored`). An extraction without an error has
therefore stored the entry exactly where no write has been short (`extractItem_whole_iff`).
-/

/-- The blocks an entry is read in: a block of no bytes is the end. -/
def ReadEntry.parts (e : ReadEntry) : List Bytes := e.blocks.takeWhile (fun b => !b.isEmpty)

/-- The content of an entry. -/
def ReadEntry.content (e : ReadEntry) : Bytes := e.parts.flatten

namespace Irods

/-- **The server stores each block whole**, written one after the other from the request
`n` on. -/
def StoresWhole (E : Irods) (n : ℕ) (parts : List Bytes) : Prop :=
  ∀ i b, parts[i]? = some b → ∀ m, E.short (n + i) = some m → b.length ≤ m

theorem storesWhole_nil (E : Irods) (n : ℕ) : E.StoresWhole n [] :=
  fun _ _ h => nomatch h

theorem storesWhole_cons {E : Irods} {n : ℕ} {b : Bytes} {parts : List Bytes} :
    E.StoresWhole n (b :: parts)
      ↔ (∀ m, E.short n = some m → b.length ≤ m) ∧ E.StoresWhole (n + 1) parts := by
  constructor
  · refine fun h => ⟨h 0 b rfl, fun i c hc m hm => h (i + 1) c hc m ?_⟩
    rw [← hm, Nat.add_assoc, Nat.add_comm 1 i]
  · rintro ⟨hb, hparts⟩ i c hc m hm
    cases i with
    | zero => exact Option.some.inj hc ▸ hb m hm
    | succ i =>
      refine hparts i c hc m ?_
      rw [← hm, Nat.add_assoc, Nat.add_comm 1 i]

end Irods

section

variable {E : Irods} {path : Text}

namespace Session

/-- A block is stored whole where the server has no lower bound for the write. -/
theorem stored_eq_iff {s : Session} {len : ℕ} :
    s.stored E len = len ↔ ∀ m, E.short s.log.length = some m → len ≤ m := by
  unfold stored
  cases E.short s.log.length with
  | none => exact iff_of_true rfl (fun _ h => nomatch h)
  | some n => exact min_eq_right_iff.trans ⟨fun h _ hm => Option.some.inj hm ▸ h, fun h => h n rfl⟩

theorem stored_le (s : Session) (E : Irods) (len : ℕ) : s.stored E len ≤ len := by
  unfold stored
  split
  · exact Nat.le_refl _
  · exact Nat.min_le_right _ _

/-- A write puts the start of the block behind what the object holds. -/
theorem objWrite_start {buf data : Bytes} {n : ℕ} {s s' : Session}
    (hs : s.nodes path = some (.obj data)) (h : s.objWrite E path buf = (.ok n, s')) :
    s'.nodes path = some (.obj (data ++ buf.take (s.stored E buf.length))) := by
  obtain ⟨t, ht, rfl⟩ := request_ok h
  rw [hs] at ht
  obtain ⟨-, rfl⟩ := Prod.mk.inj (Except.ok.inj ht)
  exact nodes_put_self ..

end Session

/-- The start of a block and what follows are the block and what follows only if nothing
has been left out. -/
theorem take_append_eq_iff {n : ℕ} {b d c : Bytes} (hn : n ≤ b.length)
    (hd : d.length ≤ c.length) : b.take n ++ d = b ++ c ↔ n = b.length ∧ d = c := by
  constructor
  · intro h
    have hlength := congrArg List.length h
    rw [List.length_append, List.length_append, List.length_take_of_le hn] at hlength
    obtain rfl : n = b.length := by omega
    rw [List.take_length] at h
    exact ⟨rfl, List.append_cancel_left h⟩
  · rintro ⟨rfl, rfl⟩
    rw [List.take_length]

/-- **What the loop stores of the blocks it is given**: no more than they are, and exactly
these where every write stores the whole of its block. -/
theorem writeBlocks_stored {fails : Bool} {blocks : List Bytes} :
    ∀ {data : Bytes} {s s' : Session}, s.nodes path = some (.obj data) →
      writeBlocks E path fails blocks s = (.ok (), s') →
      ∃ d, s'.nodes path = some (.obj (data ++ d))
        ∧ d.length ≤ (blocks.takeWhile (fun b => !b.isEmpty)).flatten.length
        ∧ (d = (blocks.takeWhile (fun b => !b.isEmpty)).flatten
          ↔ E.StoresWhole s.log.length (blocks.takeWhile (fun b => !b.isEmpty))) := by
  have hend : ∀ {data : Bytes} {s s' : Session}, s.nodes path = some (.obj data) →
      s.objClose E path = (.ok (), s') → s'.nodes path = some (.obj (data ++ [])) := by
    intro data s s' hs h
    rw [(Session.objClose_spec h).1, List.append_nil]
    exact hs
  induction blocks with
  | nil =>
    intro data s s' hs h
    unfold writeBlocks at h
    split at h
    · cases (Prod.mk.inj h).1
    · exact ⟨[], hend hs h, Nat.le_refl _, iff_of_true rfl (E.storesWhole_nil _)⟩
  | cons block blocks ih =>
    intro data s s' hs h
    cases block with
    | nil => exact ⟨[], hend hs h, Nat.zero_le _, iff_of_true rfl (E.storesWhole_nil _)⟩
    | cons b buf =>
      unfold writeBlocks at h
      split at h
      · cases (Prod.mk.inj h).1
      · rename_i n t hwrite
        have hlog : t.log.length = s.log.length + 1 := by
          rw [← Session.length_log_of_since (Session.since_objWrite E path (b :: buf) s), hwrite]
        obtain ⟨d, hd, hlength, hiff⟩ := ih (Session.objWrite_start hs hwrite) h
        have hstored := s.stored_le E (b :: buf).length
        refine ⟨(b :: buf).take (s.stored E (b :: buf).length) ++ d, ?_, ?_, ?_⟩
        · rw [hd, List.append_assoc]
        · rw [List.takeWhile_cons_of_pos rfl, List.flatten_cons, List.length_append,
            List.length_append, List.length_take_of_le hstored]
          omega
        · rw [List.takeWhile_cons_of_pos rfl, List.flatten_cons,
            take_append_eq_iff hstored hlength, Irods.storesWhole_cons, hiff, hlog,
            Session.stored_eq_iff]

/-- The request with which `extractItem` first writes: its object is opened, or else it is
opened in vain and then created. -/
def firstWrite (E : Irods) (filename : Text) (s : Session) : ℕ :=
  if (E.deny s.log.length).isNone && (s.nodes (Text.rstrcpy filename) matches some (.obj _)) then
    s.log.length + 1
  else s.log.length + 2

/-- Opening an object for writing is granted where the server does not refuse it and there
is an object. -/
theorem objOpen_write_ok_iff (s : Session) (resource : Option Text) :
    (s.objOpen E path true resource).1 = .ok ()
      ↔ ((E.deny s.log.length).isNone && (s.nodes path matches some (.obj _))) = true := by
  unfold Session.objOpen Session.request
  cases E.deny s.log.length with
  | some f => exact iff_of_false (fun h => nomatch h) (fun h => nomatch h)
  | none =>
    cases s.nodes path with
    | none => exact iff_of_false (fun h => nomatch h) (fun h => nomatch h)
    | some node =>
      cases node with
      | coll => exact iff_of_false (fun h => nomatch h) (fun h => nomatch h)
      | obj data => exact iff_of_true rfl rfl

/-- **`_creat` has made one request or two** where it has succeeded. -/
theorem creat_log {filename : Text} {resource : Option Text} {s s' : Session}
    (h : creat E filename resource s = (.ok (), s')) :
    s'.log.length = firstWrite E filename s := by
  have hgranted := @objOpen_write_ok_iff E (Text.rstrcpy filename) s resource
  have hlog := Session.length_log_of_since
    (Session.since_objOpen E (Text.rstrcpy filename) true resource s)
  unfold firstWrite
  unfold creat at h
  split at h
  · rename_i t hopen
    rw [hopen] at hlog hgranted
    obtain ⟨-, rfl⟩ := Prod.mk.inj h
    rw [if_pos (hgranted.mp rfl)]
    exact hlog
  · rename_i f t hopen
    rw [hopen] at hlog hgranted
    rw [if_neg (fun hc => nomatch hgranted.mpr hc)]
    split at h
    · have hcreate := Session.length_log_of_since
        (Session.since_objCreate E (Text.rstrcpy filename) resource t)
      rw [h, hlog] at hcreate
      exact hcreate
    · exact nomatch (Prod.mk.inj h).1

/-- **A data object that is extracted without an error holds its content** exactly where
the server has stored every block whole. -/
theorem extractItem_whole_iff {resource : Option Text} {e : ReadEntry} (hdir : e.isDir = false)
    {filename : Text} {s s' : Session}
    (h : extractItem E resource e filename s = (.ok (), s')) :
    s'.nodes (Text.rstrcpy filename) = some (.obj e.content)
      ↔ E.StoresWhole (firstWrite E filename s) e.parts := by
  unfold extractItem at h
  rw [hdir] at h
  simp only [Bool.false_eq_true, if_false] at h
  split at h
  · exact nomatch (Prod.mk.inj h).1
  · rename_i t hcreat
    have ht : t.nodes (Text.rstrcpy filename) = some (.obj []) := by
      rw [((creat_spec hcreat).2.2 rfl).2, Function.update_self]
    obtain ⟨d, hd, -, hiff⟩ := writeBlocks_stored ht h
    rw [hd, ← creat_log hcreat, List.nil_append]
    exact ⟨fun hsome => hiff.mp (Node.obj.inj (Option.some.inj hsome)),
      fun hwhole => congrArg (fun d => some (Node.obj d)) (hiff.mpr hwhole)⟩

end

namespace Sample

/-- A server that stores no more than so many bytes in a write. -/
def storing (n : ℕ) : Irods := { Irods.obliging with short := fun _ => some n }

/-- An entry that is read in two blocks. -/
def twoBlocks : ReadEntry :=
  ⟨some "f".toList, false, 3, ["ab".toList, "c".toList], false⟩

/-- A collection to extract into. -/
def emptyColl : Session := .fresh (fun p => if p = "/z".toList then some .coll else none)

end Sample

/-- A write may be bounded and store the whole of its block. -/
theorem extractItem_whole_bounded :
    (extractItem (Sample.storing 2) none Sample.twoBlocks "/z/f".toList Sample.emptyColl).2.nodes
        (Text.rstrcpy "/z/f".toList) = some (.obj Sample.twoBlocks.content) := by
  refine (extractItem_whole_iff rfl (Prod.ext (by decide +kernel) rfl)).mpr ?_
  intro i b hb m hm
  obtain rfl : 2 = m := Option.some.inj hm
  match i, hb with
  | 0, hb => exact Option.some.inj hb ▸ by decide
  | 1, hb => exact Option.some.inj hb ▸ by decide

/-- **A byte is lost without an error**: what a write has not stored is not written again. -/
theorem extractItem_loses_byte :
    (extractItem (Sample.storing 1) none Sample.twoBlocks "/z/f".toList Sample.emptyColl).1
        = .ok ()
      ∧ (extractItem (Sample.storing 1) none Sample.twoBlocks "/z/f".toList
          Sample.emptyColl).2.nodes (Text.rstrcpy "/z/f".toList) = some (.obj "ac".toList)
      ∧ Sample.twoBlocks.content = "abc".toList := by
  decide +kernel
