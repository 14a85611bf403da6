import IrodsMicroservices.JsonText
import IrodsMicroservices.Libarchive

/-!
# An archive text

A `Libarchive` that can be run: an archive is the JSON text of the list of its
entries. Like the zip writer with a small archive it keeps everything in its
buffer until it is freed. It gives back what was written (`library_readsBack`),
so that what the services rely on is consistent, and concrete runs of archiving
are evaluated with it.
-/

namespace ArchiveText

/-- An entry as a value. -/
def entryJson (p : EntryHeader × Bytes) : Json :=
  .array [match p.1.pathname with
    | none => .null
    | some name => .string name,
    .bool p.1.isDir, .integer p.1.size, .string p.2]

/-- The entry a value stands for. -/
def ofJson (v : Json) : Option ReadEntry :=
  match v with
  | .array [name, .bool isDir, .integer size, .string data] =>
    some ⟨name.stringValue, isDir, size, if data = [] then [] else [data], false⟩
  | _ => none

/-- The text of an archive. -/
def text (calls : List WriteCall) : Text :=
  JsonText.render 0 0 (.array ((Libarchive.entriesOf calls).map entryJson))

/-- The entry at a position of an archive. -/
def entryAt (stream : Bytes) (n : ℕ) : HeaderResult :=
  match JsonText.loads stream with
  | some (.array es) =>
    match es[n]? with
    | none => .eof
    | some v =>
      match ofJson v with
      | some e => .ok e
      | none => .failed
  | _ => .unopened

/-- **The library.** It refuses nothing but an entry without a name. -/
def library : Libarchive where
  emit _ _ _ := []
  trailer _ calls := text calls
  refuses _ _ c :=
    match c with
    | .header e => e.pathname.isNone
    | .data _ => false
  holds _ _ := 0
  closesDead := false
  entryAt := entryAt

theorem emitted_eq (zip : Bool) : ∀ calls done, library.emitted zip done calls = [] := by
  intro calls
  induction calls with
  | nil => exact fun _ => rfl
  | cons c calls ih => exact fun done => by rw [Libarchive.emitted, ih]; rfl

theorem whole_eq (zip : Bool) (calls : List WriteCall) :
    library.whole zip calls = text calls := by
  rw [Libarchive.whole, Libarchive.stream, emitted_eq]
  rfl

theorem loads_text (calls : List WriteCall) :
    JsonText.loads (text calls)
      = some (.array ((Libarchive.entriesOf calls).map entryJson)) := by
  refine JsonText.loads_render 0 (.array ?_) rfl
  intro v hv
  obtain ⟨p, -, rfl⟩ := List.mem_map.mp hv
  refine .array ?_
  simp only [List.mem_cons, List.not_mem_nil, or_false, forall_eq_or_imp, forall_eq]
  refine ⟨?_, .bool _, .integer _, .string _⟩
  split
  · exact .null
  · exact .string _

/-- What it finds at the position of an entry. -/
theorem entryAt_whole (zip : Bool) {calls : List WriteCall} {n : ℕ} {p : EntryHeader × Bytes}
    (hp : (Libarchive.entriesOf calls)[n]? = some p) :
    library.entryAt (library.whole zip calls) n
      = .ok ⟨p.1.pathname, p.1.isDir, p.1.size, if p.2 = [] then [] else [p.2], false⟩ := by
  rw [whole_eq]
  show entryAt (text calls) n = _
  unfold entryAt
  rw [loads_text]
  simp only [List.getElem?_map, hp, Option.map_some]
  cases hname : p.1.pathname <;> simp [ofJson, entryJson, hname, Json.stringValue]

/-- **It gives back what was written.** -/
theorem library_readsBack : library.ReadsBack where
  entry zip calls _ n p hp := by
    refine ⟨_, entryAt_whole zip hp, rfl, fun _ => ⟨rfl, rfl⟩, ?_, ?_, rfl⟩
    · show (if p.2 = [] then [] else [p.2]).flatten = p.2
      split
      · rename_i h
        rw [h]
        rfl
      · simp
    · show [] ∉ if p.2 = [] then [] else [p.2]
      split
      · exact List.not_mem_nil
      · rename_i h
        exact fun hmem => h (List.mem_singleton.mp hmem).symm
  eof zip calls _ := by
    rw [whole_eq]
    show entryAt (text calls) _ = _
    unfold entryAt
    rw [loads_text]
    simp

theorem library_accepting : ArchiveWriter.Accepting library := by
  intro zip calls c hc
  cases c with
  | header e => exact Option.isNone_eq_false_iff.mpr (hc e rfl)
  | data buf => rfl

/-- A call writes nothing before the writer is freed. -/
theorem call_eq (E : Irods) (c : WriteCall) {w : ArchiveWriter} (s : Session)
    (hdead : w.dead = false) (hpending : w.pending = [])
    (hc : library.refuses w.zip w.calls c = false) :
    w.call library E c s = (true, { w with calls := w.calls ++ [c] }, s) := by
  obtain ⟨path, zip, calls, pending, dead⟩ := w
  subst hdead hpending
  unfold ArchiveWriter.call
  rw [show (false || library.refuses zip calls c) = false from hc]
  rfl

end ArchiveText
