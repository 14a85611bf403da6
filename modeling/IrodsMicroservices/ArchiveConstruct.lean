import IrodsMicroservices.ArchiveIndex
import IrodsMicroservices.ArchiveText

/-!
# Constructing an archive

`construct` turns the index into the archive: the entry `INDEX.json` first, then
one entry for each index item, a data object with what its object holds. A
negative status of libarchive or of iRODS on the way ends the construction with
an error (`writeAll`). After the last item the writer is freed, which hands over
what libarchive still holds and closes the archive object – and the status of
that is not looked at.

So `construct` may return 0 for an archive that is not complete.
`construct_complete_iff` says when it does not: exactly where freeing the writer
succeeds whenever it is reached.
-/

/-- `_creat`: the object is opened and truncated, or created where there is
none. -/
def creat (E : Irods) (path : Text) (resource : Option Text) (s : Session) :
    Except Failure Unit × Session :=
  match s.objOpen E (Text.rstrcpy path) true resource with
  | (.ok (), s) => (.ok (), s)
  | (.error f, s) =>
    -- the force flag is not needed: only an object that is not there yet is made
    if f.status = .named .objPathDoesNotExist then
      s.objCreate E (Text.rstrcpy path) resource
    else (.error f, s)

/-- **What `_creat` does**: it leaves an empty object, where it succeeds, in the
place of an object or in a collection, and changes nothing else. -/
theorem creat_spec {E : Irods} {path : Text} {resource : Option Text} {s s' : Session}
    {r : Except Failure Unit} (h : creat E path resource s = (r, s')) :
    s'.avus = s.avus ∧ (∀ f, r = .error f → s'.nodes = s.nodes)
      ∧ (r = .ok () →
        ((∃ data, s.nodes (Text.rstrcpy path) = some (.obj data))
          ∨ s.nodes (Text.rstrcpy path) = none
            ∧ s.nodes (Text.parent (Text.rstrcpy path)) = some .coll)
        ∧ s'.nodes = Function.update s.nodes (Text.rstrcpy path) (some (.obj []))) := by
  unfold creat at h
  split at h
  · rename_i t hopen
    obtain ⟨rfl, rfl⟩ := Prod.mk.inj h
    obtain ⟨havus, -, hok⟩ := Session.objOpen_write_spec hopen
    exact ⟨havus, by simp, fun _ => ⟨.inl (hok rfl).1, (hok rfl).2⟩⟩
  · rename_i f t hopen
    obtain ⟨havus, hfail, -⟩ := Session.objOpen_write_spec hopen
    have hnodes := hfail f rfl
    split at h
    · obtain ⟨havus', hfail', hok⟩ := Session.objCreate_spec h
      rw [hnodes] at hfail' hok
      refine ⟨havus'.trans havus, hfail', fun hr => ?_⟩
      obtain ⟨hnone, hparent, hupdate⟩ := hok hr
      exact ⟨.inr ⟨hnone, hparent⟩, hupdate⟩
    · obtain ⟨rfl, rfl⟩ := Prod.mk.inj h
      exact ⟨havus, fun _ _ => hnodes, by simp⟩

/-- `_creat` succeeds at an object or in a collection, where nothing is refused. -/
theorem creat_of_willing {E : Irods} (hE : E.Willing) {path : Text} (resource : Option Text)
    {s : Session} (h : (∃ data, s.nodes (Text.rstrcpy path) = some (.obj data))
      ∨ s.nodes (Text.rstrcpy path) = none
        ∧ s.nodes (Text.parent (Text.rstrcpy path)) = some .coll) :
    ∃ s', creat E path resource s = (.ok (), s') := by
  have hdeny : ∀ n, E.deny n = none := fun n => (hE n).1
  unfold creat Session.objOpen
  rcases h with ⟨data, hdata⟩ | ⟨hnone, hparent⟩
  · rw [hdata]
    dsimp only
    rw [Session.request_of_willing hdeny]
    exact ⟨_, rfl⟩
  · rw [hnone]
    dsimp only
    unfold Session.request
    rw [hdeny]
    dsimp only
    rw [if_pos (Failure.status_ofCode _)]
    unfold Session.objCreate
    rw [Session.nodes_record, hnone]
    dsimp only
    rw [if_pos hparent, Session.request_of_willing hdeny]
    exact ⟨_, rfl⟩

/-- `A_BUFSIZE`. -/
def aBufSize : ℕ := 1048576

namespace WriteArchive

/-- The document of `INDEX.json`. -/
def indexJson (J : Jansson) (a : WriteArchive) : Json :=
  let json := (Json.object []).objectSetNew "collection".toList (J.string a.origin)
  let json := json.objectSetNew "size".toList (some (.integer a.dataSize.toInt))
  json.objectSetNew "items".toList (some (.array a.list))

/-- The document of `INDEX.json` is an object. -/
theorem isContainer_indexJson (J : Jansson) (a : WriteArchive) :
    (a.indexJson J).isContainer = true := by
  refine Json.isContainer_of_isObject ?_
  unfold indexJson
  simp only [Json.isObject_objectSetNew]
  rfl

/-- The document of `INDEX.json` can be written. -/
theorem dumps_indexJson (J : Jansson) (a : WriteArchive) :
    J.dumps 2 (a.indexJson J) = some (J.text 2 (a.indexJson J)) :=
  if_pos (isContainer_indexJson J a)

/-- The header of `INDEX.json`. -/
def indexHeader (str : Text) : EntryHeader :=
  ⟨some "INDEX.json".toList, false, 0o444, str.length, none⟩

/-- The header of a collection. -/
def collHeader (item : Json) : EntryHeader :=
  ⟨item.stringMember "name".toList, true, 0o750, 0, some (item.integerMember "modified".toList)⟩

/-- The header of a data object. -/
def dataObjHeader (item : Json) : EntryHeader :=
  ⟨item.stringMember "name".toList, false, 0o600,
    (BitVec.ofInt 64 (item.integerMember "size".toList)).toInt,
    some (item.integerMember "modified".toList)⟩

section Construct

variable (L : Libarchive) (E : Irods) (J : Jansson)

/-- What a step of the construction leaves: the status it returns with, none where
it goes on. -/
abbrev Step := Except Fault (Option Status × ArchiveWriter × Session)

/-- The loop that copies a data object into the archive, reading from `pos`. The
object is closed on the way out, whatever comes of that. -/
def copyData (path : Text) : ℕ → ℕ → ArchiveWriter → Session → Step
  | 0, _, _, _ => .error .outOfFuel
  | fuel + 1, pos, w, s =>
    match s.objRead E path pos aBufSize with
    | (.error _, s) => .ok (some (.named .sysTarAppendErr), w, (s.objClose E path).2)
    | (.ok [], s) => .ok (none, w, (s.objClose E path).2)
    | (.ok (b :: buf), s) =>
      match w.call L E (.data (b :: buf)) s with
      | (true, w, s) => copyData path fuel (pos + (buf.length + 1)) w s
      -- the writer stays open on this way out: the destructor frees it
      | (false, w, s) => .ok (some (.named .sysTarAppendErr), w, (s.objClose E path).2)

/-- The entry of one index item. -/
def writeItem (origin : Text) (fuel : ℕ) (item : Json) (w : ArchiveWriter) (s : Session) :
    Step :=
  match item.stringMember "type".toList with
  | none => .error .nullPointer
  | some type =>
    if type = "coll".toList then
      match w.call L E (.header (collHeader item)) s with
      | (false, w, s) => .ok (some (.named .sysTarAppendErr), w, s)
      | (true, w, s) => .ok (none, w, s)
    else
      match w.call L E (.header (dataObjHeader item)) s with
      | (false, w, s) => .ok (some (.named .sysTarAppendErr), w, s)
      | (true, w, s) =>
        match item.stringMember "name".toList with
        | none => .error .nullPointer
        | some filename =>
          let path := Text.rstrcpy (Text.join origin filename)
          match s.objOpen E path false none with
          | (.error f, s) => .ok (some f.status, w, s)
          | (.ok (), s) => copyData L E path fuel 0 w s

/-- The entries of the index items. -/
def writeItems (origin : Text) (fuel : ℕ) : List Json → ArchiveWriter → Session → Step
  | [], w, s => .ok (none, w, s)
  | item :: items, w, s =>
    match writeItem L E origin fuel item w s with
    | .ok (none, w, s) => writeItems origin fuel items w s
    | r => r

/-- The construction up to the last item. -/
def writeAll (a : WriteArchive) (fuel : ℕ) (w : ArchiveWriter) (s : Session) : Step :=
  match J.dumps 2 (a.indexJson J) with
  | none => .error .nullPointer
  | some str =>
    match w.call L E (.header (indexHeader str)) s with
    | (false, w, s) => .ok (some (.named .sysTarAppendErr), w, s)
    | (true, w, s) =>
      match w.call L E (.data str) s with
      | (false, w, s) => .ok (some (.named .sysTarAppendErr), w, s)
      | (true, w, s) => writeItems L E a.origin fuel a.list w s

end Construct

/-- What `construct` leaves: its status, the writer, whether that has been freed. -/
structure Constructed where
  status : Status
  freed : Bool
  writer : ArchiveWriter
  session : Session

/-- **`construct`.** -/
def construct (L : Libarchive) (E : Irods) (J : Jansson) (a : WriteArchive) (fuel : ℕ)
    (w : ArchiveWriter) (s : Session) : Except Fault Constructed :=
  match writeAll L E J a fuel w s with
  | .error e => .error e
  | .ok (some status, w, s) => .ok ⟨status, false, w, s⟩
  -- whether the last bytes could be written is not looked at
  | .ok (none, w, s) => .ok ⟨.num 0, true, w, (w.free L E s).2⟩

/-! ## What the steps keep -/

section Steps

variable {L : Libarchive} {E : Irods} {J : Jansson}

/-- **What a step keeps**: a writer that goes on is sound, it is the same writer
with further calls, and only the archive object has changed; a status that is
returned is an error. -/
def Keeps (L : Libarchive) (w : ArchiveWriter) (s : Session) :
    Option Status × ArchiveWriter × Session → Prop
  | (none, w', s') => w'.Sound L s' ∧ w'.path = w.path ∧ w'.zip = w.zip
      ∧ (∃ calls, w'.calls = w.calls ++ calls) ∧ ∀ p, p ≠ w.path → s'.nodes p = s.nodes p
  | (some status, _, _) => status.isNeg = true

theorem Keeps.trans {w w' : ArchiveWriter} {s s' : Session}
    {r : Option Status × ArchiveWriter × Session} (h : Keeps L w s (none, w', s'))
    (h' : Keeps L w' s' r) : Keeps L w s r := by
  obtain ⟨-, hpath, hzip, ⟨calls, hcalls⟩, hframe⟩ := h
  obtain ⟨_ | status, w'', s''⟩ := r
  · obtain ⟨hsound, hpath', hzip', ⟨calls', hcalls'⟩, hframe'⟩ := h'
    refine ⟨hsound, hpath'.trans hpath, hzip'.trans hzip,
      ⟨calls ++ calls', by rw [hcalls', hcalls, List.append_assoc]⟩, fun p hp => ?_⟩
    exact (hframe' p (hpath ▸ hp)).trans (hframe p hp)
  · exact h'

/-- A step that only asks keeps everything. -/
theorem Keeps.of_nodes {w : ArchiveWriter} {s s' : Session} (hw : w.Sound L s)
    (h : s'.nodes = s.nodes) : Keeps L w s (none, w, s') :=
  ⟨hw.of_nodes (by rw [h]), rfl, rfl, ⟨[], by simp⟩, fun p _ => by rw [h]⟩

theorem keeps_call {c : WriteCall} {w w' : ArchiveWriter} {s s' : Session}
    (hw : w.Sound L s) (h : w.call L E c s = (true, w', s')) : Keeps L w s (none, w', s') := by
  obtain ⟨hsound, hpath, hzip, hcalls, hframe⟩ := ArchiveWriter.call_spec hw h
  exact ⟨hsound, hpath, hzip, ⟨[c], hcalls⟩, hframe⟩

theorem keeps_copyData {path : Text} : ∀ {fuel pos : ℕ} {w : ArchiveWriter} {s : Session}
    {r : Option Status × ArchiveWriter × Session}, w.Sound L s →
    copyData L E path fuel pos w s = .ok r → Keeps L w s r := by
  intro fuel
  induction fuel with
  | zero => exact fun _ h => absurd h (by simp [copyData])
  | succ fuel ih =>
    intro pos w s r hw h
    unfold copyData at h
    split at h
    · obtain rfl := Except.ok.inj h
      rfl
    · rename_i t hread
      obtain rfl := Except.ok.inj h
      exact Keeps.of_nodes hw ((Session.objClose_spec rfl).1.trans (Session.objRead_spec hread).1)
    · rename_i b buf t hread
      have hnodes := (Session.objRead_spec hread).1
      have hread' : Keeps L w s (none, w, t) := Keeps.of_nodes hw hnodes
      split at h
      · rename_i w' s' hcall
        have hcall' := keeps_call hread'.1 hcall
        exact hread'.trans (hcall'.trans (ih hcall'.1 h))
      · obtain rfl := Except.ok.inj h
        rfl

theorem keeps_writeItem {origin : Text} {fuel : ℕ} {item : Json} {w : ArchiveWriter}
    {s : Session} {r : Option Status × ArchiveWriter × Session} (hw : w.Sound L s)
    (h : writeItem L E origin fuel item w s = .ok r) : Keeps L w s r := by
  unfold writeItem at h
  split at h
  · exact absurd h (by simp)
  · split at h
    · split at h
      · obtain rfl := Except.ok.inj h
        rfl
      · rename_i hcall
        obtain rfl := Except.ok.inj h
        exact keeps_call hw hcall
    · split at h
      · obtain rfl := Except.ok.inj h
        rfl
      · rename_i hcall
        have hcall' := keeps_call hw hcall
        refine hcall'.trans ?_
        split at h
        · exact absurd h (by simp)
        · dsimp only at h
          split at h
          · rename_i f _ _
            obtain rfl := Except.ok.inj h
            exact f.neg
          · rename_i hopen
            have hopen' := Keeps.of_nodes hcall'.1 (Session.objOpen_read_spec hopen).1
            exact hopen'.trans (keeps_copyData hopen'.1 h)

theorem keeps_writeItems {origin : Text} {fuel : ℕ} {items : List Json} :
    ∀ {w : ArchiveWriter} {s : Session} {r : Option Status × ArchiveWriter × Session},
      w.Sound L s → writeItems L E origin fuel items w s = .ok r → Keeps L w s r := by
  induction items with
  | nil =>
    intro w s r hw h
    obtain rfl := Except.ok.inj h
    exact Keeps.of_nodes hw rfl
  | cons item items ih =>
    intro w s r hw h
    unfold writeItems at h
    split at h
    · rename_i w' s' hitem
      have hitem' := keeps_writeItem hw hitem
      exact hitem'.trans (ih hitem'.1 h)
    · exact keeps_writeItem hw h

/-- **What the construction keeps up to the last item.** -/
theorem keeps_writeAll {a : WriteArchive} {fuel : ℕ} {w : ArchiveWriter} {s : Session}
    {r : Option Status × ArchiveWriter × Session} (hw : w.Sound L s)
    (h : writeAll L E J a fuel w s = .ok r) : Keeps L w s r := by
  unfold writeAll at h
  split at h
  · exact absurd h (by simp)
  · split at h
    · obtain rfl := Except.ok.inj h
      rfl
    · rename_i hheader
      have hheader' := keeps_call hw hheader
      split at h
      · obtain rfl := Except.ok.inj h
        rfl
      · rename_i hdata
        have hdata' := keeps_call hheader'.1 hdata
        exact hheader'.trans (hdata'.trans (keeps_writeItems hdata'.1 h))

/-- **The first entry is `INDEX.json`.** -/
theorem writeAll_calls {a : WriteArchive} {fuel : ℕ} {path : Text} {zip : Bool}
    {w : ArchiveWriter} {s t : Session} (hnew : s.nodes path = some (.obj []))
    (h : writeAll L E J a fuel (.start path zip) s = .ok (none, w, t)) :
    ∃ str rest, J.dumps 2 (a.indexJson J) = some str
      ∧ w.calls = .header (indexHeader str) :: .data str :: rest := by
  unfold writeAll at h
  split at h
  · exact absurd h (by simp)
  · rename_i str hstr
    split at h
    · exact absurd h (by simp)
    · rename_i w₁ s₁ hheader
      obtain ⟨hsound, -, -, hcalls, -⟩ := ArchiveWriter.call_spec (.start hnew zip) hheader
      split at h
      · exact absurd h (by simp)
      · rename_i w₂ s₂ hdata
        obtain ⟨hsound', -, -, hcalls', -⟩ := ArchiveWriter.call_spec hsound hdata
        obtain ⟨-, -, -, ⟨rest, hrest⟩, -⟩ := keeps_writeItems hsound' h
        refine ⟨str, rest, hstr, ?_⟩
        rw [hrest, hcalls', hcalls]
        rfl

end Steps

/-- A construction that returns 0 has come to its end. -/
theorem construct_zero {L : Libarchive} {E : Irods} {J : Jansson} {a : WriteArchive}
    {fuel : ℕ} {w : ArchiveWriter} {s : Session} {c : Constructed} (hw : w.Sound L s)
    (h : construct L E J a fuel w s = .ok c) (hstatus : c.status = .num 0) :
    ∃ t, writeAll L E J a fuel w s = .ok (none, c.writer, t)
      ∧ c.freed = true ∧ c.session = (c.writer.free L E t).2 := by
  unfold construct at h
  split at h
  · exact absurd h (by simp)
  · rename_i status w t hall
    obtain rfl := Except.ok.inj h
    have hneg : status.isNeg = true := keeps_writeAll hw hall
    rw [show status = .num 0 from hstatus] at hneg
    exact absurd hneg (by decide)
  · rename_i w t hall
    obtain rfl := Except.ok.inj h
    exact ⟨t, hall, rfl, rfl⟩

/-- **A construction that returns 0 has stored the whole archive and closed its
object, whatever fails on the way, exactly where freeing the writer succeeds
whenever it is reached.** -/
theorem construct_complete_iff (L : Libarchive) (E : Irods) (J : Jansson)
    (a : WriteArchive) (fuel : ℕ) {path : Text} (zip : Bool) {s : Session}
    (hnew : s.nodes path = some (.obj [])) :
    (∀ r, construct L E J a fuel (.start path zip) s = .ok r → r.status = .num 0 →
        r.writer.Complete L r.session)
      ↔ ∀ w t, writeAll L E J a fuel (.start path zip) s = .ok (none, w, t) →
        (w.free L E t).1 = true := by
  have hstart : (ArchiveWriter.start path zip).Sound L s := .start hnew zip
  constructor
  · intro h w t hall
    have hconstruct : construct L E J a fuel (.start path zip) s
        = .ok ⟨.num 0, true, w, (w.free L E t).2⟩ := by
      unfold construct
      rw [hall]
    exact (ArchiveWriter.free_spec (keeps_writeAll hstart hall).1 rfl).1.mpr
      (h _ hconstruct rfl)
  · intro h r hr hstatus
    obtain ⟨t, hall, -, hsession⟩ := construct_zero hstart hr hstatus
    rw [hsession]
    exact (ArchiveWriter.free_spec (keeps_writeAll hstart hall).1 rfl).1.mp (h _ t hall)

/-! ## Where nothing is refused -/

section Willing

variable {L : Libarchive} {E : Irods} {J : Jansson}

/-- An index item that can be written: a collection, or a data object that is
there, is not the archive, and is no longer than the steps granted. -/
def Ready (origin path : Text) (fuel : ℕ) (nodes : Text → Option Node) (item : Json) : Prop :=
  ∃ name type, item.stringMember "name".toList = some name
    ∧ item.stringMember "type".toList = some type
    ∧ (type = "coll".toList ∨ Text.rstrcpy (Text.join origin name) ≠ path
      ∧ ∃ data, nodes (Text.rstrcpy (Text.join origin name)) = some (.obj data)
        ∧ data.length < fuel)

theorem Ready.of_nodes {origin path : Text} {fuel : ℕ} {nodes nodes' : Text → Option Node}
    {item : Json} (h : Ready origin path fuel nodes item)
    (hnodes : ∀ p, p ≠ path → nodes' p = nodes p) : Ready origin path fuel nodes' item := by
  obtain ⟨name, type, hname, htype, h⟩ := h
  refine ⟨name, type, hname, htype, h.imp_right ?_⟩
  rintro ⟨hne, data, hdata, hlen⟩
  exact ⟨hne, data, (hnodes _ hne).trans hdata, hlen⟩

theorem objRead_of_willing (hE : E.Willing) {path : Text} {data : Bytes} {s : Session}
    (hs : s.nodes path = some (.obj data)) (pos len : ℕ) :
    s.objRead E path pos len = (.ok ((data.drop pos).take (min len (E.chunk s.log.length + 1))),
      s.record (.objRead path) true) := by
  unfold Session.objRead
  rw [hs]
  exact Session.request_of_willing (fun n => (hE n).1)

theorem copyData_of_willing (hE : E.Willing) (hL : ArchiveWriter.Accepting L) {path : Text}
    {data : Bytes} : ∀ {fuel pos : ℕ} {w : ArchiveWriter} {s : Session}, w.Sound L s →
    path ≠ w.path → s.nodes path = some (.obj data) → pos ≤ data.length →
    data.length < fuel + pos →
    ∃ w' s', copyData L E path fuel pos w s = .ok (none, w', s') := by
  intro fuel
  induction fuel with
  | zero => exact fun _ _ _ hpos hlen => absurd hlen (by omega)
  | succ fuel ih =>
    intro pos w s hw hne hs hpos hlen
    unfold copyData
    rw [objRead_of_willing hE hs]
    cases hbuf : (data.drop pos).take (min aBufSize (E.chunk s.log.length + 1)) with
    | nil => exact ⟨_, _, rfl⟩
    | cons b buf =>
      have hw' : w.Sound L (s.record (.objRead path) true) := hw.of_nodes rfl
      obtain ⟨w', s', hcall⟩ := ArchiveWriter.call_of_willing hE hL
        (fun _ h => WriteCall.noConfusion h) hw' (c := .data (b :: buf))
      obtain ⟨hsound, hpath, -, -, hframe⟩ := ArchiveWriter.call_spec hw' hcall
      have hlen' : buf.length + 1 ≤ data.length - pos := by
        have := congrArg List.length hbuf
        rw [List.length_take, List.length_drop, List.length_cons] at this
        omega
      dsimp only
      rw [hcall]
      exact ih hsound (hpath ▸ hne) ((hframe path hne).trans hs) (by omega) (by omega)

theorem writeItem_of_willing (hE : E.Willing) (hL : ArchiveWriter.Accepting L)
    {origin : Text} {fuel : ℕ} {item : Json} {w : ArchiveWriter} {s : Session}
    (hw : w.Sound L s) (hitem : Ready origin w.path fuel s.nodes item) :
    ∃ w' s', writeItem L E origin fuel item w s = .ok (none, w', s') := by
  obtain ⟨name, type, hname, htype, hready⟩ := hitem
  have hnamed : ∀ h : EntryHeader, h.pathname = item.stringMember "name".toList →
      ∀ e, WriteCall.header h = .header e → e.pathname.isSome := by
    rintro h hh e ⟨⟩
    rw [hh, hname]
    rfl
  unfold writeItem
  rw [htype]
  dsimp only
  by_cases hcoll : type = "coll".toList
  · obtain ⟨w', s', hcall⟩ := ArchiveWriter.call_of_willing hE hL
      (hnamed (collHeader item) rfl) hw
    rw [if_pos hcoll, hcall]
    exact ⟨_, _, rfl⟩
  · obtain ⟨hne, data, hdata, hlen⟩ := hready.resolve_left hcoll
    obtain ⟨w', s', hcall⟩ := ArchiveWriter.call_of_willing hE hL
      (hnamed (dataObjHeader item) rfl) hw
    obtain ⟨hsound, hpath, -, -, hframe⟩ := ArchiveWriter.call_spec hw hcall
    have hs' := (hframe _ hne).trans hdata
    rw [if_neg hcoll, hcall, hname]
    dsimp only
    have hopen : s'.objOpen E (Text.rstrcpy (Text.join origin name)) false none
        = (.ok (), s'.record (.objOpen (Text.rstrcpy (Text.join origin name)) false none) true) := by
      unfold Session.objOpen
      rw [hs']
      exact Session.request_of_willing (fun n => (hE n).1)
    rw [hopen]
    exact copyData_of_willing hE hL (hsound.of_nodes rfl) (hpath ▸ hne) hs' (Nat.zero_le _) hlen

theorem writeItems_of_willing (hE : E.Willing) (hL : ArchiveWriter.Accepting L)
    {origin : Text} {fuel : ℕ} {items : List Json} : ∀ {w : ArchiveWriter} {s : Session},
    w.Sound L s → (∀ item ∈ items, Ready origin w.path fuel s.nodes item) →
    ∃ w' s', writeItems L E origin fuel items w s = .ok (none, w', s') := by
  induction items with
  | nil => exact fun _ _ => ⟨_, _, rfl⟩
  | cons item items ih =>
    intro w s hw hready
    obtain ⟨w', s', hitem⟩ := writeItem_of_willing hE hL hw (hready item List.mem_cons_self)
    obtain ⟨hsound, hpath, -, -, hframe⟩ := keeps_writeItem hw hitem
    unfold writeItems
    rw [hitem]
    refine ih hsound (fun i hi => ?_)
    rw [hpath]
    exact (hready i (List.mem_cons_of_mem _ hi)).of_nodes hframe

/-- **A construction succeeds where nothing is refused** and the objects of the
items are there. -/
theorem construct_of_willing (hE : E.Willing) (hL : ArchiveWriter.Accepting L)
    {a : WriteArchive} {fuel : ℕ} {w : ArchiveWriter} {s : Session} (hw : w.Sound L s)
    (hready : ∀ item ∈ a.list, Ready a.origin w.path fuel s.nodes item) :
    ∃ c, construct L E J a fuel w s = .ok c ∧ c.status = .num 0 := by
  obtain ⟨w₁, s₁, hheader⟩ := ArchiveWriter.call_of_willing hE hL
    (c := .header (indexHeader (J.text 2 (a.indexJson J)))) (by rintro e ⟨⟩; rfl) hw
  obtain ⟨hsound₁, hpath₁, -, -, hframe₁⟩ := ArchiveWriter.call_spec hw hheader
  obtain ⟨w₂, s₂, hdata⟩ := ArchiveWriter.call_of_willing hE hL
    (c := .data (J.text 2 (a.indexJson J))) (fun _ h => WriteCall.noConfusion h) hsound₁
  obtain ⟨hsound₂, hpath₂, -, -, hframe₂⟩ := ArchiveWriter.call_spec hsound₁ hdata
  have hready₂ : ∀ item ∈ a.list, Ready a.origin w₂.path fuel s₂.nodes item := by
    intro item hitem
    rw [hpath₂, hpath₁]
    refine (hready item hitem).of_nodes (fun p hp => ?_)
    exact (hframe₂ p (hpath₁ ▸ hp)).trans (hframe₁ p hp)
  obtain ⟨w', s', hitems⟩ := writeItems_of_willing hE hL hsound₂ hready₂
  unfold construct writeAll
  rw [dumps_indexJson]
  dsimp only
  rw [hheader]
  dsimp only
  rw [hdata]
  dsimp only
  rw [hitems]
  exact ⟨_, rfl, rfl⟩

end Willing

/-- With nothing to list, `INDEX.json` is all that is written. -/
theorem writeAll_nil (E : Irods) (a : WriteArchive) (ha : a.list = []) (fuel : ℕ)
    (path : Text) (zip : Bool) (s : Session) :
    ∃ str, JsonText.codec.dumps 2 (a.indexJson JsonText.codec) = some str
      ∧ writeAll ArchiveText.library E JsonText.codec a fuel (.start path zip) s
        = .ok (none, ⟨path, zip, [.header (indexHeader str), .data str], [], false⟩, s) := by
  refine ⟨_, dumps_indexJson JsonText.codec a, ?_⟩
  unfold writeAll
  rw [dumps_indexJson]
  dsimp only
  rw [ArchiveText.call_eq _ _ _ rfl rfl rfl]
  dsimp only
  rw [ArchiveText.call_eq _ _ _ rfl rfl rfl, ha]
  rfl

/-- A session with an archive object that has just been created, and a data object. -/
def sampleSession : Session :=
  .fresh (fun p => if p = "/z/x.tar".toList then some (.obj [])
    else if p = "/z/c/a/f".toList then some (.obj "hello".toList) else none)

/-- An archive that lists a collection and a data object. -/
def sampleArchive : WriteArchive :=
  (create "/z/x.tar".toList "/z/c".toList).run JsonText.codec
    [.addColl "a".toList 1 2 "u".toList "z".toList none none,
      .addDataObj "a/f".toList 5 1 2 "u".toList "z".toList [] none none]

/-- The construction of the sample archive. -/
def sampleConstruct (E : Irods) : Except Fault Constructed :=
  construct ArchiveText.library E JsonText.codec sampleArchive 6
    (.start "/z/x.tar".toList false) sampleSession

/-- The archive is complete where nothing is refused. Where the write at the end is refused,
after the four requests for the data object, it returns 0 and is not. -/
theorem construct_complete_sample :
    (∃ r, sampleConstruct .obliging = .ok r ∧ r.status = .num 0
        ∧ r.writer.Complete ArchiveText.library r.session)
      ∧ ∃ r, sampleConstruct (.refusing 4) = .ok r ∧ r.status = .num 0
        ∧ ¬ r.writer.Complete ArchiveText.library r.session := by
  have hiff := fun E : Irods => construct_complete_iff ArchiveText.library E JsonText.codec
    sampleArchive 6 false (show sampleSession.nodes "/z/x.tar".toList = some (.obj []) from rfl)
  constructor
  · have hzero : (sampleConstruct .obliging).toOption.any
        (fun r => decide (r.status = .num 0)) = true := by decide +kernel
    obtain ⟨r, hr, hstatus⟩ := Except.ok_of_any hzero
    refine ⟨r, hr, of_decide_eq_true hstatus,
      (hiff .obliging).mpr (fun w t hall => ?_) r hr (of_decide_eq_true hstatus)⟩
    exact ArchiveWriter.free_of_willing Irods.obliging_willing
      (keeps_writeAll (.start rfl _) hall).1
  · have hlost : (writeAll ArchiveText.library (.refusing 4) JsonText.codec sampleArchive 6
        (.start "/z/x.tar".toList false) sampleSession).toOption.any
        (fun r => r.1.isNone && !(r.2.1.free ArchiveText.library (.refusing 4) r.2.2).1)
        = true := by decide +kernel
    obtain ⟨⟨o, w, t⟩, hr, hlost⟩ := Except.ok_of_any hlost
    rw [Bool.and_eq_true, Option.isNone_iff_eq_none, Bool.not_eq_true'] at hlost
    obtain ⟨rfl, hfree⟩ := hlost
    by_contra hall
    push Not at hall
    have hfreed := (hiff (.refusing 4)).mp hall w t hr
    exact Bool.false_ne_true (hfree.symm.trans hfreed)

/-- **The one write of an archive without items is refused**, when the writer is
freed: the construction returns 0, and the archive object is empty. -/
theorem refused_flush_returns_zero :
    ¬ ∀ (L : Libarchive) (E : Irods) (J : Jansson) (a : WriteArchive) (fuel : ℕ)
      (path : Text) (zip : Bool) (s : Session), s.nodes path = some (.obj []) →
      ∀ r, construct L E J a fuel (.start path zip) s = .ok r → r.status = .num 0 →
        r.writer.Complete L r.session := by
  intro h
  set a := WriteArchive.create "/z/x.tar".toList "/z/c".toList
  obtain ⟨str, -, hall⟩ := writeAll_nil (.refusing 0) a rfl 0 "/z/x.tar".toList false sampleSession
  set calls := [WriteCall.header (indexHeader str), .data str]
  have hne : ArchiveText.text calls ≠ [] := by simp [ArchiveText.text, JsonText.render]
  obtain ⟨b, buf, htext⟩ := List.exists_cons_of_ne_nil hne
  have hfree : ((⟨"/z/x.tar".toList, false, calls, [], false⟩ : ArchiveWriter).free
      ArchiveText.library (.refusing 0) sampleSession).2.nodes "/z/x.tar".toList
      = some (.obj []) := by
    unfold ArchiveWriter.free
    rw [show ArchiveText.library.trailer false calls = _ from htext]
    rfl
  have hbad := (h ArchiveText.library (.refusing 0) JsonText.codec a 0 "/z/x.tar".toList false
    sampleSession rfl _ (by unfold construct; rw [hall]) rfl).1
  rw [show _ = some (Node.obj []) from hfree, ArchiveText.whole_eq] at hbad
  exact hne (Node.obj.inj (Option.some.inj hbad)).symm

end WriteArchive
