import IrodsMicroservices.Attributes

/-!
# Extracting an archive

`msiArchiveExtract` opens an archive, which reads `INDEX.json` from it, and then
goes through the entries and the index items side by side: the `n`-th entry after
the index belongs to the `n`-th item, whatever its own name is. What libarchive
finds is a parameter, the result of each call that reads a header.

The loop has one way to end, that `nextItem` has nothing more. So it ends after
the last item, and it ends where a header is not read, at the end of the archive,
for a warning or for an error, with the status it has. An extraction that returns
no error has therefore extracted all items exactly where the headers last as
long as there are items (`extracts_all_iff`); `failed_header_returns_zero` is one
that has extracted nothing.
-/

/-! ## The free space -/

/-- What a query for the free space of a resource returns, with at most one row. -/
abbrev SpaceQuery := Text → Except Failure (List Text)

/-- `freeSpace`: the free space of a resource, zero where it is not set, or a
status. -/
def freeSpace (rows : SpaceQuery) (resource : Text) : Status :=
  match rows (Text.rstrcpy ("='".toList ++ resource ++ "'".toList)) with
  | .error f => f.status
  | .ok [v] => .num (Text.strtoll v)
  | .ok _ => .named .sysRescDoesNotExist

/-- `space - space / 10`. -/
def usable (space : ℤ) : ℤ := space - space.tdiv 10

/-- The check before an extraction: the status so far, and the free space. -/
def checkSpace (rows : SpaceQuery) (resource extract : Option Text) (size : BitVec 64) :
    Status × ℤ :=
  match resource with
  | none => (.num 0, 0)
  | some resource =>
    match freeSpace rows resource with
    | .named e => (.named e, 0)
    | .num space =>
      if space < 0 then ((Status.num space).ofLongLong, space)
      else if space ≠ 0 ∧ extract = none ∧ size > BitVec.ofInt 64 (usable space) then
        (.named .sysRescQuotaExceeded, space)
      else (.num 0, space)

/-! ## Opening an archive -/

/-- An archive opened for reading. -/
structure ReadArchive where
  /-- The path its object is open under. -/
  path : Text
  /-- The collection that was archived. -/
  origin : Text
  /-- The index items, NULL where the index has none. -/
  list : Option Json
  /-- The size in blocks of the items. -/
  dataSize : BitVec 64
  /-- The text of the index. -/
  indexString : Text

/-- The items `json_array_get` finds. -/
def ReadArchive.items (a : ReadArchive) : List Json := (a.list.map Json.elems).getD []

/-- `Archive::open`: none where the archive cannot be opened. Where it has been, and does
not start with an index, the data of the callbacks are deleted before the reader is freed,
which calls the close callback with them. -/
def openArchive (J : Jansson) (E : Irods) (headers : ℕ → HeaderResult) (path : Text)
    (s : Session) : Except Fault (Option ReadArchive × Session) :=
  match s.objOpen E (Text.rstrcpy path) false none with
  | (.error _, s) => .ok (none, s)
  | (.ok (), s) =>
    match headers 0 with
    -- the object has been closed by `archive_read_open`
    | .unopened => .ok (none, (s.objClose E (Text.rstrcpy path)).2)
    | .ok e =>
      match e.pathname with
      -- `strcmp` of a header without a name
      | none => .error .nullPointer
      | some name =>
        if name ≠ "INDEX.json".toList then .error .useAfterFree
        -- the size of the header is the size of the buffer
        else if e.size < 0 then .error .badAlloc
        else
          let buf := e.blocks.flatten.take e.size.toNat
          if buf.length ≠ e.size.toNat then .error .useAfterFree
          else
            match J.loads (Text.ofBuffer buf) with
            | none => .error .useAfterFree
            | some json =>
              match json.stringMember "collection".toList with
              -- a string is built from the collection's name
              | none => .error .nullPointer
              | some origin =>
                .ok (some ⟨Text.rstrcpy path, origin, json.objectGet "items".toList,
                  BitVec.ofInt 64 (json.integerMember "size".toList), Text.ofBuffer buf⟩, s)
    | _ => .error .useAfterFree

/-! ## Extracting an item -/

/-- The loop that writes the data of an entry to the object open at `path`, and the
close after it. A block of no bytes is the end, and how many bytes a write has
stored is not looked at. -/
def writeBlocks (E : Irods) (path : Text) (fails : Bool) :
    List Bytes → Session → Except Failure Unit × Session
  | [], s =>
    if fails then (.error (.ofCode .sysTarExtractAllErr), (s.objClose E path).2)
    else s.objClose E path
  | [] :: _, s => s.objClose E path
  | (b :: buf) :: blocks, s =>
    match s.objWrite E path (b :: buf) with
    | (.error f, s) => (.error f, (s.objClose E path).2)
    | (.ok _, s) => writeBlocks E path fails blocks s

/-- `extractItem`. -/
def extractItem (E : Irods) (resource : Option Text) (e : ReadEntry) (filename : Text)
    (s : Session) : Except Failure Unit × Session :=
  if e.isDir then
    match s.collCreate E (Text.rstrcpy filename) false with
    | (.error f, s) =>
      if f.status = .named .catalogAlreadyHasItemByThatName then (.ok (), s) else (.error f, s)
    | r => r
  else
    match creat E filename resource s with
    | (.error f, s) => (.error f, s)
    | (.ok (), s) => writeBlocks E (Text.rstrcpy filename) e.fails e.blocks s

/-- `modify`. -/
def Session.modify (E : Irods) (file : Text) (json : Json) (s : Session) : Session :=
  (s.modDataObjMeta E (Text.rstrcpy file) (json.integerMember "modified".toList)).2

/-- The metadata and attributes of an item that has been extracted. -/
def setMetadata (E : Irods) (file : Text) (json : Json) (s : Session) : Except Fault Session :=
  match json.stringMember "type".toList with
  | none => .error .nullPointer
  | some type =>
    let isColl := decide (type = "coll".toList)
    let s := if isColl then s else s.modify E file json
    match json.objectGet "attributes".toList with
    | none => .ok s
    | some list => attributes E file isColl list s

/-- One item extracted under `path`, with its metadata where that succeeds. -/
def extractEntry (E : Irods) (resource : Option Text) (file : Text) (e : ReadEntry)
    (json : Json) (s : Session) : Except Fault (Except Failure Unit × Session) :=
  match extractItem E resource e file s with
  | (.error f, s) => .ok (.error f, s)
  | (.ok (), s) => (setMetadata E file json s).map (fun s => (.ok (), s))

/-- The collection an item to be extracted alone is in, made with the collections
above it. What comes of that is not looked at. -/
def makeParent (E : Irods) (path file : Text) (s : Session) : Session :=
  if '/' ∈ file then
    let dir := ((file.reverse.dropWhile (fun c => c != '/')).drop 1).reverse
    (s.collCreate E (Text.rstrcpy (Text.join path dir)) true).2
  else s

/-! ## The loop -/

/-- What the loop leaves. The items extracted are not part of the code's state. -/
structure Extraction where
  status : Status
  /-- The items `extractItem` has been called for and has returned no error. -/
  extracted : List Json
  session : Session

/-- The loop, on the items that are left, with the header `n` to be read next. -/
def extractLoop (E : Irods) (headers : ℕ → HeaderResult) (resource extract : Option Text)
    (path : Text) (space : ℤ) : List Json → ℕ → Status → Session → Except Fault Extraction
  -- a header that is read all the same has no item
  | [], _, status, s => .ok ⟨status, [], s⟩
  | json :: items, n, status, s =>
    match headers n with
    | .ok e =>
      match json.stringMember "name".toList with
      | none => .error .nullPointer
      | some file =>
        -- the item and the header move on together, whichever names they have
        if extract ≠ none ∧ extract ≠ some file then
          extractLoop E headers resource extract path space items (n + 1) status s
        -- the space for the whole archive has been looked at before the loop
        else if extract ≠ none ∧ space ≠ 0 ∧ usable space < json.integerMember "size".toList then
          .ok ⟨.named .sysRescQuotaExceeded, [], s⟩
        else
          -- the collections above a single file need not be there
          let s := if extract = none then s else makeParent E path file s
          match extractEntry E resource (Text.join path file) e json s with
          | .error fault => .error fault
          | .ok (.error f, s) => .ok ⟨f.status, [], s⟩
          | .ok (.ok (), s) =>
            if extract ≠ none then .ok ⟨.num 0, [json], s⟩
            else
              (extractLoop E headers resource extract path space items (n + 1) (.num 0) s).map
                (fun r => { r with extracted := json :: r.extracted })
    | _ => .ok ⟨status, [], s⟩

/-- What an extraction leaves. -/
structure Extracted where
  status : Status
  /-- What has been stored in the status parameter. -/
  statusOut : Option Status
  /-- The items that have been extracted. -/
  extracted : List Json
  session : Session

/-- **`msiArchiveExtract`.** -/
def msiArchiveExtract (J : Jansson) (E : Irods) (rows : SpaceQuery) (headers : ℕ → HeaderResult)
    (archiveIn pathIn extractIn resourceIn : MsParam) (s : Session) : Except Fault Extracted :=
  let refused : Except Fault Extracted := .ok ⟨.named .sysInvalidInputParam, none, [], s⟩
  if !archiveIn.isStr then refused
  else if !pathIn.isStr then refused
  else match archiveIn.parseMspForStr, pathIn.parseMspForStr with
    | some archive, some path =>
      let extract := if extractIn.isStr then extractIn.parseMspForStr else none
      let resource := if resourceIn.isStr then resourceIn.parseMspForStr else none
      match openArchive J E headers archive s with
      | .error fault => .error fault
      | .ok (none, s) => .ok ⟨.named .sysTarOpenErr, some (.named .sysTarOpenErr), [], s⟩
      | .ok (some a, s) =>
        let check := checkSpace rows resource extract a.dataSize
        if check.1.isNeg then
          .ok ⟨check.1, some check.1, [], (s.objClose E a.path).2⟩
        else
          let s := (s.collCreate E (Text.rstrcpy path) false).2
          match extractLoop E headers resource extract path check.2 a.items 1 check.1 s with
          | .error fault => .error fault
          | .ok r => .ok ⟨r.status, some r.status, r.extracted, (r.session.objClose E a.path).2⟩
    | _, _ => refused

/-! ## All items, or an error -/

section All

variable {J : Jansson} {E : Irods} {rows : SpaceQuery} {headers : ℕ → HeaderResult}
  {resource : Option Text} {path : Text} {space : ℤ}

/-- **What becomes of one item**: its entry is not extracted, or it is, and then its
metadata is set. -/
theorem extractEntry_cases {file : Text} {e : ReadEntry} {json : Json} {s s' : Session}
    {r : Except Failure Unit} (h : extractEntry E resource file e json s = .ok (r, s')) :
    (∃ f, extractItem E resource e file s = (.error f, s') ∧ r = .error f)
      ∨ ∃ t, extractItem E resource e file s = (.ok (), t)
        ∧ setMetadata E file json t = .ok s' ∧ r = .ok () := by
  unfold extractEntry at h
  cases hitem : extractItem E resource e file s with
  | mk result t =>
    rw [hitem] at h
    cases result with
    | error f =>
      obtain ⟨rfl, rfl⟩ := Prod.mk.inj (Except.ok.inj h)
      exact .inl ⟨f, rfl, rfl⟩
    | ok =>
      dsimp only at h
      cases hset : setMetadata E file json t with
      | error fault =>
        rw [hset] at h
        cases h
      | ok u =>
        rw [hset] at h
        obtain ⟨rfl, rfl⟩ := Prod.mk.inj (Except.ok.inj h)
        exact .inr ⟨t, rfl, hset, rfl⟩

theorem extractEntry_ok_iff {file : Text} {e : ReadEntry} {json : Json} {s s' : Session} :
    extractEntry E resource file e json s = .ok (.ok (), s')
      ↔ ∃ t, extractItem E resource e file s = (.ok (), t)
        ∧ setMetadata E file json t = .ok s' := by
  constructor
  · intro h
    obtain ⟨f, -, hr⟩ | ⟨t, hitem, hset, -⟩ := extractEntry_cases h
    · cases hr
    · exact ⟨t, hitem, hset⟩
  · rintro ⟨t, hitem, hset⟩
    rw [extractEntry, hitem]
    show (setMetadata E file json t).map _ = _
    rw [hset]
    rfl

/-- An item that has been extracted comes first. -/
def Extraction.after (json : Json) (r : Extraction) : Extraction :=
  { r with extracted := json :: r.extracted }

/-- The loop does not get past an item without a name. -/
theorem extractLoop_nameless {extract : Option Text} {n : ℕ} {e : ReadEntry} {json : Json}
    (hheader : headers n = .ok e) (hname : json.stringMember "name".toList = none)
    (items : List Json) (status : Status) (s : Session) :
    extractLoop E headers resource extract path space (json :: items) n status s
      = .error .nullPointer := by
  rw [extractLoop, hheader]
  dsimp only
  rw [hname]

/-- The loop that extracts every item, at an item whose header is read. -/
theorem extractLoop_cons {n : ℕ} {e : ReadEntry} {json : Json} {file : Text}
    (hheader : headers n = .ok e) (hname : json.stringMember "name".toList = some file)
    (items : List Json) (status : Status) (s : Session) :
    extractLoop E headers resource none path space (json :: items) n status s
      = match extractEntry E resource (Text.join path file) e json s with
        | .error fault => .error fault
        | .ok (.error f, s) => .ok ⟨f.status, [], s⟩
        | .ok (.ok (), s) =>
          (extractLoop E headers resource none path space items (n + 1) (.num 0) s).map
            (Extraction.after json) := by
  rw [extractLoop, hheader]
  dsimp only
  rw [hname]
  dsimp only
  rw [if_neg (fun h => h.1 rfl), if_neg (fun h => h.1 rfl), if_pos rfl]
  simp only [ne_eq, not_true_eq_false, if_false]
  rfl

/-- A turn of the loop that extracts one item, at an item of another name. -/
theorem extractLoop_other {n : ℕ} {e : ReadEntry} {json : Json} {file name : Text}
    (hheader : headers n = .ok e) (hname : json.stringMember "name".toList = some file)
    (hne : file ≠ name) (items : List Json) (status : Status) (s : Session) :
    extractLoop E headers resource (some name) path space (json :: items) n status s
      = extractLoop E headers resource (some name) path space items (n + 1) status s := by
  rw [extractLoop, hheader]
  dsimp only
  rw [hname]
  dsimp only
  rw [if_pos ⟨Option.some_ne_none _, fun h => hne (Option.some.inj h).symm⟩]

/-- A turn of that loop at the item: its size is looked at, and it is the last one. -/
theorem extractLoop_self {n : ℕ} {e : ReadEntry} {json : Json} {name : Text}
    (hheader : headers n = .ok e) (hname : json.stringMember "name".toList = some name)
    (items : List Json) (status : Status) (s : Session) :
    extractLoop E headers resource (some name) path space (json :: items) n status s
      = if space ≠ 0 ∧ usable space < json.integerMember "size".toList then
          .ok ⟨.named .sysRescQuotaExceeded, [], s⟩
        else match extractEntry E resource (Text.join path name) e json
            (makeParent E path name s) with
          | .error fault => .error fault
          | .ok (.error f, s) => .ok ⟨f.status, [], s⟩
          | .ok (.ok (), s) => .ok ⟨.num 0, [json], s⟩ := by
  rw [extractLoop, hheader]
  dsimp only
  rw [hname]
  dsimp only
  rw [if_neg (fun h => h.2 rfl), if_neg (Option.some_ne_none _)]
  simp only [ne_eq, Option.some_ne_none, not_false_eq_true, true_and, if_true]

/-- **The headers last as long as there are items**: with items left the next
header is read, and where its item can be extracted it goes on like that. -/
def HeadersLast (E : Irods) (headers : ℕ → HeaderResult) (resource : Option Text)
    (path : Text) : List Json → ℕ → Session → Prop
  | [], _, _ => True
  | json :: items, n, s =>
    ∃ e, headers n = .ok e ∧ ∀ file s', json.stringMember "name".toList = some file →
      extractEntry E resource (Text.join path file) e json s = .ok (.ok (), s') →
      HeadersLast E headers resource path items (n + 1) s'

/-- The loop ends where a header is not read. -/
theorem extractLoop_stop {extract : Option Text} {n : ℕ} (h : ∀ e, headers n ≠ .ok e)
    (items : List Json) (status : Status) (s : Session) :
    extractLoop E headers resource extract path space items n status s = .ok ⟨status, [], s⟩ := by
  cases items with
  | nil => rfl
  | cons json items =>
    rw [extractLoop]
    cases hheader : headers n with
    | ok e => exact absurd hheader (h e)
    | _ => rfl

/-- **What every item keeps, the loop keeps**: a relation of sessions that holds over
the extraction of each item with the entry at its position holds over the loop, however
it ends. -/
theorem extractLoop_keeps {extract : Option Text} {R : Session → Session → Prop}
    (hrefl : ∀ s, R s s) (htrans : ∀ {s t u}, R s t → R t u → R s u) {items : List Json} :
    ∀ {n : ℕ}, (∀ {k json file e s s'} {x : Except Failure Unit}, items[k]? = some json →
        headers (n + k) = .ok e → json.stringMember "name".toList = some file →
        extractEntry E resource (Text.join path file) e json
          (if extract = none then s else makeParent E path file s) = .ok (x, s') → R s s') →
      ∀ {status : Status} {s : Session} {r : Extraction},
        extractLoop E headers resource extract path space items n status s = .ok r →
        R s r.session := by
  induction items with
  | nil =>
    intro n _ status s r h
    obtain rfl := Except.ok.inj h
    exact hrefl s
  | cons json items ih =>
    intro n hitem status s r h
    have hrest : ∀ {status : Status} {s : Session} {r : Extraction},
        extractLoop E headers resource extract path space items (n + 1) status s = .ok r →
        R s r.session := by
      refine ih (fun hk hheader => hitem (k := _ + 1) hk ?_)
      rw [← hheader, Nat.add_right_comm, Nat.add_assoc]
    unfold extractLoop at h
    cases hheader : headers n with
    | ok e =>
      rw [hheader] at h
      dsimp only at h
      cases hname : json.stringMember "name".toList with
      | none =>
        rw [hname] at h
        cases h
      | some file =>
        rw [hname] at h
        dsimp only at h
        split at h
        · exact hrest h
        · split at h
          · obtain rfl := Except.ok.inj h
            exact hrefl s
          · cases hentry : extractEntry E resource (Text.join path file) e json
                (if extract = none then s else makeParent E path file s) with
            | error fault =>
              rw [hentry] at h
              cases h
            | ok p =>
              obtain ⟨x, t⟩ := p
              have hone : R s t := hitem (k := 0) rfl hheader hname hentry
              rw [hentry] at h
              cases x with
              | error f =>
                obtain rfl := Except.ok.inj h
                exact hone
              | ok =>
                dsimp only at h
                split at h
                · obtain rfl := Except.ok.inj h
                  exact hone
                · cases hloop : extractLoop E headers resource extract path space items (n + 1)
                      (.num 0) t with
                  | error fault =>
                    rw [hloop] at h
                    cases h
                  | ok r' =>
                    rw [hloop] at h
                    obtain rfl := Except.ok.inj h
                    exact htrans hone (show R t r'.session from hrest hloop)
    | _ =>
      rw [hheader] at h
      obtain rfl := Except.ok.inj h
      exact hrefl s

/-- With an item and its header left, the headers last where they do after the item. -/
theorem HeadersLast.cons_iff {n : ℕ} {e : ReadEntry} {json : Json} {file : Text}
    (hheader : headers n = .ok e) (hname : json.stringMember "name".toList = some file)
    (items : List Json) (s : Session) :
    HeadersLast E headers resource path (json :: items) n s
      ↔ ∀ s', extractEntry E resource (Text.join path file) e json s = .ok (.ok (), s') →
        HeadersLast E headers resource path items (n + 1) s' := by
  constructor
  · rintro ⟨e', he', h⟩ s'
    obtain rfl := HeaderResult.ok.inj (he'.symm.trans hheader)
    exact h file s' hname
  · refine fun h => ⟨e, hheader, fun file' s' hfile' => ?_⟩
    obtain rfl := Option.some.inj (hfile'.symm.trans hname)
    exact h s'

/-- **The loop extracts all items or ends with an error**, exactly where the headers
last. -/
theorem extractLoop_all_iff : ∀ {items : List Json} {n : ℕ} {status : Status} {s : Session},
    status.isNeg = false →
    ((∀ r, extractLoop E headers resource none path space items n status s = .ok r →
        r.status.isNeg = false → r.extracted = items)
      ↔ HeadersLast E headers resource path items n s) := by
  intro items
  induction items with
  | nil =>
    intro n status s _
    refine iff_of_true (fun r hr _ => ?_) trivial
    obtain rfl := Except.ok.inj hr
    rfl
  | cons json items ih =>
    intro n status s hstatus
    by_cases hheader : ∃ e, headers n = .ok e
    · obtain ⟨e, hheader⟩ := hheader
      cases hname : json.stringMember "name".toList with
      | none =>
        refine iff_of_true (fun r hr => ?_)
          ⟨e, hheader, fun file _ hfile => absurd (hname.symm.trans hfile) (by simp)⟩
        rw [extractLoop_nameless hheader hname] at hr
        exact nomatch hr
      | some file =>
        rw [extractLoop_cons hheader hname, HeadersLast.cons_iff hheader hname]
        split
        · rename_i fault hentry
          exact iff_of_true (fun r hr => nomatch hr) (fun s' hs' => nomatch hentry.symm.trans hs')
        · rename_i f t hentry
          refine iff_of_true (fun r hr hneg => ?_)
            (fun s' hs' => nomatch hentry.symm.trans hs')
          obtain rfl := Except.ok.inj hr
          exact absurd (f.neg.symm.trans hneg) (by simp)
        · rename_i t hentry
          have hrest : (∀ s', extractEntry E resource (Text.join path file) e json s
                = .ok (.ok (), s') → HeadersLast E headers resource path items (n + 1) s')
              ↔ HeadersLast E headers resource path items (n + 1) t := by
            refine ⟨fun h => h t hentry, fun h s' hs' => ?_⟩
            obtain rfl := (Prod.mk.inj (Except.ok.inj (hentry.symm.trans hs'))).2
            exact h
          rw [hrest, ← ih (show (Status.num 0).isNeg = false from rfl)]
          cases extractLoop E headers resource none path space items (n + 1) (.num 0) t with
          | error fault => exact iff_of_true (fun r hr => nomatch hr) (fun r hr => nomatch hr)
          | ok r' =>
            constructor
            · rintro h r ⟨⟩ hneg
              exact (List.cons.inj (h _ rfl hneg)).2
            · rintro h r ⟨⟩ hneg
              exact congrArg (json :: ·) (h r' rfl hneg)
    · rw [extractLoop_stop (fun e he => hheader ⟨e, he⟩)]
      refine iff_of_false (fun h => ?_) (fun h => hheader ⟨h.choose, h.choose_spec.1⟩)
      exact absurd (h _ rfl hstatus) (by simp)

/-- The run of an extraction of an archive that opens. -/
theorem msiArchiveExtract_eq {archiveIn pathIn extractIn resourceIn : MsParam} {archive : Text}
    {a : ReadArchive} {s s₁ : Session} (harchive : archiveIn.parseMspForStr = some archive)
    (hpath : pathIn.parseMspForStr = some path)
    (hopen : openArchive J E headers archive s = .ok (some a, s₁)) :
    msiArchiveExtract J E rows headers archiveIn pathIn extractIn resourceIn s
      = let resource := resourceIn.parseMspForStr
        let extract := extractIn.parseMspForStr
        let check := checkSpace rows resource extract a.dataSize
        if check.1.isNeg then .ok ⟨check.1, some check.1, [], (s₁.objClose E a.path).2⟩
        else (extractLoop E headers resource extract path check.2 a.items 1 check.1
          (s₁.collCreate E (Text.rstrcpy path) false).2).map
            (fun r => ⟨r.status, some r.status, r.extracted, (r.session.objClose E a.path).2⟩) := by
  unfold msiArchiveExtract
  dsimp only
  rw [MsParam.isStr_of_parse harchive, MsParam.isStr_of_parse hpath, harchive, hpath,
    MsParam.ite_isStr, MsParam.ite_isStr]
  simp only [Bool.not_true, Bool.false_eq_true, if_false]
  rw [hopen]
  dsimp only
  split
  · rfl
  · split
    · rename_i hloop
      rw [hloop]
      rfl
    · rename_i hloop
      rw [hloop]
      rfl

/-- **What an archive that has been opened is**: its object is open, its first entry is
called `INDEX.json`, and its items are those of the document in it. -/
theorem openArchive_spec {archive : Text} {a : ReadArchive} {s s₁ : Session}
    (h : openArchive J E headers archive s = .ok (some a, s₁)) :
    s.objOpen E (Text.rstrcpy archive) false none = (.ok (), s₁)
      ∧ a.path = Text.rstrcpy archive
      ∧ ∃ e json, headers 0 = .ok e ∧ e.pathname = some "INDEX.json".toList
        ∧ J.loads (Text.ofBuffer (e.blocks.flatten.take e.size.toNat)) = some json
        ∧ json.stringMember "collection".toList = some a.origin
        ∧ a.list = json.objectGet "items".toList
        ∧ a.dataSize = BitVec.ofInt 64 (json.integerMember "size".toList) := by
  unfold openArchive at h
  split at h
  · cases h
  · rename_i t hopen
    dsimp only at h
    split at h
    · cases h
    · rename_i e hheader
      split at h
      · cases h
      rename_i name hname
      split at h
      · cases h
      rename_i hindex
      split at h
      · cases h
      split at h
      · cases h
      split at h
      · cases h
      rename_i json hjson
      split at h
      · cases h
      rename_i origin horigin
      cases h
      exact ⟨hopen, rfl, e, json, hheader, hname.trans (congrArg some (not_not.mp hindex)), hjson,
        horigin, rfl, rfl⟩
    · cases h

/-- **How opening fails**: the object is not opened, or libarchive knows no format of what is
in it, and has closed it. -/
theorem openArchive_none {archive : Text} {s s' : Session}
    (h : openArchive J E headers archive s = .ok (none, s')) :
    (∃ f, s.objOpen E (Text.rstrcpy archive) false none = (.error f, s'))
      ∨ ∃ t, s.objOpen E (Text.rstrcpy archive) false none = (.ok (), t)
        ∧ headers 0 = .unopened ∧ s' = (t.objClose E (Text.rstrcpy archive)).2 := by
  unfold openArchive at h
  split at h
  · rename_i f t hopen
    cases h
    exact .inl ⟨f, hopen⟩
  · rename_i t hopen
    dsimp only at h
    split at h
    · rename_i hheader
      cases h
      exact .inr ⟨t, hopen, hheader, rfl⟩
    · split at h
      · cases h
      split at h
      · cases h
      split at h
      · cases h
      split at h
      · cases h
      split at h
      · cases h
      split at h <;> cases h
    · cases h

/-- **How opening an archive ends**: its object is not opened, it is closed again, or it
is left open for an archive. -/
theorem openArchive_cases {archive : Text} {x : Option ReadArchive} {s s' : Session}
    (h : openArchive J E headers archive s = .ok (x, s')) :
    ∃ y t, s.objOpen E (Text.rstrcpy archive) false none = (y, t)
      ∧ ((x = none ∧ s' = t ∧ y ≠ .ok ())
        ∨ (x = none ∧ s' = (t.objClose E (Text.rstrcpy archive)).2 ∧ y = .ok ())
        ∨ ∃ a, x = some a ∧ s' = t ∧ y = .ok ()) := by
  cases x with
  | none =>
    rcases openArchive_none h with ⟨f, hopen⟩ | ⟨t, hopen, -, hclosed⟩
    · exact ⟨_, s', hopen, .inl ⟨rfl, rfl, fun hy => by cases hy⟩⟩
    · exact ⟨_, t, hopen, .inr (.inl ⟨rfl, hclosed, rfl⟩)⟩
  | some a => exact ⟨_, s', (openArchive_spec h).1, .inr (.inr ⟨a, rfl, rfl, rfl⟩)⟩

/-- Opening an archive and closing it changes nothing. -/
theorem openArchive_frame {archive : Text} {x : Option ReadArchive} {s s' : Session}
    (h : openArchive J E headers archive s = .ok (x, s')) :
    s'.nodes = s.nodes ∧ s'.avus = s.avus := by
  obtain ⟨y, t, hobj, hend⟩ := openArchive_cases h
  obtain ⟨hnodes, havus, -⟩ := Session.objOpen_read_spec hobj
  rcases hend with ⟨-, rfl, -⟩ | ⟨-, rfl, -⟩ | ⟨a, -, rfl, -⟩
  · exact ⟨hnodes, havus⟩
  · obtain ⟨hnodes', havus'⟩ := Session.objClose_frame t E (Text.rstrcpy archive)
    exact ⟨hnodes'.trans hnodes, havus'.trans havus⟩
  · exact ⟨hnodes, havus⟩

/-- **How an extraction ends**: its parameters are refused, its archive is not opened, or
it is. -/
theorem msiArchiveExtract_cases {archiveIn pathIn extractIn resourceIn : MsParam} {s : Session}
    {r : Extracted}
    (h : msiArchiveExtract J E rows headers archiveIn pathIn extractIn resourceIn s = .ok r) :
    (r.session = s ∧ r.extracted = [])
      ∨ ∃ archive path, archiveIn.parseMspForStr = some archive
        ∧ pathIn.parseMspForStr = some path
        ∧ ((openArchive J E headers archive s = .ok (none, r.session) ∧ r.extracted = [])
          ∨ ∃ a s₁, openArchive J E headers archive s = .ok (some a, s₁)) := by
  unfold msiArchiveExtract at h
  dsimp only at h
  split at h
  · obtain rfl := Except.ok.inj h
    exact .inl ⟨rfl, rfl⟩
  split at h
  · obtain rfl := Except.ok.inj h
    exact .inl ⟨rfl, rfl⟩
  split at h
  · rename_i archive path harchive hpath
    refine .inr ⟨archive, path, harchive, hpath, ?_⟩
    cases hopen : openArchive J E headers archive s with
    | error fault =>
      rw [hopen] at h
      cases h
    | ok p =>
      obtain ⟨x, t⟩ := p
      rw [hopen] at h
      cases x with
      | none =>
        obtain rfl := Except.ok.inj h
        exact .inl ⟨rfl, rfl⟩
      | some a => exact .inr ⟨a, t, rfl⟩
  · obtain rfl := Except.ok.inj h
    exact .inl ⟨rfl, rfl⟩

/-- **What an extraction that returns no error has done**: it has opened the archive,
passed the check of the free space and run the loop to its end. -/
theorem msiArchiveExtract_spec {archiveIn pathIn extractIn resourceIn : MsParam} {s : Session}
    {r : Extracted}
    (h : msiArchiveExtract J E rows headers archiveIn pathIn extractIn resourceIn s = .ok r)
    (hstatus : r.status.isNeg = false) :
    ∃ archive path a s₁ loop, archiveIn.parseMspForStr = some archive
      ∧ pathIn.parseMspForStr = some path
      ∧ openArchive J E headers archive s = .ok (some a, s₁)
      ∧ (checkSpace rows resourceIn.parseMspForStr extractIn.parseMspForStr
          a.dataSize).1.isNeg = false
      ∧ extractLoop E headers resourceIn.parseMspForStr extractIn.parseMspForStr path
          (checkSpace rows resourceIn.parseMspForStr extractIn.parseMspForStr a.dataSize).2
          a.items 1
          (checkSpace rows resourceIn.parseMspForStr extractIn.parseMspForStr a.dataSize).1
          (s₁.collCreate E (Text.rstrcpy path) false).2 = .ok loop
      ∧ r = ⟨loop.status, some loop.status, loop.extracted,
          (loop.session.objClose E a.path).2⟩ := by
  unfold msiArchiveExtract at h
  dsimp only at h
  rw [MsParam.ite_isStr, MsParam.ite_isStr] at h
  have hrefused : ∀ {e : ErrorCode} {out : Option Status} {items : List Json} {t : Session},
      (.ok ⟨.named e, out, items, t⟩ : Except Fault Extracted) = .ok r → False := by
    rintro e out items t ⟨⟩
    exact nomatch hstatus
  split at h
  · exact (hrefused h).elim
  · split at h
    · exact (hrefused h).elim
    · split at h
      · rename_i archive path harchive hpath
        split at h
        · exact nomatch h
        · exact (hrefused h).elim
        · rename_i a s₁ hopen
          split at h
          · rename_i hneg
            obtain rfl := Except.ok.inj h
            exact absurd (hneg.symm.trans hstatus) (by simp)
          · rename_i hneg
            split at h
            · exact nomatch h
            · rename_i loop hloop
              exact ⟨archive, path, a, s₁, loop, harchive, hpath, hopen,
                Bool.eq_false_of_not_eq_true hneg, hloop, (Except.ok.inj h).symm⟩
      · exact (hrefused h).elim

/-- **An extraction of the whole archive extracts all items or returns an error**,
exactly where the headers last as long as there are items, or it is refused for the
free space. -/
theorem extracts_all_iff {archiveIn pathIn extractIn resourceIn : MsParam} {archive : Text}
    {a : ReadArchive} {s s₁ : Session} (harchive : archiveIn.parseMspForStr = some archive)
    (hpath : pathIn.parseMspForStr = some path) (hextract : extractIn.parseMspForStr = none)
    (hopen : openArchive J E headers archive s = .ok (some a, s₁)) :
    (∀ r, msiArchiveExtract J E rows headers archiveIn pathIn extractIn resourceIn s = .ok r →
        r.status.isNeg = false → r.extracted = a.items)
      ↔ (checkSpace rows resourceIn.parseMspForStr none a.dataSize).1.isNeg = true
        ∨ HeadersLast E headers resourceIn.parseMspForStr path a.items 1
          (s₁.collCreate E (Text.rstrcpy path) false).2 := by
  rw [msiArchiveExtract_eq harchive hpath hopen, hextract]
  dsimp only
  set check := checkSpace rows resourceIn.parseMspForStr none a.dataSize
  by_cases hneg : check.1.isNeg = true
  · rw [if_pos hneg]
    refine iff_of_true (fun r hr hstatus => ?_) (.inl hneg)
    obtain rfl := Except.ok.inj hr
    exact absurd (hneg.symm.trans hstatus) (by simp)
  · have hloop : (∀ r, extractLoop E headers resourceIn.parseMspForStr none path check.2 a.items 1
          check.1 (s₁.collCreate E (Text.rstrcpy path) false).2 = .ok r →
          r.status.isNeg = false → r.extracted = a.items)
        ↔ HeadersLast E headers resourceIn.parseMspForStr path a.items 1
          (s₁.collCreate E (Text.rstrcpy path) false).2 :=
      extractLoop_all_iff (Bool.eq_false_of_not_eq_true hneg)
    rw [if_neg hneg, or_iff_right hneg, ← hloop]
    cases extractLoop E headers resourceIn.parseMspForStr none path check.2 a.items 1 check.1
      (s₁.collCreate E (Text.rstrcpy path) false).2 with
    | error fault => exact iff_of_true (fun r hr => nomatch hr) (fun r hr => nomatch hr)
    | ok r' =>
      constructor
      · rintro h r ⟨⟩
        exact h _ rfl
      · rintro h r ⟨⟩
        exact h r' rfl

end All

/-! ## An archive with an index -/

/-- **An archive whose first entry holds an index is opened**, where opening its
object is granted. -/
theorem openArchive_eq {J : Jansson} {E : Irods} {headers : ℕ → HeaderResult} {path : Text}
    {s s₁ : Session} (hopen : s.objOpen E (Text.rstrcpy path) false none = (.ok (), s₁))
    {e : ReadEntry} {buf : Bytes} {json : Json} {origin : Text} (hheader : headers 0 = .ok e)
    (hname : e.pathname = some "INDEX.json".toList) (hsize : e.size = buf.length)
    (hdata : e.blocks.flatten = buf) (hnul : '\x00' ∉ buf) (hjson : J.loads buf = some json)
    (horigin : json.stringMember "collection".toList = some origin) :
    openArchive J E headers path s
      = .ok (some ⟨Text.rstrcpy path, origin, json.objectGet "items".toList,
          BitVec.ofInt 64 (json.integerMember "size".toList), buf⟩, s₁) := by
  unfold openArchive
  rw [hopen]
  dsimp only
  rw [hheader]
  dsimp only
  rw [hname, hsize, hdata]
  dsimp only
  rw [if_neg (not_not_intro rfl), if_neg (by omega), Int.toNat_natCast, List.take_length,
    if_neg (not_not_intro rfl), Text.ofBuffer_of_no_nul hnul, hjson]
  dsimp only
  rw [horigin]

namespace Sample

/-- The item of a collection. -/
def item : Json :=
  .object [("name".toList, .string "a".toList), ("type".toList, .string "coll".toList)]

/-- An index with one item. -/
def index : Json :=
  .object [("collection".toList, .string "/z/c".toList), ("size".toList, .integer 0),
    ("items".toList, .array [item])]

theorem index_valid : index.Valid := by
  refine .object (by decide) ?_
  simp only [List.mem_cons, List.not_mem_nil, or_false, forall_eq_or_imp, forall_eq]
  refine ⟨.string _, .integer _, .array (List.forall_mem_singleton.mpr ?_)⟩
  refine .object (by decide) ?_
  simp only [List.mem_cons, List.not_mem_nil, or_false, forall_eq_or_imp, forall_eq]
  exact ⟨.string _, .string _⟩

/-- The entry of the index. -/
def indexEntry : ReadEntry :=
  ⟨some "INDEX.json".toList, false, (JsonText.codec.text 2 index).length,
    [JsonText.codec.text 2 index], false⟩

/-- An archive that is lost after its index. -/
def lost : ℕ → HeaderResult
  | 0 => .ok indexEntry
  | _ => .fatal

/-- The archive object and the collection to extract into. -/
def places : Session :=
  .fresh (fun p => if p = "/z/x.tar".toList then some (.obj [])
    else if p = "/z".toList ∨ p = "/z/t".toList then some .coll else none)

/-- The entry of an index with a document. -/
def documentEntry (v : Json) : ReadEntry :=
  ⟨some "INDEX.json".toList, false, (JsonText.codec.text 2 v).length,
    [JsonText.codec.text 2 v], false⟩

/-- An archive with a document opens, wherever its object stands. -/
theorem openArchive_document {E : Irods} {headers : ℕ → HeaderResult} {v : Json} (hv : v.Valid)
    (hc : v.isContainer = true) {origin : Text}
    (horigin : v.stringMember "collection".toList = some origin)
    (h : headers 0 = .ok (documentEntry v)) {path : Text} {s s₁ : Session}
    (hopen : s.objOpen E (Text.rstrcpy path) false none = (.ok (), s₁)) :
    openArchive JsonText.codec E headers path s
      = .ok (some ⟨Text.rstrcpy path, origin, v.objectGet "items".toList,
          BitVec.ofInt 64 (v.integerMember "size".toList), JsonText.codec.text 2 v⟩, s₁) :=
  openArchive_eq hopen h rfl rfl (List.append_nil _) (JsonText.codec_lawful.text_nul 2 v)
    (JsonText.codec_loads_text 2 hv hc) horigin

/-- The archive with the index of one item opens, whatever comes after the index. -/
theorem openArchive_index (headers : ℕ → HeaderResult) (h : headers 0 = .ok indexEntry) :
    ∃ a s₁, openArchive JsonText.codec .obliging headers "/z/x.tar".toList places
      = .ok (some a, s₁) ∧ a.items = [item] := by
  have hcollection : index.stringMember "collection".toList = some "/z/c".toList := rfl
  exact ⟨_, _, openArchive_document index_valid rfl hcollection h rfl, rfl⟩

end Sample

/-- The extraction of an archive with one item. -/
theorem extracts_all_sample : ∃ a s₁,
    openArchive JsonText.codec .obliging Sample.lost "/z/x.tar".toList Sample.places
      = .ok (some a, s₁)
    ∧ ((∀ r, msiArchiveExtract JsonText.codec .obliging (fun _ => .ok []) Sample.lost
          (.ofText "/z/x.tar".toList) (.ofText "/z/t".toList) ⟨none, none⟩ ⟨none, none⟩
          Sample.places = .ok r → r.status.isNeg = false → r.extracted = a.items)
      ↔ (checkSpace (fun _ => .ok []) none none a.dataSize).1.isNeg = true
        ∨ HeadersLast .obliging Sample.lost none "/z/t".toList a.items 1
          (s₁.collCreate .obliging (Text.rstrcpy "/z/t".toList) false).2) := by
  obtain ⟨a, s₁, hopen, -⟩ := Sample.openArchive_index Sample.lost rfl
  exact ⟨a, s₁, hopen, extracts_all_iff rfl rfl rfl hopen⟩

/-- **The first header after the index is not read**: the extraction returns 0 and has
extracted nothing. -/
theorem failed_header_returns_zero :
    ¬ ∀ (J : Jansson) (E : Irods) (rows : SpaceQuery) (headers : ℕ → HeaderResult)
      (archive path : Text) (s s₁ : Session) (a : ReadArchive) (r : Extracted),
      J.Lawful → openArchive J E headers archive s = .ok (some a, s₁) →
      msiArchiveExtract J E rows headers (.ofText archive) (.ofText path) ⟨none, none⟩
        ⟨none, none⟩ s = .ok r →
      r.status.isNeg = false → r.extracted = a.items := by
  intro h
  obtain ⟨a, s₁, hopen, hitems⟩ := Sample.openArchive_index Sample.lost rfl
  have hrun : msiArchiveExtract JsonText.codec .obliging (fun _ => .ok []) Sample.lost
      (.ofText "/z/x.tar".toList) (.ofText "/z/t".toList) ⟨none, none⟩ ⟨none, none⟩ Sample.places
      = _ := msiArchiveExtract_eq rfl rfl hopen
  rw [hitems] at hrun
  have hbad := h JsonText.codec .obliging _ Sample.lost _ _ _ s₁ a _ JsonText.codec_lawful hopen
    hrun rfl
  rw [hitems] at hbad
  exact nomatch hbad
