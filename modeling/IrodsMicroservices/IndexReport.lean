import IrodsMicroservices.PartialExtraction

/-!
# The index of an archive

`msiArchiveIndex` opens an archive the way an extraction does and hands out the text of
its index, with which it closes the archive again. A rule that calls it looks at the
items in that text, and then asks for one of them, or for all.

What the text says is what there is to extract (`index_tells_extraction`): the items an
extraction goes through are those of the document in it, in their order, on whatever
server and whenever it is run. An archive whose index is not told is not extracted.
-/

open Session

/-- What `msiArchiveIndex` leaves. -/
structure Indexed where
  status : Status
  /-- What has been stored in the index parameter. -/
  indexOut : Option Text
  session : Session

/-- `indexItems`. -/
def ReadArchive.indexItems (a : ReadArchive) : Text := a.indexString

/-- **`msiArchiveIndex`.** -/
def msiArchiveIndex (J : Jansson) (E : Irods) (headers : ℕ → HeaderResult) (archiveIn : MsParam)
    (s : Session) : Except Fault Indexed :=
  let refused : Except Fault Indexed := .ok ⟨.named .sysInvalidInputParam, none, s⟩
  if !archiveIn.isStr then refused
  else match archiveIn.parseMspForStr with
    | some archive =>
      match openArchive J E headers archive s with
      | .error fault => .error fault
      | .ok (none, s) => .ok ⟨.named .sysTarOpenErr, none, s⟩
      | .ok (some a, s) => .ok ⟨.num 0, some a.indexItems, (s.objClose E a.path).2⟩
    | none => refused

section Index

variable {J : Jansson} {E E' : Irods} {headers : ℕ → HeaderResult} {archiveIn : MsParam}

/-- The service, for a path that can be read. -/
theorem msiArchiveIndex_eq {archive : Text} (harchive : archiveIn.parseMspForStr = some archive)
    (s : Session) :
    msiArchiveIndex J E headers archiveIn s
      = match openArchive J E headers archive s with
        | .error fault => .error fault
        | .ok (none, s) => .ok ⟨.named .sysTarOpenErr, none, s⟩
        | .ok (some a, s) => .ok ⟨.num 0, some a.indexItems, (s.objClose E a.path).2⟩ := by
  unfold msiArchiveIndex
  dsimp only
  rw [MsParam.isStr_of_parse harchive, harchive]
  rfl

/-- **What the service leaves**: nothing told and nothing changed, or the index of an
archive that has opened. -/
theorem msiArchiveIndex_cases {s : Session} {r : Indexed}
    (h : msiArchiveIndex J E headers archiveIn s = .ok r) :
    (r.indexOut = none ∧ r.status.isNeg = true
        ∧ (r.session = s ∨ ∃ archive, archiveIn.parseMspForStr = some archive
          ∧ openArchive J E headers archive s = .ok (none, r.session)))
      ∨ ∃ archive a s₁, archiveIn.parseMspForStr = some archive
        ∧ openArchive J E headers archive s = .ok (some a, s₁)
        ∧ r = ⟨.num 0, some a.indexItems, (s₁.objClose E a.path).2⟩ := by
  cases harchive : archiveIn.parseMspForStr with
  | none =>
    unfold msiArchiveIndex at h
    rw [harchive] at h
    simp only [ite_self] at h
    obtain rfl := Except.ok.inj h
    exact .inl ⟨rfl, rfl, .inl rfl⟩
  | some archive =>
    rw [msiArchiveIndex_eq harchive] at h
    cases hopen : openArchive J E headers archive s with
    | error fault =>
      rw [hopen] at h
      cases h
    | ok p =>
      obtain ⟨x, t⟩ := p
      rw [hopen] at h
      cases x with
      | none =>
        obtain rfl := Except.ok.inj h
        exact .inl ⟨rfl, rfl, .inr ⟨archive, rfl, hopen⟩⟩
      | some a => exact .inr ⟨archive, a, t, rfl, hopen, (Except.ok.inj h).symm⟩

/-- The items in the document of an index. -/
def Json.indexItems (json : Json) : List Json :=
  ((json.objectGet "items".toList).map Json.elems).getD []

/-- **What is told of an archive is what has been opened.** -/
theorem loads_indexItems {archive : Text} {a : ReadArchive} {s s₁ : Session}
    (h : openArchive J E headers archive s = .ok (some a, s₁)) :
    ∃ json, J.loads a.indexItems = some json ∧ json.indexItems = a.items
      ∧ json.stringMember "collection".toList = some a.origin := by
  obtain ⟨e, json, -, hindex, horigin, ha⟩ := indexEntry_of_open h
  refine ⟨json, ?_, ?_, horigin⟩
  · rw [ha]
    exact hindex.loads
  · rw [ha]
    rfl

/-- The service changes nothing, and closes what it has opened. -/
theorem handled_index {s : Session} {r : Indexed}
    (h : msiArchiveIndex J E headers archiveIn s = .ok r) :
    Handled (fun _ => False) [] [] s r.session := by
  have hheld : ([] : List Text).length < 2 := Nat.two_pos
  rcases msiArchiveIndex_cases h with ⟨-, -, hsame | ⟨archive, -, hopen⟩⟩
    | ⟨archive, a, s₁, -, hopen, rfl⟩
  · rw [hsame]
    exact Handled.refl _ _ _
  · obtain ⟨y, t, hobj, hend⟩ := openArchive_cases hopen
    have hopened := handled_objOpen_read (D := fun _ => False) hheld hobj
    rcases hend with ⟨-, hend, hy⟩ | ⟨-, hend, rfl⟩ | ⟨a, ha, -⟩
    · cases y with
      | ok => exact absurd rfl hy
      | error f =>
        rw [hend]
        exact hopened
    · rw [hend]
      exact hopened.trans (handled_objClose _ E _ [] t)
    · cases ha
  · exact (handled_openArchive hopen _).trans (handled_objClose _ E a.path [] s₁)

end Index

/-! ## What is told is what is extracted -/

/-- The items an extraction is for: all of them, or the first of a name. -/
def selected (extract : Option Text) (items : List Json) : List Json :=
  match extract with
  | none => items
  | some name => (items.find? (fun item => item.stringMember "name".toList == some name)).toList

theorem selected_self {json : Json} {name : Text} {items : List Json}
    (hname : json.stringMember "name".toList = some name) :
    selected (some name) (json :: items) = [json] := by
  show ((json :: items).find? (fun item => item.stringMember "name".toList == some name)).toList = _
  rw [List.find?_cons, hname, beq_self_eq_true]
  rfl

theorem selected_other {json : Json} {file name : Text} {items : List Json}
    (hname : json.stringMember "name".toList = some file) (hne : file ≠ name) :
    selected (some name) (json :: items) = selected (some name) items := by
  have hother : (some file == some name) = false :=
    beq_false_of_ne (fun heq => hne (Option.some.inj heq))
  show ((json :: items).find? (fun item => item.stringMember "name".toList == some name)).toList = _
  rw [List.find?_cons, hname, hother]
  rfl

/-- **The loop extracts the items it is for**, up to the one it ends at. -/
theorem extractLoop_selected {E : Irods} {headers : ℕ → HeaderResult}
    {resource extract : Option Text} {path : Text} {space : ℤ} {items : List Json} :
    ∀ {n : ℕ} {status : Status} {s : Session} {r : Extraction},
      extractLoop E headers resource extract path space items n status s = .ok r →
      r.extracted <+: selected extract items := by
  induction items with
  | nil =>
    intro n status s r h
    obtain rfl := Except.ok.inj h
    exact List.nil_prefix
  | cons json items ih =>
    intro n status s r h
    cases hheader : headers n with
    | ok e =>
      cases hname : json.stringMember "name".toList with
      | none =>
        rw [extractLoop_nameless hheader hname] at h
        cases h
      | some file =>
        cases extract with
        | none =>
          rw [extractLoop_cons (n := n) hheader hname] at h
          cases hentry : extractEntry E resource (Text.join path file) e json s with
          | error fault =>
            rw [hentry] at h
            cases h
          | ok p =>
            obtain ⟨x, t⟩ := p
            rw [hentry] at h
            cases x with
            | error f =>
              obtain rfl := Except.ok.inj h
              exact List.nil_prefix
            | ok =>
              dsimp only at h
              cases hloop : extractLoop E headers resource none path space items (n + 1) (.num 0)
                  t with
              | error fault =>
                rw [hloop] at h
                cases h
              | ok r' =>
                rw [hloop] at h
                obtain rfl := Except.ok.inj h
                exact List.prefix_cons_inj json |>.mpr (ih hloop)
        | some name =>
          by_cases hsame : file = name
          · subst hsame
            rw [selected_self hname]
            rw [extractLoop_self (n := n) hheader hname] at h
            split at h
            · obtain rfl := Except.ok.inj h
              exact List.nil_prefix
            · cases hentry : extractEntry E resource (Text.join path file) e json
                  (makeParent E path file s) with
              | error fault =>
                rw [hentry] at h
                cases h
              | ok p =>
                obtain ⟨x, t⟩ := p
                rw [hentry] at h
                cases x with
                | error f =>
                  obtain rfl := Except.ok.inj h
                  exact List.nil_prefix
                | ok =>
                  obtain rfl := Except.ok.inj h
                  exact List.prefix_rfl
          · rw [selected_other hname hsame]
            rw [extractLoop_other (n := n) hheader hname hsame] at h
            exact ih h
    | _ =>
      rw [extractLoop_stop (by simp [hheader])] at h
      obtain rfl := Except.ok.inj h
      exact List.nil_prefix

/-- What an extraction has extracted, and what it has changed where nothing opens. -/
theorem extracted_selected {J : Jansson} {E : Irods} {rows : SpaceQuery}
    {headers : ℕ → HeaderResult} {archiveIn pathIn extractIn resourceIn : MsParam} {s : Session}
    {r : Extracted}
    (h : msiArchiveExtract J E rows headers archiveIn pathIn extractIn resourceIn s = .ok r) :
    (r.extracted = [] ∧ r.session.nodes = s.nodes ∧ r.session.avus = s.avus)
      ∨ ∃ archive a s₁, archiveIn.parseMspForStr = some archive
        ∧ openArchive J E headers archive s = .ok (some a, s₁)
        ∧ r.extracted <+: selected extractIn.parseMspForStr a.items := by
  rcases msiArchiveExtract_cases h with ⟨hsame, hnone⟩ | ⟨archive, path, harchive, hpath, hend⟩
  · exact .inl ⟨hnone, by rw [hsame], by rw [hsame]⟩
  rcases hend with ⟨hopen, hnone⟩ | ⟨a, s₁, hopen⟩
  · exact .inl ⟨hnone, openArchive_frame hopen⟩
  · refine .inr ⟨archive, a, s₁, harchive, hopen, ?_⟩
    rw [msiArchiveExtract_eq harchive hpath hopen] at h
    dsimp only at h
    split at h
    · obtain rfl := Except.ok.inj h
      exact List.nil_prefix
    · cases hloop : extractLoop E headers resourceIn.parseMspForStr extractIn.parseMspForStr path
          (checkSpace rows resourceIn.parseMspForStr extractIn.parseMspForStr a.dataSize).2
          a.items 1
          (checkSpace rows resourceIn.parseMspForStr extractIn.parseMspForStr a.dataSize).1
          (s₁.collCreate E (Text.rstrcpy path) false).2 with
      | error fault =>
        rw [hloop] at h
        cases h
      | ok x =>
        rw [hloop] at h
        obtain rfl := Except.ok.inj h
        exact extractLoop_selected hloop

/-- **The text of an index tells what there is to extract.** It is read without changing
anything or leaving anything open. Where a text is handed out, the items of every
extraction of the archive, whole or of one item, are those of the document in it, in
their order up to where the extraction ends. Where none is, although the object of the
archive has been opened, every extraction of the archive changes nothing. -/
theorem index_tells_extraction {J : Jansson} {E : Irods} {headers : ℕ → HeaderResult}
    {archiveIn : MsParam} {s : Session} {r : Indexed}
    (h : msiArchiveIndex J E headers archiveIn s = .ok r) :
    (∃ log, s.Since r.session log ∧ LeavesOpen [] log)
      ∧ r.session.nodes = s.nodes ∧ r.session.avus = s.avus
      ∧ (∀ text, r.indexOut = some text → r.status = .num 0 ∧ ∃ json, J.loads text = some json
        ∧ ∀ (E' : Irods) (rows : SpaceQuery) (pathIn extractIn resourceIn : MsParam)
          (s' : Session) (r' : Extracted),
          msiArchiveExtract J E' rows headers archiveIn pathIn extractIn resourceIn s' = .ok r' →
          r'.extracted <+: selected extractIn.parseMspForStr json.indexItems)
      ∧ (r.indexOut = none → ∀ archive t, archiveIn.parseMspForStr = some archive →
        s.objOpen E (Text.rstrcpy archive) false none = (.ok (), t) →
        ∀ (E' : Irods) (rows : SpaceQuery) (pathIn extractIn resourceIn : MsParam)
          (s' : Session) (r' : Extracted),
          msiArchiveExtract J E' rows headers archiveIn pathIn extractIn resourceIn s' = .ok r' →
          r'.extracted = [] ∧ r'.session.nodes = s'.nodes ∧ r'.session.avus = s'.avus) := by
  have hhandled := handled_index h
  refine ⟨hhandled.leavesOpen, funext (fun q => (hhandled.confined q id).1),
    funext (fun q => (hhandled.confined q id).2), fun text htext => ?_,
    fun hnone archive t harchive hobj E' rows pathIn extractIn resourceIn s' r' hextract => ?_⟩
  · rcases msiArchiveIndex_cases h with ⟨hnone, -⟩ | ⟨archive, a, s₁, harchive, hopen, rfl⟩
    · rw [hnone] at htext
      cases htext
    obtain rfl := Option.some.inj htext
    obtain ⟨json, hloads, hitems, -⟩ := loads_indexItems hopen
    refine ⟨rfl, json, hloads, fun E' rows pathIn extractIn resourceIn s' r' hextract => ?_⟩
    rw [hitems]
    rcases extracted_selected hextract with ⟨hnone, -⟩
      | ⟨archive', a', s₁', harchive', hopen', hsel⟩
    · rw [hnone]
      exact List.nil_prefix
    · obtain rfl := Option.some.inj (harchive.symm.trans harchive')
      have hsame := openArchive_again hopen (openArchive_spec hopen').1
      rw [hopen'] at hsame
      obtain rfl := Option.some.inj (Prod.mk.inj (Except.ok.inj hsame)).1
      exact hsel
  · rcases extracted_selected hextract with hleft | ⟨archive', a', s₁', harchive', hopen', -⟩
    · exact hleft
    · obtain rfl := Option.some.inj (harchive.symm.trans harchive')
      have hopen := openArchive_again hopen' hobj
      rw [msiArchiveIndex_eq harchive, hopen] at h
      obtain rfl := Except.ok.inj h
      cases hnone

/-- The index of the tree, and what is extracted from it. -/
theorem index_tells_extraction_sample : ∃ (data : Bytes) (r : Indexed) (r' : Extracted),
    msiArchiveIndex JsonText.codec .obliging (ArchiveText.library.entryAt data)
        (.ofText "/z/x.tar".toList) (Sample.before data) = .ok r
      ∧ msiArchiveExtract JsonText.codec .obliging (fun _ => .ok [])
        (ArchiveText.library.entryAt data) (.ofText "/z/x.tar".toList) (.ofText "/z/t".toList)
        Sample.noParam Sample.noParam (Sample.before data) = .ok r'
      ∧ ∃ text json, r.indexOut = some text ∧ JsonText.codec.loads text = some json
        ∧ r'.extracted <+: json.indexItems := by
  obtain ⟨-, r', data, a, s₁, -, -, -, hopen, -, hr', -⟩ := Sample.extracted_tree
  have hindex : msiArchiveIndex JsonText.codec .obliging (ArchiveText.library.entryAt data)
      (.ofText "/z/x.tar".toList) (Sample.before data)
        = .ok ⟨.num 0, some a.indexItems, (s₁.objClose .obliging a.path).2⟩ := by
    have harchive : (MsParam.ofText "/z/x.tar".toList).parseMspForStr
        = some "/z/x.tar".toList := rfl
    rw [msiArchiveIndex_eq harchive, hopen]
  obtain ⟨-, -, -, htold, -⟩ := index_tells_extraction hindex
  obtain ⟨-, json, hloads, hselected⟩ := htold _ rfl
  exact ⟨data, _, r', hindex, hr', _, json, rfl, hloads,
    hselected .obliging _ _ Sample.noParam Sample.noParam _ r' hr'⟩
