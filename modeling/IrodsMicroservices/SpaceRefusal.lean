import IrodsMicroservices.RequestLog

/-!
# Refused for lack of space

An extraction looks at the free space of the resource twice. The size of the whole archive
is compared before anything has been made. The size of a single item is compared when the
loop comes to it, and the target collection has been created by then. A refusal at the
second check therefore leaves that collection behind, unless making it has changed nothing
(`space_refusal_traceless_iff`).

The two checks do not ask for the same: a free space below zero that is no error when it is
cut to an `int` passes the first, and is compared at the second. Where an extraction returns
the status of its checks and neither of them has refused it, the query for the free space or
a request of the run has been answered with that status.
-/

/-! ## The two checks -/

/-- The loop comes to the item that is to be extracted alone, and it is too large. -/
def LoopRefuses (headers : ℕ → HeaderResult) (name : Text) (space : ℤ) : List Json → ℕ → Prop
  | [], _ => False
  | json :: items, n =>
    ∃ e file, headers n = .ok e ∧ json.stringMember "name".toList = some file
      ∧ if file = name then space ≠ 0 ∧ usable space < json.integerMember "size".toList
        else LoopRefuses headers name space items (n + 1)

/-- **An extraction is refused for lack of space** by one of its own checks. -/
inductive SpaceRefused (rows : SpaceQuery) (headers : ℕ → HeaderResult) (a : ReadArchive) :
    Option Text → Option Text → Prop
  /-- The archive is too large. -/
  | whole {resource : Text} {space : ℤ} (hspace : freeSpace rows resource = .num space)
      (hpos : 0 < space) (hlarge : a.dataSize > BitVec.ofInt 64 (usable space)) :
      SpaceRefused rows headers a (some resource) none
  /-- The item to be extracted is too large, for a free space that has been let pass. -/
  | single {resource : Text} {space : ℤ} {name : Text}
      (hspace : freeSpace rows resource = .num space)
      (hpassed : (checkSpace rows (some resource) (some name) a.dataSize).1.isNeg = false)
      (hrefuses : LoopRefuses headers name space a.items 1) :
      SpaceRefused rows headers a (some resource) (some name)

section

variable {J : Jansson} {E : Irods} {rows : SpaceQuery} {headers : ℕ → HeaderResult}
  {resource : Option Text} {path name : Text} {space : ℤ}

/-- The check in the loop returns before anything is extracted. -/
theorem extractLoop_refuses {items : List Json} : ∀ {n : ℕ},
    LoopRefuses headers name space items n → ∀ (status : Status) (s : Session),
      extractLoop E headers resource (some name) path space items n status s
        = .ok ⟨.named .sysRescQuotaExceeded, [], s⟩ := by
  induction items with
  | nil => exact fun h => h.elim
  | cons json items ih =>
    rintro n ⟨e, file, hheader, hname, h⟩ status s
    by_cases hfile : file = name
    · subst hfile
      rw [if_pos rfl] at h
      rw [extractLoop_self hheader hname, if_pos h]
    · rw [if_neg hfile] at h
      rw [extractLoop_other hheader hname hfile]
      exact ih h status s

/-- **A lack of space that the server reports**: a request between two states has been denied
with that status. -/
def QuotaDenied (E : Irods) (s s' : Session) : Prop :=
  ∃ n f, s.log.length ≤ n ∧ n < s'.log.length ∧ E.deny n = some f
    ∧ f.status = .named .sysRescQuotaExceeded

section QuotaDenied

variable {s t u : Session} {f : Failure}

theorem QuotaDenied.left (h : QuotaDenied E t u) {log : List (Request × Bool)}
    (hlog : s.Since t log) : QuotaDenied E s u := by
  obtain ⟨n, f, hn, hrest⟩ := h
  have hle : s.log.length ≤ t.log.length := by
    rw [show t.log = s.log ++ log from hlog, List.length_append]
    exact Nat.le_add_right _ _
  exact ⟨n, f, hle.trans hn, hrest⟩

theorem QuotaDenied.right (h : QuotaDenied E s t) {log : List (Request × Bool)}
    (hlog : t.Since u log) : QuotaDenied E s u := by
  obtain ⟨n, f, hn, hlt, hrest⟩ := h
  have hle : t.log.length ≤ u.log.length := by
    rw [show u.log = t.log ++ log from hlog, List.length_append]
    exact Nat.le_add_right _ _
  exact ⟨n, f, hn, hlt.trans_le hle, hrest⟩

/-- No request finds a lack of space in the namespace. -/
theorem quotaDenied_request {α : Type} {r : Request} {answer : Except Failure (α × Session)}
    (h : s.request E r answer = (.error f, t)) (hf : f.status = .named .sysRescQuotaExceeded)
    (hanswer : ∀ g, answer = .error g → g.status ≠ .named .sysRescQuotaExceeded) :
    QuotaDenied E s t := by
  refine ⟨s.log.length, f, le_rfl, ?_,
    (Session.request_error_cases h).resolve_right (fun ha => hanswer f ha hf), hf⟩
  rw [Session.request_error h]
  simp [Session.record]

theorem quotaDenied_collCreate (h : s.collCreate E path false = (.error f, t))
    (hf : f.status = .named .sysRescQuotaExceeded) : QuotaDenied E s t := by
  refine quotaDenied_request h hf (fun g hg => ?_)
  split at hg
  · cases hg
    simp
  · cases hg
    simp
  · rw [if_neg Bool.false_ne_true] at hg
    split at hg
    · cases hg
    · cases hg
      simp

theorem quotaDenied_objOpen {truncate : Bool}
    (h : s.objOpen E path truncate resource = (.error f, t))
    (hf : f.status = .named .sysRescQuotaExceeded) : QuotaDenied E s t := by
  refine quotaDenied_request h hf (fun g hg => ?_)
  split at hg
  · cases hg
  · cases hg
    simp

theorem quotaDenied_objCreate (h : s.objCreate E path resource = (.error f, t))
    (hf : f.status = .named .sysRescQuotaExceeded) : QuotaDenied E s t := by
  refine quotaDenied_request h hf (fun g hg => ?_)
  split at hg
  · cases hg
    simp
  · cases hg
    simp
  · split at hg
    · cases hg
    · cases hg
      simp

theorem quotaDenied_objWrite {buf : Bytes} (h : s.objWrite E path buf = (.error f, t))
    (hf : f.status = .named .sysRescQuotaExceeded) : QuotaDenied E s t := by
  refine quotaDenied_request h hf (fun g hg => ?_)
  split at hg
  · cases hg
  · cases hg
    simp

theorem quotaDenied_objClose (h : s.objClose E path = (.error f, t))
    (hf : f.status = .named .sysRescQuotaExceeded) : QuotaDenied E s t :=
  quotaDenied_request h hf (fun _ hg => nomatch hg)

theorem quotaDenied_creat (h : creat E path resource s = (.error f, t))
    (hf : f.status = .named .sysRescQuotaExceeded) : QuotaDenied E s t := by
  unfold creat at h
  split at h
  · cases h
  · rename_i g u hopen
    split at h
    · obtain ⟨b, hlog⟩ := Session.since_objOpen E (Text.rstrcpy path) true resource s
      rw [hopen] at hlog
      exact (quotaDenied_objCreate h hf).left hlog
    · cases h
      exact quotaDenied_objOpen hopen hf

theorem quotaDenied_writeBlocks {fails : Bool} {blocks : List Bytes} :
    ∀ {s : Session}, writeBlocks E path fails blocks s = (.error f, t) →
      f.status = .named .sysRescQuotaExceeded → QuotaDenied E s t := by
  induction blocks with
  | nil =>
    intro s h hf
    unfold writeBlocks at h
    split at h
    · cases h
      cases hf
    · exact quotaDenied_objClose h hf
  | cons block blocks ih =>
    intro s h hf
    cases block with
    | nil => exact quotaDenied_objClose h hf
    | cons b buf =>
      obtain ⟨_, hwritten⟩ := Session.since_objWrite E path (b :: buf) s
      unfold writeBlocks at h
      cases hwrite : s.objWrite E path (b :: buf) with
      | mk x u =>
        rw [hwrite] at h hwritten
        cases x with
        | error g =>
          obtain ⟨_, hclosed⟩ := Session.since_objClose E path u
          cases h
          exact (quotaDenied_objWrite hwrite hf).right hclosed
        | ok n => exact (ih h hf).left hwritten

theorem quotaDenied_extractItem {e : ReadEntry} {file : Text}
    (h : extractItem E resource e file s = (.error f, t))
    (hf : f.status = .named .sysRescQuotaExceeded) : QuotaDenied E s t := by
  unfold extractItem at h
  split at h
  · split at h
    · rename_i g u hcreate
      split at h
      · cases h
      · cases h
        exact quotaDenied_collCreate hcreate hf
    · exact quotaDenied_collCreate h hf
  · cases hcreat : creat E file resource s with
    | mk x u =>
      obtain ⟨log, hlog, -⟩ := creat_asks E file resource s
      rw [hcreat] at h hlog
      cases x with
      | error g =>
        cases h
        exact quotaDenied_creat hcreat hf
      | ok => exact (quotaDenied_writeBlocks h hf).left hlog

theorem quotaDenied_extractEntry {e : ReadEntry} {json : Json} {file : Text}
    (h : extractEntry E resource file e json s = .ok (.error f, t))
    (hf : f.status = .named .sysRescQuotaExceeded) : QuotaDenied E s t := by
  rcases extractEntry_cases h with ⟨g, hitem, hg⟩ | ⟨_, _, _, hr⟩
  · obtain rfl := Except.error.inj hg
    exact quotaDenied_extractItem hitem hf
  · cases hr

end QuotaDenied

theorem since_makeParent (path file : Text) (s : Session) :
    ∃ log, s.Since (makeParent E path file s) log := by
  unfold makeParent
  split
  · obtain ⟨b, hlog⟩ := Session.since_collCreate E
      (Text.rstrcpy (Text.join path (parentName file))) true s
    exact ⟨_, hlog⟩
  · exact ⟨[], .refl s⟩

/-- **A lack of space the loop returns** is found by its own check, or a request has been
denied with it. -/
theorem extractLoop_quota {extract : Option Text} {items : List Json} :
    ∀ {n : ℕ} {status : Status} {s : Session} {r : Extraction},
      status ≠ .named .sysRescQuotaExceeded →
      extractLoop E headers resource extract path space items n status s = .ok r →
      r.status = .named .sysRescQuotaExceeded →
      (∃ name, extract = some name ∧ LoopRefuses headers name space items n)
        ∨ QuotaDenied E s r.session := by
  induction items with
  | nil =>
    intro n status s r hstatus h hr
    obtain rfl := Except.ok.inj h
    exact absurd hr hstatus
  | cons json items ih =>
    intro n status s r hstatus h hr
    by_cases hheader : ∃ e, headers n = .ok e
    · obtain ⟨e, hheader⟩ := hheader
      cases hname : json.stringMember "name".toList with
      | none =>
        rw [extractLoop_nameless hheader hname] at h
        cases h
      | some file =>
        cases extract with
        | none =>
          rw [extractLoop_cons hheader hname] at h
          split at h
          · cases h
          · rename_i f t hentry
            obtain rfl := Except.ok.inj h
            exact .inr (quotaDenied_extractEntry hentry hr)
          · rename_i t hentry
            obtain ⟨log, hlog, -⟩ := extractEntry_asks hentry
            cases hloop :
                extractLoop E headers resource none path space items (n + 1) (.num 0) t with
            | error fault =>
              rw [hloop] at h
              cases h
            | ok r' =>
              rw [hloop] at h
              obtain rfl := Except.ok.inj h
              rcases ih (by simp) hloop hr with ⟨name, hnone, -⟩ | hdenied
              · cases hnone
              · exact .inr (hdenied.left hlog)
        | some name =>
          by_cases hfile : file = name
          · subst hfile
            rw [extractLoop_self hheader hname] at h
            split at h
            · rename_i hlarge
              exact .inl ⟨file, rfl, e, file, hheader, hname, by rw [if_pos rfl]; exact hlarge⟩
            · obtain ⟨log, hlog⟩ := since_makeParent (E := E) path file s
              split at h
              · cases h
              · rename_i f t hentry
                obtain rfl := Except.ok.inj h
                exact .inr ((quotaDenied_extractEntry hentry hr).left hlog)
              · obtain rfl := Except.ok.inj h
                cases hr
          · rw [extractLoop_other hheader hname hfile] at h
            refine (ih hstatus h hr).imp_left (fun ⟨name', hname', hrest⟩ => ?_)
            obtain rfl := Option.some.inj hname'
            refine ⟨_, rfl, e, file, hheader, hname, ?_⟩
            rw [if_neg hfile]
            exact hrest
    · rw [extractLoop_stop (fun e he => hheader ⟨e, he⟩)] at h
      obtain rfl := Except.ok.inj h
      exact absurd hr hstatus

/-- Making a collection changes the namespace exactly where it is granted, its place is free
and it is in a collection. The metadata stays as it is. -/
theorem collCreate_trace (s : Session) :
    (s.collCreate E path false).2.avus = s.avus
      ∧ ((s.collCreate E path false).2.nodes = s.nodes
        ↔ ¬ (E.deny s.log.length = none ∧ s.nodes path = none
          ∧ s.nodes (Text.parent path) = some .coll)) := by
  unfold Session.collCreate Session.request
  cases E.deny s.log.length with
  | some f => exact ⟨rfl, iff_of_true rfl (fun h => nomatch h.1)⟩
  | none =>
    cases hnode : s.nodes path with
    | some node => cases node <;> exact ⟨rfl, iff_of_true rfl (fun h => nomatch h.2.1)⟩
    | none =>
      dsimp only
      rw [if_neg Bool.false_ne_true]
      by_cases hparent : s.nodes (Text.parent path) = some .coll
      · rw [if_pos hparent]
        refine ⟨rfl, iff_of_false (fun h => ?_) (fun h => h ⟨rfl, rfl, hparent⟩)⟩
        have hmade : (s.put path .coll).nodes path = s.nodes path := congrFun h path
        rw [Session.nodes_put_self, hnode] at hmade
        exact nomatch hmade
      · rw [if_neg hparent]
        exact ⟨rfl, iff_of_true rfl (fun h => hparent h.2.2)⟩

/-- `rsCollCreate` makes the target, where the archive has been opened before. -/
def MakesTarget (E : Irods) (path : Text) (s : Session) : Prop :=
  E.deny (s.log.length + 1) = none ∧ s.nodes (Text.rstrcpy path) = none
    ∧ s.nodes (Text.parent (Text.rstrcpy path)) = some .coll

/-- A refusal in the loop is for a free space other than zero. -/
theorem LoopRefuses.ne_zero {items : List Json} : ∀ {n : ℕ},
    LoopRefuses headers name space items n → space ≠ 0 := by
  induction items with
  | nil => exact fun h => h.elim
  | cons json items ih =>
    rintro n ⟨e, file, -, -, h⟩
    split at h
    · exact h.1
    · exact ih h

/-- The free space that is compared, where it has been found. -/
theorem checkSpace_snd {resource : Text} {extract : Option Text} {size : BitVec 64}
    (h : freeSpace rows resource = .num space) :
    (checkSpace rows (some resource) extract size).2 = space := by
  unfold checkSpace
  dsimp only
  rw [h]
  dsimp only
  split
  · rfl
  · split <;> rfl

/-- A free space that is compared has been found for a resource. -/
theorem freeSpace_of_checkSpace {resource extract : Option Text} {size : BitVec 64}
    (h : (checkSpace rows resource extract size).2 ≠ 0) :
    ∃ name, resource = some name
      ∧ freeSpace rows name = .num (checkSpace rows resource extract size).2 := by
  cases resource with
  | none => exact absurd rfl h
  | some name =>
    cases hspace : freeSpace rows name with
    | named e =>
      unfold checkSpace at h
      dsimp only at h
      rw [hspace] at h
      exact absurd rfl h
    | num space =>
      exact ⟨name, rfl, hspace.trans (congrArg Status.num (checkSpace_snd hspace).symm)⟩

/-- What the check before the loop refuses with a lack of space. -/
theorem checkSpace_quota {a : ReadArchive} {resource extract : Option Text}
    (h : (checkSpace rows resource extract a.dataSize).1 = .named .sysRescQuotaExceeded) :
    SpaceRefused rows headers a resource extract
      ∨ ∃ name, resource = some name ∧ freeSpace rows name = .named .sysRescQuotaExceeded := by
  cases resource with
  | none => cases h
  | some name =>
    unfold checkSpace at h
    dsimp only at h
    cases hspace : freeSpace rows name with
    | named e =>
      rw [hspace] at h
      exact .inr ⟨name, rfl, hspace.trans h⟩
    | num space =>
      rw [hspace] at h
      dsimp only at h
      split at h
      · cases h
      rename_i hneg
      split at h
      · rename_i hlarge
        obtain ⟨hne, rfl, hlarge⟩ := hlarge
        exact .inl (.whole hspace (by omega) hlarge)
      · cases h

/-- **A refusal for lack of space leaves no trace** exactly where the whole archive was to
be extracted, or the target collection has not been made. Where the status of a refusal is
returned, one of the checks has refused the extraction, or the server has answered the query
for the free space or a request with that status. -/
theorem space_refusal_traceless_iff {archiveIn pathIn extractIn resourceIn : MsParam}
    {archive : Text} {a : ReadArchive} {s s₁ : Session}
    (harchive : archiveIn.parseMspForStr = some archive)
    (hpath : pathIn.parseMspForStr = some path)
    (hopen : openArchive J E headers archive s = .ok (some a, s₁)) :
    (∀ r, msiArchiveExtract J E rows headers archiveIn pathIn extractIn resourceIn s = .ok r →
        r.status = .named .sysRescQuotaExceeded →
        SpaceRefused rows headers a resourceIn.parseMspForStr extractIn.parseMspForStr
          ∨ (∃ name, resourceIn.parseMspForStr = some name
            ∧ freeSpace rows name = .named .sysRescQuotaExceeded)
          ∨ QuotaDenied E s r.session)
      ∧ (SpaceRefused rows headers a resourceIn.parseMspForStr extractIn.parseMspForStr →
        ∃ r, msiArchiveExtract J E rows headers archiveIn pathIn extractIn resourceIn s = .ok r
          ∧ r.status = .named .sysRescQuotaExceeded
          ∧ ((r.session.nodes = s.nodes ∧ r.session.avus = s.avus)
            ↔ extractIn.parseMspForStr = none ∨ ¬ MakesTarget E path s)) := by
  obtain ⟨hobject, -⟩ := openArchive_spec hopen
  obtain ⟨hnodes, havus, -⟩ := Session.objOpen_read_spec hobject
  have hlog : s₁.log.length = s.log.length + 1 := by
    rw [← Session.length_log_of_since
      (Session.since_objOpen E (Text.rstrcpy archive) false none s), hobject]
  rw [msiArchiveExtract_eq harchive hpath hopen]
  generalize resourceIn.parseMspForStr = resource
  generalize extractIn.parseMspForStr = extract
  dsimp only
  constructor
  · intro r h hr
    split at h
    · obtain rfl := Except.ok.inj h
      exact (checkSpace_quota hr).imp_right .inl
    · rename_i hpassed
      cases hloop : extractLoop E headers resource extract path
          (checkSpace rows resource extract a.dataSize).2 a.items 1
          (checkSpace rows resource extract a.dataSize).1
          (s₁.collCreate E (Text.rstrcpy path) false).2 with
      | error fault =>
        rw [hloop] at h
        cases h
      | ok r' =>
        rw [hloop] at h
        obtain rfl := Except.ok.inj h
        have hstatus : (checkSpace rows resource extract a.dataSize).1
            ≠ .named .sysRescQuotaExceeded := by
          intro hquota
          rw [hquota] at hpassed
          exact hpassed rfl
        rcases extractLoop_quota hstatus hloop hr with ⟨name, rfl, hrefuses⟩ | hdenied
        · obtain ⟨found, rfl, hspace⟩ := freeSpace_of_checkSpace hrefuses.ne_zero
          exact .inl (.single hspace (Bool.eq_false_iff.mpr hpassed) hrefuses)
        · -- the requests of the run are before the loop, in it and after it
          obtain ⟨_, hopened, -⟩ := openArchive_asks hopen
          obtain ⟨_, hcreated⟩ := Session.since_collCreate E (Text.rstrcpy path) false s₁
          obtain ⟨_, hclosed⟩ := Session.since_objClose E a.path r'.session
          exact .inr (.inr ((hdenied.left (hopened.trans hcreated)).right hclosed))
  · intro hrefused
    have hclose := fun t : Session => Session.objClose_frame t E a.path
    cases hrefused with
    | @whole resource space hspace hpos hlarge =>
      have hcheck : checkSpace rows (some resource) none a.dataSize
          = (.named .sysRescQuotaExceeded, space) := by
        unfold checkSpace
        dsimp only
        rw [hspace]
        dsimp only
        rw [if_neg (by omega), if_pos ⟨by omega, rfl, hlarge⟩]
      refine ⟨_, if_pos (by rw [hcheck]; rfl), by rw [hcheck], iff_of_true ?_ (.inl rfl)⟩
      exact ⟨(hclose s₁).1.trans hnodes, (hclose s₁).2.trans havus⟩
    | @single resource space name hspace hpassed hrefuses =>
      obtain ⟨hmeta, htrace⟩ := @collCreate_trace E (Text.rstrcpy path) s₁
      rw [checkSpace_snd hspace, if_neg (Bool.eq_false_iff.mp hpassed),
        extractLoop_refuses hrefuses]
      refine ⟨_, rfl, rfl, ?_⟩
      rw [or_iff_right (Option.some_ne_none name)]
      dsimp only
      rw [(hclose _).1, (hclose _).2, hmeta, and_iff_left havus, ← hnodes, htrace, hnodes, hlog]
      rfl

end

/-! ## A collection that stays -/

namespace Sample

/-- An item that is larger than the free space. -/
def largeItem : Json :=
  .object [("name".toList, .string "f".toList), ("type".toList, .string "dataObj".toList),
    ("size".toList, .integer 100)]

/-- An index of that item. -/
def largeIndex : Json :=
  .object [("collection".toList, .string "/z/c".toList), ("size".toList, .integer 8192),
    ("items".toList, .array [largeItem])]

theorem largeIndex_valid : largeIndex.Valid := by
  refine .object (by decide) ?_
  simp only [List.mem_cons, List.not_mem_nil, or_false, forall_eq_or_imp, forall_eq]
  refine ⟨.string _, .integer _, .array (List.forall_mem_singleton.mpr ?_)⟩
  refine .object (by decide) ?_
  simp only [List.mem_cons, List.not_mem_nil, or_false, forall_eq_or_imp, forall_eq]
  exact ⟨.string _, .string _, .integer _⟩

/-- The archive of the large item. -/
def large : ℕ → HeaderResult
  | 0 => .ok (documentEntry largeIndex)
  | _ => .ok ⟨some "f".toList, false, 100, [], false⟩

/-- A resource with little free space. -/
def little : SpaceQuery := fun _ => .ok ["50".toList]

/-- A resource whose free space is below zero, and zero when it is cut to an `int`. -/
def below : SpaceQuery := fun _ => .ok ["-4294967296".toList]

/-- The archive object, and no target collection. -/
def noTarget : Session :=
  .fresh (fun p => if p = "/z/x.tar".toList then some (.obj [])
    else if p = "/z".toList then some .coll else none)

/-- With the archive open. -/
def opened : Session := noTarget.record (.objOpen "/z/x.tar".toList false none) true

/-- The archive opens, and its one item is too large, for either resource. -/
theorem large_refused : ∃ a,
    openArchive JsonText.codec .obliging large "/z/x.tar".toList noTarget = .ok (some a, opened)
      ∧ SpaceRefused little large a (some "r".toList) (some "f".toList)
      ∧ SpaceRefused below large a (some "r".toList) (some "f".toList) := by
  have hcollection : largeIndex.stringMember "collection".toList = some "/z/c".toList := rfl
  have hlittle : freeSpace little "r".toList = .num 50 := by decide +kernel
  have hbelow : freeSpace below "r".toList = .num (-4294967296) := by decide +kernel
  have hopen := openArchive_document largeIndex_valid rfl hcollection
    (show large 0 = .ok (documentEntry largeIndex) from rfl)
    (show noTarget.objOpen .obliging (Text.rstrcpy "/z/x.tar".toList) false none = (.ok (), opened)
      from rfl)
  refine ⟨_, hopen, .single hlittle ?_ ⟨_, _, rfl, rfl, by rw [if_pos rfl]; decide⟩,
    .single hbelow ?_ ⟨_, _, rfl, rfl, by rw [if_pos rfl]; decide⟩⟩
  · unfold checkSpace
    dsimp only
    rw [hlittle]
    rfl
  · unfold checkSpace
    dsimp only
    rw [hbelow]
    rfl

end Sample

/-- Refused for a little free space, and for one below zero. -/
theorem space_refusal_traceless_large :
    (∃ r, msiArchiveExtract JsonText.codec .obliging Sample.little Sample.large
        (.ofText "/z/x.tar".toList) (.ofText "/z/t".toList) (.ofText "f".toList)
        (.ofText "r".toList) Sample.noTarget = .ok r
      ∧ r.status = .named .sysRescQuotaExceeded
      ∧ ((r.session.nodes = Sample.noTarget.nodes ∧ r.session.avus = Sample.noTarget.avus)
        ↔ (MsParam.ofText "f".toList).parseMspForStr = none
          ∨ ¬ MakesTarget .obliging "/z/t".toList Sample.noTarget))
      ∧ ∃ r, msiArchiveExtract JsonText.codec .obliging Sample.below Sample.large
        (.ofText "/z/x.tar".toList) (.ofText "/z/t".toList) (.ofText "f".toList)
        (.ofText "r".toList) Sample.noTarget = .ok r
      ∧ r.status = .named .sysRescQuotaExceeded
      ∧ ((r.session.nodes = Sample.noTarget.nodes ∧ r.session.avus = Sample.noTarget.avus)
        ↔ (MsParam.ofText "f".toList).parseMspForStr = none
          ∨ ¬ MakesTarget .obliging "/z/t".toList Sample.noTarget) := by
  obtain ⟨a, hopen, hlittle, hbelow⟩ := Sample.large_refused
  exact ⟨(space_refusal_traceless_iff rfl rfl hopen).2 hlittle,
    (space_refusal_traceless_iff rfl rfl hopen).2 hbelow⟩

/-- **The target collection stays behind**: the item is refused, and the collection has been
made. -/
theorem space_refusal_leaves_target : ∃ a r,
    openArchive JsonText.codec .obliging Sample.large "/z/x.tar".toList Sample.noTarget
        = .ok (some a, Sample.opened)
      ∧ SpaceRefused Sample.little Sample.large a (some "r".toList) (some "f".toList)
      ∧ msiArchiveExtract JsonText.codec .obliging Sample.little Sample.large
        (.ofText "/z/x.tar".toList) (.ofText "/z/t".toList) (.ofText "f".toList)
        (.ofText "r".toList) Sample.noTarget = .ok r
      ∧ r.status = .named .sysRescQuotaExceeded
      ∧ Sample.noTarget.nodes "/z/t".toList = none
      ∧ r.session.nodes "/z/t".toList = some .coll := by
  obtain ⟨a, hopen, hrefused, -⟩ := Sample.large_refused
  have hrun : msiArchiveExtract JsonText.codec .obliging Sample.little Sample.large
      (.ofText "/z/x.tar".toList) (.ofText "/z/t".toList) (.ofText "f".toList)
      (.ofText "r".toList) Sample.noTarget = _ := msiArchiveExtract_eq rfl rfl hopen
  rw [show (MsParam.ofText "r".toList).parseMspForStr = some "r".toList from rfl,
    show (MsParam.ofText "f".toList).parseMspForStr = some "f".toList from rfl] at hrun
  dsimp only at hrun
  cases id hrefused with
  | single hspace hpassed hrefuses =>
    rw [checkSpace_snd hspace, if_neg (Bool.eq_false_iff.mp hpassed),
      extractLoop_refuses hrefuses] at hrun
    refine ⟨a, _, hopen, hrefused, hrun, rfl, rfl, ?_⟩
    dsimp only
    rw [(Session.objClose_frame _ _ _).1]
    rfl
