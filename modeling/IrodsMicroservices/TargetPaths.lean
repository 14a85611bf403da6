import IrodsMicroservices.RequestLog
import IrodsMicroservices.LexicalPath

/-!
# Where an extraction writes

The names of an archive come from its index, which whoever has made the archive has
written. An extraction joins them to its target and asks iRODS for what is at that path.
There is no check of the names on the way, and none that a path fits its buffer.

An extraction stays in its target all the same where the names and the target give it no
cause to leave (`extraction_stays_inside`): each name, taken for itself, goes down only
(`Descends`), and the paths fit. Both are needed (`extraction_escapes`): a name may start
with a dot-dot, and a path that is cut off may end in one.
-/

namespace LexicalPath

/-- **The path is the target or lies below it**, once its dots are resolved. -/
def Inside (target p : Text) : Prop := normalSegments target <+: normalSegments p

/-- **A name that goes down only**: each dot-dot in it cancels a name before it. -/
def Descends (name : Text) : Prop := "..".toList ∉ stack false (pieces name)

instance (target p : Text) : Decidable (Inside target p) :=
  inferInstanceAs (Decidable (_ <+: _))

instance (name : Text) : Decidable (Descends name) := inferInstanceAs (Decidable (_ ∉ _))

example : Descends "a/../b/./c".toList ∧ ¬ Descends "a/../../b".toList := by decide

/-- A dot-dot that nothing has cancelled stays. -/
theorem dotdot_mem_push {st : List Text} (h : "..".toList ∈ st) (x : Text) :
    "..".toList ∈ push false st x := by
  unfold push
  split
  · exact h
  · split
    · cases st with
      | nil => exact absurd h List.not_mem_nil
      | cons top rest =>
        dsimp only
        split
        · exact List.mem_cons_of_mem _ h
        · rename_i htop
          exact (List.mem_cons.mp h).resolve_left (Ne.symm htop)
    · exact List.mem_cons_of_mem _ h

theorem dotdot_mem_stack_append {ps : List Text} (h : "..".toList ∈ stack false ps)
    (qs : List Text) : "..".toList ∈ stack false (ps ++ qs) := by
  induction qs using List.reverseRecOn with
  | nil => rwa [List.append_nil]
  | append_singleton qs x ih =>
    rw [← List.append_assoc, stack_concat]
    exact dotdot_mem_push ih x

/-- **Pieces that go down only leave the stack below them alone.** The induction is from
the end of the pieces: what is left of the first ones is without dot-dots too, so that a
dot-dot that follows finds a name of theirs to cancel. -/
theorem foldl_push_of_descends (rooted : Bool) {qs : List Text}
    (h : "..".toList ∉ stack false qs) (st : List Text) :
    qs.foldl (push rooted) st = stack false qs ++ st := by
  induction qs using List.reverseRecOn with
  | nil => rfl
  | append_singleton qs x ih =>
    have hqs : "..".toList ∉ stack false qs := fun hmem => h (dotdot_mem_stack_append hmem [x])
    rw [List.foldl_append, ih hqs, stack_concat]
    show push rooted (stack false qs ++ st) x = _
    by_cases hnoise : IsNoise x
    · rw [push_noise hnoise, push_noise hnoise]
    · by_cases hdot : x = "..".toList
      · subst hdot
        cases hstack : stack false qs with
        | nil =>
          rw [stack_concat, hstack, push_dotdot] at h
          exact absurd (List.mem_singleton_self _) h
        | cons top rest =>
          have htop : top ≠ "..".toList := by
            rintro rfl
            exact hqs (hstack ▸ List.mem_cons_self)
          rw [List.cons_append, push_dotdot, push_dotdot]
          dsimp only
          rw [if_neg htop, if_neg htop]
      · unfold push
        rw [if_neg hnoise, if_neg hdot, if_neg hnoise, if_neg hdot]
        rfl

theorem Inside.refl (target : Text) : Inside target target := List.prefix_rfl

/-- **A name that goes down only stays below any target.** -/
theorem inside_join {name : Text} (h : Descends name) (target : Text) :
    Inside target (Text.join target name) := by
  cases target with
  | nil => exact List.nil_prefix
  | cons c target =>
    have habsolute : isAbsolute (Text.join (c :: target) name) = isAbsolute (c :: target) := rfl
    unfold Inside normalSegments
    rw [habsolute, Text.join, pieces_append, stack_append, foldl_push_of_descends _ h,
      List.reverse_append]
    exact List.prefix_append _ _

end LexicalPath

open LexicalPath Session

/-- What a name that goes down only is in goes down only. -/
theorem descends_parentName {name : Text} (h : Descends name) (hslash : '/' ∈ name) :
    Descends (parentName name) := by
  obtain ⟨last, hlast, -⟩ := join_parentName hslash
  intro hdot
  refine h ?_
  rw [hlast, Text.join, pieces_append]
  exact dotdot_mem_stack_append hdot _

/-- **The places of an item are below the target**, where its name goes down only and its
path fits. -/
theorem itemPlace_inside {path p : Text} {items : List Json}
    (hnames : ∀ item ∈ items, ∀ name, item.stringMember "name".toList = some name →
      Descends name ∧ (Text.join path name).length < Text.maxNameLen)
    (h : ItemPlace path items p) : Inside path p := by
  obtain ⟨item, hitem, name, hname, hp⟩ := h
  obtain ⟨hdescends, hfits⟩ := hnames item hitem name hname
  rcases hp with rfl | rfl | ⟨hslash, rfl⟩
  · rw [Text.rstrcpy_of_fits hfits]
    exact inside_join hdescends path
  · exact inside_join hdescends path
  · obtain ⟨last, hlast, -⟩ := join_parentName hslash
    rw [Text.rstrcpy_of_fits]
    · exact inside_join (descends_parentName hdescends hslash) path
    · have hlen := congrArg List.length hlast
      rw [Text.length_join] at hlen hfits ⊢
      omega

/-! ## An archive with one collection -/

namespace Sample

/-- An index with one collection. -/
def indexOf (name : Text) : Json :=
  .object [("collection".toList, .string "/z/c".toList), ("size".toList, .integer 0),
    ("items".toList, .array [.object [("name".toList, .string name),
      ("type".toList, .string "coll".toList)]])]

theorem indexOf_valid (name : Text) : (indexOf name).Valid := by
  have hkeys : ["collection".toList, "size".toList, "items".toList].Nodup := by decide
  have hkeys' : ["name".toList, "type".toList].Nodup := by decide
  refine .object hkeys ?_
  simp only [List.mem_cons, List.not_mem_nil, or_false, forall_eq_or_imp, forall_eq]
  refine ⟨.string _, .integer _, .array (List.forall_mem_singleton.mpr ?_)⟩
  refine .object hkeys' ?_
  simp only [List.mem_cons, List.not_mem_nil, or_false, forall_eq_or_imp, forall_eq]
  exact ⟨.string _, .string _⟩

/-- An archive with one collection. -/
def oneColl (name : Text) : ℕ → HeaderResult
  | 0 => .ok (documentEntry (indexOf name))
  | 1 => .ok ⟨some name, true, 0, [], false⟩
  | _ => .eof

/-- A collection without attributes is made, and that is all. -/
theorem extractEntry_bare {E : Irods} {resource : Option Text} {e : ReadEntry} {file : Text}
    {json : Json} (htype : json.stringMember "type".toList = some "coll".toList)
    (hattributes : json.objectGet "attributes".toList = none) (s : Session) :
    extractEntry E resource file e json s = .ok (extractItem E resource e file s) := by
  have hset : ∀ t : Session, setMetadata E file json t = .ok t := by
    intro t
    unfold setMetadata
    dsimp only
    rw [htype, hattributes]
    rfl
  unfold extractEntry
  cases extractItem E resource e file s with
  | mk r t =>
    cases r with
    | ok => exact congrArg (Except.map _) (hset t)
    | error f => rfl

theorem extractItem_dir {E : Irods} {resource : Option Text} {e : ReadEntry} (he : e.isDir = true)
    (file : Text) (s : Session) :
    (extractItem E resource e file s).2 = (s.collCreate E (Text.rstrcpy file) false).2 := by
  unfold extractItem
  rw [if_pos he]
  split
  · rename_i h
    rw [h]
    split <;> rfl
  · rfl

/-- **The extraction of one collection** asks for it at the path its name is joined to. -/
theorem extract_oneColl (name : Text) {target : Text} (htarget : target ≠ "null".toList) :
    ∃ a s₁ r, openArchive JsonText.codec .obliging (oneColl name) "/z/x.tar".toList places
        = .ok (some a, s₁)
      ∧ a.items = [.object [("name".toList, .string name), ("type".toList, .string "coll".toList)]]
      ∧ msiArchiveExtract JsonText.codec .obliging (fun _ => .ok []) (oneColl name)
        (.ofText "/z/x.tar".toList) (.ofText target) ⟨none, none⟩ ⟨none, none⟩ places = .ok r
      ∧ ∃ b, (Request.collCreate (Text.rstrcpy (Text.join target name)) false, b)
        ∈ r.session.log := by
  have hopen : openArchive JsonText.codec .obliging (oneColl name) "/z/x.tar".toList places = _ :=
    openArchive_document (indexOf_valid name) rfl rfl rfl rfl
  have hrun : msiArchiveExtract JsonText.codec .obliging (fun _ => .ok []) (oneColl name)
      (.ofText "/z/x.tar".toList) (.ofText target) ⟨none, none⟩ ⟨none, none⟩ places = _ :=
    msiArchiveExtract_eq rfl (MsParam.parseMspForStr_ofText htarget) hopen
  set a : ReadArchive := ⟨Text.rstrcpy "/z/x.tar".toList, "/z/c".toList,
    (indexOf name).objectGet "items".toList,
    BitVec.ofInt 64 ((indexOf name).integerMember "size".toList), JsonText.codec.text 2 (indexOf name)⟩
  have hheader : oneColl name 1 = .ok ⟨some name, true, 0, [], false⟩ := rfl
  have hloop : ∀ t : Session, ∃ loop, extractLoop .obliging (oneColl name) none none target 0
      a.items 1 (.num 0) t = .ok loop
      ∧ ∃ b, (Request.collCreate (Text.rstrcpy (Text.join target name)) false, b)
        ∈ loop.session.log := by
    intro t
    have hmem : ∃ b, (Request.collCreate (Text.rstrcpy (Text.join target name)) false, b)
        ∈ (extractItem .obliging none ⟨some name, true, 0, [], false⟩
          (Text.join target name) t).2.log := by
      obtain ⟨b, hb⟩ := since_collCreate .obliging (Text.rstrcpy (Text.join target name)) false t
      rw [extractItem_dir rfl, show Session.log _ = _ from hb]
      exact ⟨b, List.mem_append_right _ (List.mem_singleton_self _)⟩
    rw [show a.items = [.object [("name".toList, .string name),
      ("type".toList, .string "coll".toList)]] from rfl, extractLoop_cons hheader rfl,
      extractEntry_bare rfl rfl]
    revert hmem
    cases extractItem .obliging none ⟨some name, true, 0, [], false⟩ (Text.join target name) t with
    | mk r u =>
      intro hmem
      cases r with
      | ok => exact ⟨_, rfl, hmem⟩
      | error f => exact ⟨_, rfl, hmem⟩
  obtain ⟨loop, hloop, b, hmem⟩ := hloop
    ((places.record (.objOpen "/z/x.tar".toList false none) true).collCreate .obliging
      (Text.rstrcpy target) false).2
  obtain ⟨c, hclose⟩ := since_objClose .obliging a.path loop.session
  refine ⟨a, _, ⟨loop.status, some loop.status, loop.extracted,
    (loop.session.objClose .obliging a.path).2⟩, hopen, rfl, ?_, b, ?_⟩
  · rw [hrun]
    exact congrArg (Except.map _) hloop
  · rw [show Session.log _ = _ from hclose]
    exact List.mem_append_left _ hmem

/-- A name that fills a path below `/z` but for three bytes. -/
theorem exists_long : ∃ t : Text, t.length = 1081 ∧ IsName t := by
  have hlen : (List.replicate 1081 't').length = 1081 := List.length_replicate
  refine ⟨List.replicate 1081 't', hlen, ?_, ?_, ?_⟩
  · rintro (h | h)
    · rw [h] at hlen
      exact absurd hlen (by decide)
    · rw [h] at hlen
      exact absurd hlen (by decide)
  · intro h
    rw [h] at hlen
    exact absurd hlen (by decide)
  · exact fun h => absurd (List.eq_of_mem_replicate h) (by decide)

/-- A dot-dot below a collection of `/z` leads out of it. -/
theorem not_inside_dotdot {t : Text} (ht : IsName t) :
    ¬ Inside (Text.join "/z".toList t) (Text.join (Text.join "/z".toList t) "..".toList) := by
  have hz : stack true (pieces "/z".toList) = ["z".toList] := by decide
  have hsegs : normalSegments (Text.join "/z".toList t) = ["z".toList, t] := by
    show (stack true (pieces (Text.join "/z".toList t))).reverse = _
    rw [Text.join, pieces_append, pieces_of_name ht.2.2, stack_concat, hz, push_name ht]
    rfl
  have hsegs' : normalSegments (Text.join (Text.join "/z".toList t) "..".toList)
      = ["z".toList] := by
    show (stack true (pieces (Text.join (Text.join "/z".toList t) "..".toList))).reverse = _
    rw [Text.join, pieces_append, show pieces "..".toList = ["..".toList] by decide, stack_concat,
      Text.join, pieces_append, pieces_of_name ht.2.2, stack_concat, hz, push_name ht, push_dotdot]
    dsimp only
    rw [if_neg ht.2.1]
    rfl
  unfold Inside
  rw [hsegs, hsegs']
  exact fun h => absurd h.length_le (by simp)

end Sample

/-! ## Staying inside and getting out -/

/-- **An extraction stays in its target**, whatever the server answers and wherever it
ends, where the target fits its buffer and the names of the index go down only and fit
below it. -/
theorem extraction_stays_inside {J : Jansson} {E : Irods} {rows : SpaceQuery}
    {headers : ℕ → HeaderResult} {archiveIn pathIn extractIn resourceIn : MsParam} {s : Session}
    {r : Extracted}
    (hpath : ∀ path, pathIn.parseMspForStr = some path → path.length < Text.maxNameLen)
    (hnames : ∀ archive path a s₁, archiveIn.parseMspForStr = some archive →
      pathIn.parseMspForStr = some path →
      openArchive J E headers archive s = .ok (some a, s₁) →
      ∀ item ∈ a.items, ∀ name, item.stringMember "name".toList = some name →
        Descends name ∧ (Text.join path name).length < Text.maxNameLen)
    (h : msiArchiveExtract J E rows headers archiveIn pathIn extractIn resourceIn s = .ok r) :
    ∃ log, s.Since r.session log ∧ ∀ q ∈ log, ∀ p, q.1.target = some p →
      ∃ path, pathIn.parseMspForStr = some path ∧ Inside path p := by
  obtain ⟨log, hlog, htargets⟩ := extraction_targets h
  refine ⟨log, hlog, fun q hq p hp => ?_⟩
  obtain ⟨archive, path, a, s₁, harchive, hp', hopen, hplace⟩ := htargets q hq p hp
  refine ⟨path, hp', ?_⟩
  rcases hplace with rfl | hplace
  · rw [Text.rstrcpy_of_fits (hpath path hp')]
    exact .refl path
  · exact itemPlace_inside (hnames archive path a s₁ harchive hp' hopen) hplace

/-- A name with a dot-dot that goes down only. -/
theorem extraction_stays_inside_sample : ∃ r, msiArchiveExtract JsonText.codec .obliging
      (fun _ => .ok []) (Sample.oneColl "a/../b".toList) (.ofText "/z/x.tar".toList)
      (.ofText "/z/t".toList) ⟨none, none⟩ ⟨none, none⟩ Sample.places = .ok r
    ∧ ∃ log, Sample.places.Since r.session log ∧ ∀ q ∈ log, ∀ p, q.1.target = some p →
      ∃ path, (MsParam.ofText "/z/t".toList).parseMspForStr = some path ∧ Inside path p := by
  obtain ⟨a, s₁, r, hopen, hitems, hrun, -⟩ := Sample.extract_oneColl "a/../b".toList
    (show "/z/t".toList ≠ "null".toList by decide)
  refine ⟨r, hrun, extraction_stays_inside (fun path hpath => ?_) ?_ hrun⟩
  · obtain rfl := MsParam.eq_of_parseMspForStr hpath
    decide
  · intro archive path a' s' harchive hpath hopen'
    obtain rfl := MsParam.eq_of_parseMspForStr harchive
    obtain rfl := MsParam.eq_of_parseMspForStr hpath
    obtain rfl : a = a' :=
      Option.some.inj (Prod.mk.inj (Except.ok.inj (hopen.symm.trans hopen'))).1
    rw [hitems, List.forall_mem_singleton]
    intro name hname
    obtain rfl : "a/../b".toList = name := Option.some.inj hname
    exact ⟨by decide, by decide⟩

/-- **An extraction that leaves its target**: by a name that starts with a dot-dot, and,
where all names go down only, by a path that is cut off after one. -/
theorem extraction_escapes :
    (¬ ∀ (J : Jansson) (E : Irods) (rows : SpaceQuery) (headers : ℕ → HeaderResult)
      (archive path : Text) (s s₁ : Session) (a : ReadArchive) (r : Extracted),
      J.Lawful → path.length < Text.maxNameLen →
      openArchive J E headers archive s = .ok (some a, s₁) →
      (∀ item ∈ a.items, ∀ name, item.stringMember "name".toList = some name →
        (Text.join path name).length < Text.maxNameLen) →
      msiArchiveExtract J E rows headers (.ofText archive) (.ofText path) ⟨none, none⟩
        ⟨none, none⟩ s = .ok r →
      ∃ log, s.Since r.session log ∧ ∀ q ∈ log, ∀ p, q.1.target = some p → Inside path p)
    ∧ ¬ ∀ (J : Jansson) (E : Irods) (rows : SpaceQuery) (headers : ℕ → HeaderResult)
      (archive path : Text) (s s₁ : Session) (a : ReadArchive) (r : Extracted),
      J.Lawful → path.length < Text.maxNameLen →
      openArchive J E headers archive s = .ok (some a, s₁) →
      (∀ item ∈ a.items, ∀ name, item.stringMember "name".toList = some name → Descends name) →
      msiArchiveExtract J E rows headers (.ofText archive) (.ofText path) ⟨none, none⟩
        ⟨none, none⟩ s = .ok r →
      ∃ log, s.Since r.session log ∧ ∀ q ∈ log, ∀ p, q.1.target = some p → Inside path p := by
  constructor
  · intro h
    obtain ⟨a, s₁, r, hopen, hitems, hrun, b, hmem⟩ :=
      Sample.extract_oneColl "../x".toList (show "/z/t".toList ≠ "null".toList by decide)
    have hnames : ∀ item ∈ a.items, ∀ name, item.stringMember "name".toList = some name →
        (Text.join "/z/t".toList name).length < Text.maxNameLen := by
      rw [hitems, List.forall_mem_singleton]
      intro name hname
      obtain rfl : "../x".toList = name := Option.some.inj hname
      decide
    obtain ⟨log, hlog, hinside⟩ := h JsonText.codec .obliging _ _ _ _ _ s₁ a r
      JsonText.codec_lawful (by decide) hopen hnames hrun
    rw [show r.session.log = log from hlog] at hmem
    exact absurd (hinside _ hmem _ rfl) (by decide)
  · intro h
    obtain ⟨t, hlen, hname⟩ := Sample.exists_long
    have hnull : Text.join "/z".toList t ≠ "null".toList :=
      fun heq => absurd (List.cons.inj heq).1 (by decide)
    have hlong : (Text.join "/z".toList t).length = 1084 := by
      rw [Text.length_join, hlen]
      rfl
    have hcut : Text.rstrcpy (Text.join (Text.join "/z".toList t) "..b".toList)
        = Text.join (Text.join "/z".toList t) "..".toList := by
      have hsplit : Text.join (Text.join "/z".toList t) "..b".toList
          = Text.join (Text.join "/z".toList t) "..".toList ++ "b".toList := by
        simp [Text.join]
      rw [hsplit]
      refine List.take_left' ?_
      rw [Text.length_join, hlong]
      rfl
    obtain ⟨a, s₁, r, hopen, hitems, hrun, b, hmem⟩ := Sample.extract_oneColl "..b".toList hnull
    have hnames : ∀ item ∈ a.items, ∀ name, item.stringMember "name".toList = some name →
        Descends name := by
      rw [hitems, List.forall_mem_singleton]
      intro name hname
      obtain rfl : "..b".toList = name := Option.some.inj hname
      decide
    obtain ⟨log, hlog, hinside⟩ := h JsonText.codec .obliging _ _ _ _ _ s₁ a r
      JsonText.codec_lawful (by rw [hlong]; decide) hopen hnames hrun
    rw [show r.session.log = log from hlog, hcut] at hmem
    -- what is left of the path that has been cut off is the collection above the target
    exact Sample.not_inside_dotdot hname (hinside _ hmem _ rfl)
