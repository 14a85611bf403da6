import IrodsMicroservices.ModifyTimes

/-!
# Item by item

A rule that does not want to extract an archive in one call may extract its items one by
one, by their names. Where the archive can be extracted whole, the items can be extracted
in any order, and any of them again: an item finds the collections above it made, its data
are written from the start, and its attributes are edited from the first one on.

Once every name of the index has been asked for, what is there is what a single extraction
of all of it leaves (`archives_extract_items`). The state on the way is described against
the ends of that extraction: every place is as at its start or as at its end, and those of
the items that have been asked for are as at its end (`Filled`).
-/

open Session

/-- **On the way from the start of an extraction to its end**: some items are there. -/
structure Filled (target : Text) (done : Text → Prop) (start finish w : Session) : Prop where
  nodes : ∀ q, w.nodes q = start.nodes q ∨ w.nodes q = finish.nodes q
  filled : ∀ name, done name →
    w.nodes (Text.join target name) = finish.nodes (Text.join target name)
    ∧ w.avus (Text.join target name) = finish.avus (Text.join target name)
  avus : ∀ q, (∀ name, done name → q ≠ Text.join target name) → w.avus q = start.avus q

section Passes

variable {E : Irods} {headers : ℕ → HeaderResult} {resource : Option Text} {target : Text}

/-- Items that are passed change their places only. -/
theorem Passes.confined {items : List Json} {n : ℕ} {s u : Session}
    (h : Passes E headers resource target items n s u) (hfits : PathsFit target items) :
    s.Confined (PlaceOf target items) u := by
  induction h with
  | nil n s => exact Confined.refl _ _
  | @cons json items n e name s t u hheader hname hentry hrest ih =>
    have hrest' := ih (fun item hitem => hfits item (List.mem_cons_of_mem _ hitem))
    have hfile := hfits json List.mem_cons_self name hname
    have hhere : s.Confined (PlaceOf target (json :: items)) t := by
      intro q hq
      refine extractEntry_frame hfile hentry (fun heq => hq ?_)
      exact ⟨json, List.mem_cons_self, name, hname, heq⟩
    refine hhere.trans (hrest'.mono ?_)
    rintro q ⟨item, hitem, hplace⟩
    exact ⟨item, List.mem_cons_of_mem _ hitem, hplace⟩

/-- **Items that are passed have their attributes edited**, each at its place. -/
theorem Passes.edited (hE : ∀ n, E.deny n = none) {items : List Json} {n : ℕ} {s u : Session}
    (h : Passes E headers resource target items n s u) (hdistinct : NamesDistinct items)
    (hfits : PathsFit target items) :
    ∀ item ∈ items, ∀ name, item.stringMember "name".toList = some name →
      u.avus (Text.join target name)
        = KeyedEdit.applyAll Avu.name (itemEdits item) (s.avus (Text.join target name)) := by
  induction h with
  | nil n s => exact List.forall_mem_nil _
  | @cons json items n e name s t u hheader hname hentry hrest ih =>
    have hfits' : PathsFit target items :=
      fun item hitem => hfits item (List.mem_cons_of_mem _ hitem)
    obtain ⟨-, hedited⟩ := edited_extractEntry hentry
    obtain ⟨part, -, havus, hpart⟩ := hedited rfl
    rw [hpart hE] at havus
    have hapart : ¬ PlaceOf target items (Text.join target name) := not_placeOf_cons hdistinct hname
    refine List.forall_mem_cons.mpr ⟨fun name' hname' => ?_, fun item hitem name' hname' => ?_⟩
    · -- what comes after the item is about other places
      obtain rfl := Option.some.inj (hname.symm.trans hname')
      rw [(hrest.confined hfits' _ hapart).2, havus, Function.update_self]
    · have hne : Text.join target name' ≠ Text.join target name :=
        fun heq => hapart ⟨item, hitem, name', hname', heq.symm⟩
      rw [ih (List.nodup_cons.mp hdistinct).2 hfits' item hitem name' hname', havus,
        Function.update_of_ne hne]

/-- Making a collection with those above it changes no attributes. -/
theorem avus_makeParent (file : Text) (s : Session) :
    (makeParent E target file s).avus = s.avus := by
  have hput : ∀ (paths : List Text) (s : Session),
      (paths.foldl (fun s p => s.put p .coll) s).avus = s.avus := by
    intro paths
    induction paths with
    | nil => exact fun _ => rfl
    | cons p paths ih => exact fun s => ih (s.put p .coll)
  unfold makeParent
  split
  · refine avus_request (fun a t h => ?_)
    split at h
    · cases h
    · cases h
    · rw [if_pos rfl] at h
      split at h
      · cases h
      · obtain ⟨-, rfl⟩ := Prod.mk.inj (Except.ok.inj h)
        exact hput _ _
  · rfl

/-- **What one item is in an extraction of all of them**: its entry, the kind of what was
in its place, what is there at the end, and the collections above it. -/
structure Passed (headers : ℕ → HeaderResult) (target : Text) (k : ℕ) (item : Json)
    (name : Text) (start finish : Session) (e : ReadEntry) : Prop where
  header : headers (1 + k) = .ok e
  blocks : [] ∉ e.blocks
  fails : e.isDir = false → e.fails = false
  metadata : ∀ (E : Irods) (s : Session),
    ∃ s', setMetadata E (Text.join target name) item s = .ok s'
  before : start.nodes (Text.join target name) = none
    ∨ e.KindOf (start.nodes (Text.join target name))
  node : finish.nodes (Text.join target name) = some e.node
  avus : finish.avus (Text.join target name)
    = KeyedEdit.applyAll Avu.name (itemEdits item) (start.avus (Text.join target name))
  above : ∀ q ∈ ancestors (Text.join target name), finish.nodes q = some .coll
  free : ∀ q ∈ ancestors (Text.join target name), ∀ data, start.nodes q ≠ some (.obj data)

/-- A place of an item of a name of its own is none of the others. -/
theorem not_placeOf_split {pre post : List Json} {item : Json} {name : Text}
    (hdistinct : NamesDistinct (pre ++ item :: post))
    (hname : item.stringMember "name".toList = some name) :
    ¬ PlaceOf target pre (Text.join target name)
      ∧ ¬ PlaceOf target post (Text.join target name) := by
  unfold NamesDistinct at hdistinct
  rw [List.map_append, List.map_cons, List.nodup_middle, List.nodup_cons, ← List.map_append]
    at hdistinct
  have hother : ∀ other ∈ pre ++ post, other.stringMember "name".toList ≠ some name :=
    fun other hother heq => hdistinct.1 (List.mem_map.mpr ⟨other, hother, heq.trans hname.symm⟩)
  constructor
  · rintro ⟨other, hmem, name', hname', hjoin⟩
    obtain rfl := Text.join_right_injective target hjoin
    exact hother other (List.mem_append_left _ hmem) hname'
  · rintro ⟨other, hmem, name', hname', hjoin⟩
    obtain rfl := Text.join_right_injective target hjoin
    exact hother other (List.mem_append_right _ hmem) hname'

theorem passed_of_passes (hE : E.Serves) {pre post : List Json} {item : Json} {name : Text}
    (hheaders : ∀ k < (pre ++ item :: post).length,
      ∃ e p, headers (1 + k) = .ok e ∧ Libarchive.Restores p e)
    (hdistinct : NamesDistinct (pre ++ item :: post))
    (hfits : PathsFit target (pre ++ item :: post))
    (hname : item.stringMember "name".toList = some name) {start finish : Session}
    (htree : Tree start.nodes)
    (hpass : Passes E headers resource target (pre ++ item :: post) 1 start finish) :
    ∃ e, Passed headers target pre.length item name start finish e := by
  have hitem : item ∈ pre ++ item :: post := List.mem_append_right _ List.mem_cons_self
  have hfile := hfits item hitem name hname
  obtain ⟨hpre, hpost⟩ := not_placeOf_split hdistinct hname
  have hlays := hpass.lays hE.honest hheaders hfits
  obtain ⟨t, hfirst, hrest⟩ := hpass.split
  cases hrest with
  | @cons _ _ _ e name' _ t' _ hheader hname' hentry hlast =>
    obtain rfl : name = name' := Option.some.inj (hname.symm.trans hname')
    obtain ⟨e', p, hheader', he⟩ := hheaders pre.length (by
      rw [List.length_append, List.length_cons]
      omega)
    obtain rfl := HeaderResult.ok.inj (hheader.symm.trans hheader')
    have hblocks : [] ∉ e.blocks := he.2.2.2.1
    -- what is at the place before the item and after it
    obtain ⟨hnode₁, -⟩ := (hfirst.confined (fun i hi => hfits i (List.mem_append_left _ hi)))
      (Text.join target name) hpre
    obtain ⟨hnode₂, -⟩ := (hlast.confined (fun i hi =>
      hfits i (List.mem_append_right _ (List.mem_cons_of_mem _ hi)))) (Text.join target name) hpost
    obtain ⟨t₀, hextract, hset⟩ := extractEntry_ok_iff.mp hentry
    obtain ⟨hkind, hfails⟩ := fits_of_extractItem hE.honest hblocks hfile hextract
    have hnode := (extractEntry_part hE.honest hblocks hfile hentry).1 rfl
    have hthere : finish.nodes (Text.join target name) = some e.node := hnode₂.trans hnode
    have habove : ∀ q ∈ ancestors (Text.join target name), finish.nodes q = some .coll :=
      hlays.tree htree _ (by rw [hthere]; exact Option.some_ne_none _)
    refine ⟨e, hheader, hblocks, hfails, fun F s => ?_, ?_, hthere, ?_, habove,
      fun q hq data hdata => ?_⟩
    · exact setMetadata_ok_iff.mpr (setMetadata_ok_iff.mp ⟨t', hset⟩)
    · rw [← hnode₁]
      exact hkind.imp And.left id
    · exact hpass.edited (fun n => (hE n).1) hdistinct hfits item hitem name hname
    · obtain ⟨data', hdata'⟩ := hlays.objects q data hdata
      rw [habove q hq] at hdata'
      cases hdata'

/-- **An item extracted alone is there as at the end**, and nothing else has moved but on. -/
theorem Filled.extract (hE : E.Serves) (htarget : target ≠ []) (resource : Option Text)
    {done : Text → Prop} {start finish w : Session} (hw : Filled target done start finish w)
    (hroot : start.nodes target = finish.nodes target) {k : ℕ} {item : Json} {name : Text}
    {e : ReadEntry} (hfile : (Text.join target name).length < Text.maxNameLen)
    (h : Passed headers target k item name start finish e) :
    ∃ w', extractEntry E resource (Text.join target name) e item (makeParent E target name w)
        = .ok (.ok (), w')
      ∧ Filled target (fun m => done m ∨ m = name) start finish w' := by
  have hfree : ∀ q ∈ ancestors (Text.join target name), ∀ data, w.nodes q ≠ some (.obj data) := by
    intro q hq data hdata
    rcases hw.nodes q with hq' | hq'
    · exact h.free q hq data (hq'.symm.trans hdata)
    · have hcoll := hq'.symm.trans hdata
      rw [h.above q hq] at hcoll
      cases hcoll
  have hcoll : w.nodes target = some .coll := by
    have hend := h.above target (mem_ancestors_join htarget name)
    rcases hw.nodes target with hq | hq
    · rw [hq, hroot, hend]
    · rw [hq, hend]
  obtain ⟨hparent, hmade, hframe, -⟩ := makeParent_above hE htarget hfile hfree hcoll
  set v := makeParent E target name w with hv
  have havus : v.avus = w.avus := avus_makeParent name w
  -- what has been made is what is there at the end
  have hmoved : ∀ q, v.nodes q = w.nodes q ∨ v.nodes q = finish.nodes q := by
    intro q
    by_cases hq : v.nodes q = w.nodes q
    · exact .inl hq
    · obtain ⟨hq', hmem⟩ := hframe q hq
      exact .inr (hq'.trans (h.above q hmem).symm)
  have hhere : v.nodes (Text.join target name) = w.nodes (Text.join target name) := by
    by_contra hne
    exact ne_of_mem_ancestors (hframe _ hne).2 rfl
  have hkind : e.KindOf (some e.node) := by
    unfold ReadEntry.KindOf ReadEntry.node
    cases e.isDir with
    | true => rfl
    | false => exact ⟨_, rfl⟩
  have hplace : Fits e (Text.join target name) v.nodes := by
    unfold Fits
    rw [hhere]
    rcases hw.nodes (Text.join target name) with hq | hq
    · rw [hq]
      exact h.before.imp (fun hnone => ⟨hnone, hmade⟩) id
    · rw [hq, h.node]
      exact .inr hkind
  obtain ⟨t, hitem⟩ := extractItem_succeeds hE resource hfile hplace h.fails
  obtain ⟨w', hset⟩ := h.metadata E t
  have hentry : extractEntry E resource (Text.join target name) e item v = .ok (.ok (), w') :=
    extractEntry_ok_iff.mpr ⟨t, hitem, hset⟩
  have hother : ∀ q, q ≠ Text.join target name → w'.nodes q = v.nodes q ∧ w'.avus q = v.avus q :=
    fun q hq => extractEntry_frame hfile hentry hq
  have hnode : w'.nodes (Text.join target name) = finish.nodes (Text.join target name) := by
    rw [(extractEntry_part hE.honest h.blocks hfile hentry).1 rfl, h.node]
  obtain ⟨-, hedited⟩ := edited_extractEntry hentry
  obtain ⟨part, -, hupdate, hpart⟩ := hedited rfl
  rw [hpart (fun n => (hE n).1)] at hupdate
  refine ⟨w', hentry, fun q => ?_, fun m hm => ?_, fun q hq => ?_⟩
  · by_cases hq : q = Text.join target name
    · rw [hq]
      exact .inr hnode
    · rw [(hother q hq).1]
      rcases hmoved q with hmove | hmove
      · rw [hmove]
        exact hw.nodes q
      · exact .inr hmove
  · by_cases hsame : m = name
    · rw [hsame]
      refine ⟨hnode, ?_⟩
      rw [hupdate, Function.update_self, havus, h.avus]
      by_cases hdone : done name
      · rw [(hw.filled name hdone).2, h.avus]
        exact KeyedEdit.applyAll_applyAll (fun _ he => he) _
      · rw [hw.avus _ (fun m' hm' heq => ?_)]
        obtain rfl := Text.join_right_injective target heq
        exact hdone hm'
    · have hne : Text.join target m ≠ Text.join target name :=
        fun heq => hsame (Text.join_right_injective target heq)
      obtain ⟨hnodes, hattrs⟩ := hw.filled m (hm.resolve_right hsame)
      rw [(hother _ hne).1, (hother _ hne).2, havus]
      refine ⟨?_, hattrs⟩
      rcases hmoved (Text.join target m) with hmove | hmove
      · exact hmove.trans hnodes
      · exact hmove
  · rw [(hother q (hq name (.inr rfl))).2, havus]
    exact hw.avus q (fun m hm => hq m (.inl hm))

end Passes

/-! ## The service -/

/-- **A rule that extracts items one after the other**, by their names, with the status of
each call. -/
def extractEach (J : Jansson) (E : Irods) (rows : SpaceQuery) (headers : ℕ → HeaderResult)
    (archiveIn pathIn resourceIn : MsParam) :
    List Text → Session → Except Fault (List Status × Session)
  | [], s => .ok ([], s)
  | name :: names, s =>
    match msiArchiveExtract J E rows headers archiveIn pathIn (.ofText name) resourceIn s with
    | .error fault => .error fault
    | .ok r =>
      (extractEach J E rows headers archiveIn pathIn resourceIn names r.session).map
        (fun x => (r.status :: x.1, x.2))

/-- A name in the index. -/
def IsIndexed (items : List Json) (name : Text) : Prop :=
  ∃ item ∈ items, item.stringMember "name".toList = some name

section Names

variable {J : Jansson} {E : Irods} {rows : SpaceQuery} {headers : ℕ → HeaderResult}
  {resourceIn : MsParam} {archive target : Text} {a : ReadArchive} {s s₁ start finish w : Session}
  {done : Text → Prop}

theorem Filled.of_eq {w' : Session} (h : Filled target done start finish w)
    (hnodes : w'.nodes = w.nodes) (havus : w'.avus = w.avus) :
    Filled target done start finish w' where
  nodes q := by rw [hnodes]; exact h.nodes q
  filled name hname := by rw [hnodes, havus]; exact h.filled name hname
  avus q hq := by rw [havus]; exact h.avus q hq

theorem Filled.congr {done' : Text → Prop} (h : Filled target done start finish w)
    (hdone : ∀ name, done' name ↔ done name) : Filled target done' start finish w where
  nodes := h.nodes
  filled name hname := h.filled name ((hdone name).mp hname)
  avus q hq := h.avus q (fun name hname => hq name ((hdone name).mpr hname))

/-- Making a collection on a server that serves depends on what is there only. -/
theorem nodes_collCreate_serves (hE : E.Serves) {t : Session} (hnodes : t.nodes = w.nodes) :
    (t.collCreate E target false).2.nodes = (w.collCreate E target false).2.nodes := by
  funext q
  by_cases hq : q = target
  · rw [hq, collCreate_serves hE, collCreate_serves hE, hnodes]
  · rw [collCreate_frame hE.honest hq, collCreate_frame hE.honest hq, hnodes]

/-- **The target is made once.** -/
theorem Filled.made (hE : E.Serves) (h : Filled target done start finish w)
    (hroot : start.nodes target = finish.nodes target)
    (hparent : start.nodes (Text.parent target) = finish.nodes (Text.parent target))
    (hmade : ¬ (start.nodes target = none ∧ start.nodes (Text.parent target) = some .coll)) :
    Filled target done start finish (w.collCreate E target false).2 := by
  have hsame : ∀ q, start.nodes q = finish.nodes q → w.nodes q = start.nodes q := by
    intro q hq
    rcases h.nodes q with hw | hw
    · exact hw
    · exact hw.trans hq.symm
  refine h.of_eq (funext (fun q => ?_)) (avus_collCreate target w)
  by_cases hq : q = target
  · rw [hq, collCreate_serves hE, if_neg]
    rw [hsame target hroot, hsame _ hparent]
    exact hmade
  · exact collCreate_frame hE.honest hq w

/-- **One call for an item**, of a name of the index or not. -/
theorem extract_name (hE : E.Serves) (htarget : target ≠ [])
    (hunset : ∀ resource, resourceIn.parseMspForStr = some resource →
      freeSpace rows resource = .num 0)
    (hnamed : archive ≠ "null".toList ∧ target ≠ "null".toList)
    (hopen : openArchive J E headers archive s = .ok (some a, s₁))
    (hheaders : ∀ k < a.items.length, ∃ e p, headers (1 + k) = .ok e ∧ Libarchive.Restores p e)
    (hdistinct : NamesDistinct a.items)
    (hfits : target.length < Text.maxNameLen ∧ PathsFit target a.items)
    (htree : Tree start.nodes)
    (hpass : Passes E headers resourceIn.parseMspForStr target a.items 1 start finish)
    {name : Text} (hnull : name ≠ "null".toList)
    (hdata : ∃ data, w.nodes (Text.rstrcpy archive) = some (.obj data))
    (hw : Filled target done start finish (w.collCreate E target false).2) :
    ∃ r, msiArchiveExtract J E rows headers (.ofText archive) (.ofText target) (.ofText name)
        resourceIn w = .ok r
      ∧ r.status = .num 0
      ∧ Filled target (fun m => done m ∨ m = name ∧ IsIndexed a.items m) start finish
        r.session := by
  -- the archive opens, and the target is made
  obtain ⟨t, hobj⟩ : ∃ t, w.objOpen E (Text.rstrcpy archive) false none = (.ok (), t) := by
    obtain ⟨data, hdata⟩ := hdata
    unfold objOpen
    rw [hdata]
    dsimp only
    rw [request_of_willing (fun n => (hE n).1)]
    exact ⟨_, rfl⟩
  have hopen' := openArchive_again hopen hobj
  obtain ⟨hnodes, havus⟩ := openArchive_frame hopen'
  have hstart : Filled target done start finish (t.collCreate E target false).2 :=
    hw.of_eq (nodes_collCreate_serves hE hnodes)
      ((avus_collCreate target t).trans (havus.trans (avus_collCreate target w).symm))
  have hroot : start.nodes target = finish.nodes target := by
    refine ((hpass.confined hfits.2) target ?_).1.symm
    rintro ⟨item, -, m, -, hjoin⟩
    exact join_ne target m hjoin.symm
  have hrun : ∀ loop, extractLoop E headers resourceIn.parseMspForStr (some name) target 0 a.items 1
      (.num 0) (t.collCreate E target false).2 = .ok loop →
      msiArchiveExtract J E rows headers (.ofText archive) (.ofText target) (.ofText name)
        resourceIn w
        = .ok ⟨loop.status, some loop.status, loop.extracted,
          (loop.session.objClose E a.path).2⟩ := by
    intro loop hloop
    rw [msiArchiveExtract_eq (MsParam.parseMspForStr_ofText hnamed.1)
      (MsParam.parseMspForStr_ofText hnamed.2) hopen']
    dsimp only
    rw [MsParam.parseMspForStr_ofText hnull, checkSpace_unset hunset,
      Text.rstrcpy_of_fits hfits.1]
    exact congrArg (Except.map _) hloop
  have hclosed : ∀ {v : Session} {P : Text → Prop}, Filled target P start finish v →
      Filled target P start finish (v.objClose E a.path).2 :=
    fun h => h.of_eq (objClose_frame _ E a.path).1 (objClose_frame _ E a.path).2
  have hread : ∀ k < a.items.length, ∃ e, headers (1 + k) = .ok e := fun k hk => by
    obtain ⟨e, -, he, -⟩ := hheaders k hk
    exact ⟨e, he⟩
  by_cases hindexed : IsIndexed a.items name
  · obtain ⟨item, hitem, hname⟩ := id hindexed
    obtain ⟨pre, post, hsplit⟩ := List.append_of_mem hitem
    have hfile := hfits.2 item hitem name hname
    rw [hsplit] at hheaders hdistinct hpass hread
    obtain ⟨e, hpassed⟩ :=
      passed_of_passes hE hheaders hdistinct (hsplit ▸ hfits.2) hname htree hpass
    obtain ⟨w', hentry, hfilled⟩ :=
      hstart.extract hE htarget resourceIn.parseMspForStr hroot hfile hpassed
    have hapart : ¬ PlaceOf target pre (Text.join target name)
        ∧ ¬ PlaceOf target post (Text.join target name) := not_placeOf_split hdistinct hname
    have hpre : ∀ other ∈ pre, ∃ m, other.stringMember "name".toList = some m ∧ m ≠ name := by
      intro other hother
      obtain ⟨m, hm⟩ := hpass.named other (List.mem_append_left _ hother)
      refine ⟨m, hm, ?_⟩
      rintro rfl
      exact hapart.1 ⟨other, hother, m, hm, rfl⟩
    have hloop : extractLoop E headers resourceIn.parseMspForStr (some name) target 0 a.items 1
        (.num 0) (t.collCreate E target false).2 = .ok ⟨.num 0, [item], w'⟩ := by
      rw [hsplit, extractLoop_skip (fun k hk => hread k (by
        rw [List.length_append]
        omega)) hpre]
      exact extractLoop_single hpassed.header hname post _ hentry
    refine ⟨_, hrun _ hloop, rfl, hclosed (hfilled.congr (fun m => ?_))⟩
    refine or_congr_right ⟨And.left, fun h => ⟨h, h ▸ hindexed⟩⟩
  · have hloop : extractLoop E headers resourceIn.parseMspForStr (some name) target 0 a.items 1
        (.num 0) (t.collCreate E target false).2
        = .ok ⟨.num 0, [], (t.collCreate E target false).2⟩ := by
      rw [← List.append_nil a.items]
      refine extractLoop_skip hread (fun other hother => ?_)
      obtain ⟨m, hm⟩ := hpass.named other hother
      refine ⟨m, hm, ?_⟩
      rintro rfl
      exact hindexed ⟨other, hother, hm⟩
    refine ⟨_, hrun _ hloop, rfl, hclosed (hstart.congr (fun m => ?_))⟩
    refine or_iff_left ?_
    rintro ⟨rfl, hm⟩
    exact hindexed hm

/-- **A run of such calls**: all of them return 0, and the items asked for are there. -/
theorem extract_names (hE : E.Serves) (htarget : target ≠ [])
    (hunset : ∀ resource, resourceIn.parseMspForStr = some resource →
      freeSpace rows resource = .num 0)
    (hnamed : archive ≠ "null".toList ∧ target ≠ "null".toList)
    (hopen : openArchive J E headers archive s = .ok (some a, s₁))
    (hheaders : ∀ k < a.items.length, ∃ e p, headers (1 + k) = .ok e ∧ Libarchive.Restores p e)
    (hdistinct : NamesDistinct a.items)
    (hfits : target.length < Text.maxNameLen ∧ PathsFit target a.items)
    (htree : Tree start.nodes)
    (hpass : Passes E headers resourceIn.parseMspForStr target a.items 1 start finish)
    (hmade : ¬ (start.nodes target = none ∧ start.nodes (Text.parent target) = some .coll))
    (hdata : ∀ (P : Text → Prop) (v : Session), Filled target P start finish v →
      ∃ data, v.nodes (Text.rstrcpy archive) = some (.obj data)) {names : List Text} :
    ∀ {done : Text → Prop} {w : Session}, (∀ name ∈ names, name ≠ "null".toList) →
      Filled target done start finish w →
      ∃ statuses w',
        extractEach J E rows headers (.ofText archive) (.ofText target) resourceIn names
          w = .ok (statuses, w')
        ∧ (∀ x ∈ statuses, x = .num 0)
        ∧ Filled target (fun m => done m ∨ m ∈ names ∧ IsIndexed a.items m) start finish w' := by
  induction names with
  | nil =>
    intro done w _ hw
    exact ⟨[], w, rfl, List.forall_mem_nil _, hw.congr (fun m => by simp)⟩
  | cons name names ih =>
    intro done w hnull hw
    rw [List.forall_mem_cons] at hnull
    -- what the items do not change is as at the start
    have hroot : start.nodes target = finish.nodes target := by
      refine ((hpass.confined hfits.2) target ?_).1.symm
      rintro ⟨item, -, m, -, hjoin⟩
      exact join_ne target m hjoin.symm
    have hparent : start.nodes (Text.parent target) = finish.nodes (Text.parent target) :=
      ((hpass.confined hfits.2) _ (parent_not_placeOf htarget)).1.symm
    obtain ⟨r, hr, hzero, hfilled⟩ := extract_name hE htarget hunset hnamed hopen hheaders hdistinct
      hfits htree hpass hnull.1 (hdata _ w hw) (hw.made hE hroot hparent hmade)
    obtain ⟨statuses, w', hrest, hstatuses, hfilled'⟩ := ih hnull.2 hfilled
    refine ⟨r.status :: statuses, w', ?_, List.forall_mem_cons.mpr ⟨hzero, hstatuses⟩,
      hfilled'.congr (fun m => ?_)⟩
    · rw [extractEach, hr]
      dsimp only
      rw [hrest]
      rfl
    · rw [List.mem_cons, or_and_right, or_assoc]

end Names

section Run

variable {L : Libarchive} {J : Jansson} {known : Archives J} {s s₀ : Session} {archive : Text}
  {m : Snapshot J archive} {data : Bytes}

/-- **Item by item.** Where an archive can be extracted whole, a rule that asks for its
items one by one, in any order, for some of them again and for names that it does not have
too, gets 0 for every call; and once it has asked for every name of the index, the same is
there as after the extraction of all of it. -/
theorem archives_extract_items (hL : L.ReadsBack) (hJ : J.Lawful)
    (hrun : Reaches L ((fun _ => none : Archives J), s₀) (known, s))
    (hknown : known archive = some m) (hdata : s.nodes archive = some (.obj data)) {E : Irods}
    (hE : E.Serves) {rows : SpaceQuery} {target : Text} {extractIn resourceIn : MsParam}
    {r : Extracted} (htree : Tree s.nodes) (htarget : target ≠ [])
    (hunset : ∀ resource, resourceIn.parseMspForStr = some resource →
      freeSpace rows resource = .num 0)
    (hfits : target.length < Text.maxNameLen
      ∧ ∀ name ∈ m.tree.paths, (Text.join target name).length < Text.maxNameLen)
    (hapart : archive ≠ target ∧ ∀ name ∈ m.tree.paths, archive ≠ Text.join target name)
    (hnamed : archive ≠ "null".toList ∧ target ≠ "null".toList)
    (hall : extractIn.parseMspForStr = none)
    (hextract : msiArchiveExtract J E rows (L.entryAt data) (.ofText archive) (.ofText target)
      extractIn resourceIn s = .ok r) (hstatus : r.status.isNeg = false) {names : List Text}
    (hnull : ∀ name ∈ names, name ≠ "null".toList) (hne : names ≠ [])
    (hcover : ∀ c ∈ m.archived, c.name ∈ names) :
    ∃ statuses s', extractEach J E rows (L.entryAt data) (.ofText archive) (.ofText target)
        resourceIn names s = .ok (statuses, s')
      ∧ (∀ x ∈ statuses, x = .num 0)
      ∧ s'.nodes = r.session.nodes ∧ s'.avus = r.session.avus := by
  obtain ⟨data', hdata', hproduced⟩ := whole_of_reaches hrun hknown
  obtain rfl := Node.obj.inj (Option.some.inj (hdata.symm.trans hdata'))
  obtain ⟨_, _, b, s₁, loop, harchive, hpath, hopen, -, hloop, rfl⟩ :=
    msiArchiveExtract_spec hextract hstatus
  obtain rfl := MsParam.eq_of_parseMspForStr harchive
  obtain rfl := MsParam.eq_of_parseMspForStr hpath
  rw [checkSpace_unset hunset, hall, Text.rstrcpy_of_fits hfits.1] at hloop
  obtain ⟨hpass, hnames⟩ := Snapshot.passed hL hJ hproduced hopen hloop hstatus
  obtain ⟨hheaders, -⟩ := hproduced.passed hL hJ hopen hpass
  obtain ⟨hdistinct, hitems⟩ := Snapshot.items_fit hnames hfits.2
  obtain ⟨hnodes₁, havus₁⟩ := openArchive_frame hopen
  set start := (s₁.collCreate E target false).2 with hstart
  have hnodes : start.nodes = (s.collCreate E target false).2.nodes :=
    nodes_collCreate_serves hE hnodes₁
  have havus : start.avus = s.avus := (avus_collCreate target s₁).trans havus₁
  have hbegin : ∀ q, q ≠ target → start.nodes q = s.nodes q := by
    intro q hq
    rw [hnodes, collCreate_frame hE.honest hq]
  have htree' : Tree start.nodes := by
    rw [hnodes]
    exact (collCreate_target target s).1 htree
  -- the target is made by the first call, or never
  have hmade : ¬ (start.nodes target = none ∧ start.nodes (Text.parent target) = some .coll) := by
    rintro ⟨hnone, hcoll⟩
    have hparent : Text.parent target ≠ target := fun heq => by
      rw [heq, hnone] at hcoll
      cases hcoll
    rw [hbegin _ hparent] at hcoll
    rw [hnodes, collCreate_serves hE] at hnone
    split at hnone
    · cases hnone
    · rename_i hfree
      exact hfree ⟨hnone, hcoll⟩
  -- the archive stays where it is
  have hplace : ¬ PlaceOf target b.items archive := by
    rintro ⟨item, hitem, name, hname, hjoin⟩
    obtain ⟨c, hc, rfl⟩ := (Snapshot.mem_archived_of_names hnames).mp ⟨item, hitem, hname⟩
    exact hapart.2 _ (CollTree.name_mem_paths m.source.shows m.source.oneRow hc) hjoin
  have hkept : start.nodes archive = some (.obj data) := (hbegin archive hapart.1).trans hdata
  have harch : ∀ (P : Text → Prop) (v : Session), Filled target P start loop.session v →
      ∃ data, v.nodes (Text.rstrcpy archive) = some (.obj data) := by
    intro P v hv
    rw [Text.rstrcpy_of_fits hproduced.fits]
    refine ⟨data, ?_⟩
    rcases hv.nodes archive with hq | hq
    · rw [hq, hkept]
    · rw [hq, (hpass.confined hitems archive hplace).1, hkept]
  have hfirst : Filled target (fun _ => False) start loop.session (s.collCreate E target false).2 :=
    ⟨fun q => .inl (congrFun hnodes.symm q), fun _ h => h.elim,
      fun q _ => (congrFun (avus_collCreate target s) q).trans (congrFun havus.symm q)⟩
  cases names with
  | nil => exact absurd rfl hne
  | cons name names =>
    rw [List.forall_mem_cons] at hnull
    obtain ⟨r₁, hr₁, hzero, hfilled⟩ := extract_name hE htarget hunset hnamed hopen hheaders
      hdistinct ⟨hfits.1, hitems⟩ htree' hpass hnull.1
      ⟨data, by rw [Text.rstrcpy_of_fits hproduced.fits, hdata]⟩ hfirst
    obtain ⟨statuses, s', hrest, hstatuses, hall⟩ := extract_names hE htarget hunset hnamed hopen
      hheaders hdistinct ⟨hfits.1, hitems⟩ htree' hpass hmade harch hnull.2 hfilled
    refine ⟨r₁.status :: statuses, s', ?_, List.forall_mem_cons.mpr ⟨hzero, hstatuses⟩, ?_⟩
    · rw [extractEach, hr₁]
      dsimp only
      rw [hrest]
      rfl
    -- every place of an item is as at the end, and the others have not moved at all
    have hclosed := objClose_frame loop.session E b.path
    have hdone : ∀ q, s'.nodes q = loop.session.nodes q ∧ s'.avus q = loop.session.avus q := by
      intro q
      by_cases hq : PlaceOf target b.items q
      · obtain ⟨item, hitem, n, hname, rfl⟩ := hq
        obtain ⟨c, hc, rfl⟩ := (Snapshot.mem_archived_of_names hnames).mp ⟨item, hitem, hname⟩
        refine hall.filled _ ?_
        rcases List.mem_cons.mp (hcover c hc) with heq | hmem
        · exact .inl (.inr ⟨heq, item, hitem, hname⟩)
        · exact .inr ⟨hmem, item, hitem, hname⟩
      · obtain ⟨hsame, hsame'⟩ := hpass.confined hitems q hq
        refine ⟨?_, (hall.avus q ?_).trans hsame'.symm⟩
        · rcases hall.nodes q with h | h
          · rw [h, hsame]
          · exact h
        · rintro n ((hfalse | ⟨-, item, hitem, hname⟩) | ⟨-, item, hitem, hname⟩) rfl
          · exact hfalse
          · exact hq ⟨item, hitem, n, hname, rfl⟩
          · exact hq ⟨item, hitem, n, hname, rfl⟩
    exact ⟨funext (fun q => by rw [hclosed.1, (hdone q).1]),
      funext (fun q => by rw [hclosed.2, (hdone q).2])⟩

end Run

/-- The tree extracted item by item: the object before its collection, and again after a
name that is not in the index. -/
theorem archives_extract_items_sample : ∃ (data : Bytes) (r : Extracted) (statuses : List Status)
    (s' : Session),
    msiArchiveExtract JsonText.codec .obliging (fun _ => .ok [])
        (ArchiveText.library.entryAt data) (.ofText "/z/x.tar".toList) (.ofText "/z/t".toList)
        Sample.noParam Sample.noParam (Sample.before data) = .ok r
      ∧ extractEach JsonText.codec .obliging (fun _ => .ok [])
        (ArchiveText.library.entryAt data) (.ofText "/z/x.tar".toList) (.ofText "/z/t".toList)
        Sample.noParam ["a/f".toList, "a".toList, "b".toList, "a/f".toList] (Sample.before data)
        = .ok (statuses, s')
      ∧ (∀ x ∈ statuses, x = .num 0)
      ∧ s'.nodes = r.session.nodes ∧ s'.avus = r.session.avus := by
  obtain ⟨data, known, hrun, hknown, -, -, r, -, hr, hstatus⟩ := Sample.reaches_before
  have hunset : ∀ resource, Sample.noParam.parseMspForStr = some resource →
      freeSpace (fun _ => .ok []) resource = .num 0 := fun _ h => by cases h
  have hnull : ∀ name ∈ ["a/f".toList, "a".toList, "b".toList, "a/f".toList],
      name ≠ "null".toList := by decide
  have hcover : ∀ c ∈ Sample.snapshot.archived,
      c.name ∈ ["a/f".toList, "a".toList, "b".toList, "a/f".toList] := by decide +kernel
  obtain ⟨statuses, s', hrest, hzero, hnodes, havus⟩ := archives_extract_items
    ArchiveText.library_readsBack JsonText.codec_lawful hrun hknown rfl Irods.obliging_serves
    (Sample.tree_before data) (by decide) hunset ⟨by decide, by decide⟩ ⟨by decide, by decide⟩
    (by decide) rfl hr (by rw [hstatus]; rfl) hnull (List.cons_ne_nil _ _) hcover
  exact ⟨data, r, statuses, s', hr, hrest, hzero, hnodes, havus⟩
