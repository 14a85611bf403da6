import IrodsMicroservices.ArchiveConstruct
import IrodsMicroservices.LogicalPaths
import IrodsMicroservices.RequestLog

/-!
# The objects an archive is made of

The name of an item is joined with the archived collection in two places: `addDataObj`
recognises the archive itself that way, and `construct` opens the object to read it. What
`construct` opens is a matter of the log (`construct_opens`): the data objects of the index,
in its order, all of them where it comes to its end.

With the names the walk computes, both places have to do with the item itself exactly where
the archived collection is not the root (`relative_names_iff`).
-/

open Catalog

/-! ## What is opened for reading -/

/-- The object a request opens for reading. -/
def Request.opened : Request → Option Text
  | .objOpen path false _ => some path
  | _ => none

namespace Session

/-- **The objects that have been opened for reading since**, one after the other. -/
def Opens (s s' : Session) (paths : List Text) : Prop :=
  ∃ log, s.Since s' log ∧ log.filterMap (fun q => q.1.opened) = paths

variable {E : Irods} {s t u : Session} {p q : List Text}

theorem Opens.refl (s : Session) : s.Opens s [] := ⟨[], .refl s, rfl⟩

theorem Opens.trans (h : s.Opens t p) (h' : t.Opens u q) : s.Opens u (p ++ q) := by
  obtain ⟨log, hlog, rfl⟩ := h
  obtain ⟨log', hlog', rfl⟩ := h'
  exact ⟨log ++ log', hlog.trans hlog', List.filterMap_append⟩

/-- What opens nothing comes to nothing. -/
theorem Opens.trans_nil (h : s.Opens t p) (h' : t.Opens u []) : s.Opens u p := by
  have hboth := h.trans h'
  rwa [List.append_nil] at hboth

/-- One request. -/
theorem Opens.of_since {r : Request} (h : ∃ b, s.Since t [(r, b)]) :
    s.Opens t r.opened.toList := by
  obtain ⟨b, h⟩ := h
  exact ⟨_, h, by cases hr : r.opened <;> simp [hr]⟩

end Session

section Opens

open Session WriteArchive

variable {L : Libarchive} {E : Irods} {J : Jansson}

/-- Handing over a buffer opens nothing. -/
theorem drain_opens (path : Text) : ∀ (fuel : ℕ) (buf : Bytes) (s : Session),
    s.Opens (drain E path fuel buf s).2 [] := by
  intro fuel
  induction fuel with
  | zero => exact fun _ s => .refl s
  | succ fuel ih =>
    intro buf s
    have hwrite : s.Opens (aWrite E path buf s).2 [] := by
      have hrequest := Opens.of_since (since_objWrite E path buf s)
      unfold aWrite
      split
      · rename_i h
        rwa [h] at hrequest
      · rename_i h
        rwa [h] at hrequest
    unfold drain
    split
    · exact .refl s
    · split
      · rename_i n t h
        rw [h] at hwrite
        exact hwrite.trans (ih _ t)
      · rename_i t h
        rwa [h] at hwrite
      · rename_i t h
        rwa [h] at hwrite

/-- A call of the library opens nothing. -/
theorem call_opens {c : WriteCall} {w w' : ArchiveWriter} {s s' : Session} {ok : Bool}
    (h : w.call L E c s = (ok, w', s')) : s.Opens s' [] := by
  unfold ArchiveWriter.call at h
  split at h
  · obtain ⟨-, -, rfl⟩ := h
    exact .refl s
  · obtain ⟨-, -, rfl⟩ := h
    exact drain_opens _ _ _ s

/-- Freeing a writer opens nothing. -/
theorem free_opens (w : ArchiveWriter) (s : Session) : s.Opens (w.free L E s).2 [] := by
  have hclose := fun t : Session => Opens.of_since (since_objClose E w.path t)
  unfold ArchiveWriter.free
  split
  · dsimp only
    split
    · exact hclose s
    · exact .refl s
  · dsimp only
    generalize hr : drain E w.path _ _ s = r
    have hdrain : s.Opens r.2 [] := hr ▸ drain_opens w.path _ _ s
    have hboth := hdrain.trans (hclose r.2)
    split
    · rename_i t h
      rwa [h] at hboth
    · rename_i f t h
      rwa [h] at hboth

/-- Copying a data object opens nothing more. -/
theorem copyData_opens (path : Text) : ∀ {fuel pos : ℕ} {w : ArchiveWriter} {s : Session}
    {r : Option Status × ArchiveWriter × Session}, copyData L E path fuel pos w s = .ok r →
    s.Opens r.2.2 [] := by
  have hclose := fun t : Session => Opens.of_since (since_objClose E path t)
  intro fuel
  induction fuel with
  | zero => exact fun h => nomatch h
  | succ fuel ih =>
    intro pos w s r h
    have hread := Opens.of_since (since_objRead E path pos aBufSize s)
    unfold copyData at h
    split at h
    · rename_i f t hobj
      obtain rfl := Except.ok.inj h
      rw [hobj] at hread
      exact hread.trans (hclose t)
    · rename_i t hobj
      obtain rfl := Except.ok.inj h
      rw [hobj] at hread
      exact hread.trans (hclose t)
    · rename_i b buf t hobj
      rw [hobj] at hread
      split at h
      · rename_i hcall
        exact (hread.trans (call_opens hcall)).trans (ih h)
      · rename_i hcall
        obtain rfl := Except.ok.inj h
        exact (hread.trans (call_opens hcall)).trans (hclose _)

/-- The object `construct` reads for a call: none for a collection. -/
def ArchiveCall.source (origin : Text) (c : ArchiveCall) : List Text :=
  if c.isColl then [] else [Text.rstrcpy (Text.join origin c.name)]

/-- The type tells a collection. -/
theorem ArchiveCall.typeText_eq_coll_iff {c : ArchiveCall} :
    c.typeText = "coll".toList ↔ c.isColl = true := by
  cases c with
  | addColl => exact iff_of_true rfl rfl
  | addDataObj =>
    have hne : "dataObj".toList ≠ "coll".toList := by decide
    exact iff_of_false hne Bool.false_ne_true

/-- What an item says of its call, where it says something. -/
theorem stringMember_of_objectGet {item : Json} {key s t : Text}
    (hget : item.objectGet key = J.string s) (h : item.stringMember key = some t) : t = s := by
  unfold Json.stringMember at h
  rw [hget] at h
  obtain ⟨v, hv, ht⟩ := Option.bind_eq_some_iff.mp h
  rw [Jansson.string_eq_some hv] at ht
  exact (Option.some.inj ht).symm

/-- **The entry of an item opens the object of its call**, unless it fails before. -/
theorem writeItem_opens {origin : Text} {fuel : ℕ} {c : ArchiveCall} {w : ArchiveWriter}
    {s : Session} {r : Option Status × ArchiveWriter × Session}
    (h : writeItem L E origin fuel (c.item J) w s = .ok r) :
    ∃ p, p <+: c.source origin ∧ s.Opens r.2.2 p ∧ (r.1 = none → p = c.source origin) := by
  unfold writeItem at h
  split at h
  · exact nomatch h
  · rename_i type htype
    obtain rfl := stringMember_of_objectGet (c.item_type J) htype
    unfold ArchiveCall.source
    split at h
    · rename_i hcoll
      rw [if_pos (ArchiveCall.typeText_eq_coll_iff.mp hcoll)]
      refine ⟨[], List.prefix_refl _, ?_, fun _ => rfl⟩
      split at h
      · rename_i hheader
        obtain rfl := Except.ok.inj h
        exact call_opens hheader
      · rename_i hheader
        obtain rfl := Except.ok.inj h
        exact call_opens hheader
    · rename_i hcoll
      rw [if_neg (fun hc => hcoll (ArchiveCall.typeText_eq_coll_iff.mpr hc))]
      split at h
      · rename_i hheader
        obtain rfl := Except.ok.inj h
        exact ⟨[], List.nil_prefix, call_opens hheader, fun hr => nomatch hr⟩
      · rename_i w₁ s₁ hheader
        split at h
        · exact nomatch h
        · rename_i filename hname
          obtain rfl := stringMember_of_objectGet (c.item_name J) hname
          have hopen := Opens.of_since
            (since_objOpen E (Text.rstrcpy (Text.join origin c.name)) false none s₁)
          dsimp only at h
          split at h
          · rename_i f t hobj
            obtain rfl := Except.ok.inj h
            rw [hobj] at hopen
            exact ⟨_, List.prefix_refl _, (call_opens hheader).trans hopen, fun _ => rfl⟩
          · rename_i t hobj
            rw [hobj] at hopen
            exact ⟨_, List.prefix_refl _,
              ((call_opens hheader).trans hopen).trans_nil (copyData_opens _ h), fun _ => rfl⟩

/-- **The entries of the items open the objects of their calls**, as far as they come. -/
theorem writeItems_opens {origin : Text} {fuel : ℕ} {calls : List ArchiveCall} :
    ∀ {w : ArchiveWriter} {s : Session} {r : Option Status × ArchiveWriter × Session},
      writeItems L E origin fuel (calls.map (ArchiveCall.item J)) w s = .ok r →
      ∃ p, p <+: calls.flatMap (ArchiveCall.source origin) ∧ s.Opens r.2.2 p
        ∧ (r.1 = none → p = calls.flatMap (ArchiveCall.source origin)) := by
  induction calls with
  | nil =>
    intro w s r h
    obtain rfl := Except.ok.inj h
    exact ⟨[], List.prefix_refl _, .refl s, fun _ => rfl⟩
  | cons c calls ih =>
    intro w s r h
    rw [List.map_cons, writeItems] at h
    rw [List.flatMap_cons]
    split at h
    · rename_i w₁ s₁ hitem
      obtain ⟨p, hp, hopens, hall⟩ := writeItem_opens hitem
      obtain rfl := hall rfl
      obtain ⟨q, hq, hopens', hall'⟩ := ih h
      exact ⟨_, (List.prefix_append_right_inj _).mpr hq, hopens.trans hopens',
        fun hr => congrArg _ (hall' hr)⟩
    · rename_i hstop
      obtain ⟨p, hp, hopens, -⟩ := writeItem_opens h
      refine ⟨p, hp.trans (List.prefix_append _ _), hopens, fun hr => ?_⟩
      obtain ⟨status, w', s'⟩ := r
      exact absurd (hr ▸ h) (hstop w' s')

/-- **What `construct` opens**: the objects of the calls in its index, in their order, as far
as it comes. -/
theorem construct_opens {a : WriteArchive} {calls : List ArchiveCall} {fuel : ℕ}
    {w : ArchiveWriter} {s : Session} {r : Constructed}
    (ha : a.list = calls.map (ArchiveCall.item J)) (h : construct L E J a fuel w s = .ok r) :
    ∃ p, p <+: calls.flatMap (ArchiveCall.source a.origin) ∧ s.Opens r.session p
      ∧ (r.freed = true → p = calls.flatMap (ArchiveCall.source a.origin)) := by
  have hall : ∀ {q}, writeAll L E J a fuel w s = .ok q →
      ∃ p, p <+: calls.flatMap (ArchiveCall.source a.origin) ∧ s.Opens q.2.2 p
        ∧ (q.1 = none → p = calls.flatMap (ArchiveCall.source a.origin)) := by
    intro q hq
    unfold writeAll at hq
    rw [ha] at hq
    split at hq
    · exact nomatch hq
    · split at hq
      · rename_i hheader
        obtain rfl := Except.ok.inj hq
        exact ⟨[], List.nil_prefix, call_opens hheader, fun hr => nomatch hr⟩
      · rename_i hheader
        split at hq
        · rename_i hdata
          obtain rfl := Except.ok.inj hq
          exact ⟨[], List.nil_prefix, (call_opens hheader).trans (call_opens hdata),
            fun hr => nomatch hr⟩
        · rename_i hdata
          obtain ⟨p, hp, hopens, hnone⟩ := writeItems_opens hq
          exact ⟨p, hp, ((call_opens hheader).trans (call_opens hdata)).trans hopens, hnone⟩
  unfold construct at h
  split at h
  · exact nomatch h
  · rename_i hwrite
    obtain rfl := Except.ok.inj h
    obtain ⟨p, hp, hopens, -⟩ := hall hwrite
    exact ⟨p, hp, hopens, fun hr => nomatch hr⟩
  · rename_i w' t hwrite
    obtain rfl := Except.ok.inj h
    obtain ⟨p, hp, hopens, hnone⟩ := hall hwrite
    exact ⟨p, hp, hopens.trans_nil (free_opens w' t), fun _ => hnone rfl⟩

end Opens

/-! ## Names that lead back -/

/-- The data objects among some items, but the archive. -/
def objectPaths (archive : Text) (visited : List WalkItem) : List Text :=
  (visited.filter (fun i => i.isObj && i.path != archive)).map WalkItem.path

/-- **The names of some calls lead back to their items**, wherever the code goes back. -/
structure NamesLeadBack (J : Jansson) (coll : Text) (visited : List WalkItem)
    (calls : List ArchiveCall) : Prop where
  /-- A call is for its item, and its name joined with the collection is the item's path. -/
  names : List.Forall₂ (fun i c => i.IsCalled c ∧ Text.join coll c.name = i.path) visited calls
  /-- The archive is recognised in the item that it is. -/
  self : ∀ archive, List.Forall₂ (fun i (c : ArchiveCall) =>
    c.isSelf archive coll = true ↔ i.isObj = true ∧ i.path = archive) visited calls
  /-- The data objects are opened, in their order and as far as `construct` comes. -/
  opens : ∀ (L : Libarchive) (E : Irods) (archive : Text) (fuel : ℕ) (w : ArchiveWriter)
    (s : Session) (r : WriteArchive.Constructed),
    WriteArchive.construct L E J ((WriteArchive.create archive coll).run J calls) fuel w s = .ok r →
    ∃ p, p <+: objectPaths archive visited ∧ s.Opens r.session p
      ∧ (r.freed = true → p = objectPaths archive visited)

section NamesLeadBack

variable {coll : Text} {visited : List WalkItem} {calls : List ArchiveCall}

/-- The call for a data object is for the archive itself where its path is the archive's. -/
theorem isSelf_iff {i : WalkItem} {c : ArchiveCall} (h : i.IsCalled c)
    (hname : Text.join coll c.name = i.path) (archive : Text) :
    c.isSelf archive coll = true ↔ i.isObj = true ∧ i.path = archive := by
  obtain ⟨attributes, acl, hc⟩ := h
  have hcoll : c.isColl = !i.isObj := hc ▸ WalkItem.isColl_call i _ attributes acl
  unfold ArchiveCall.isSelf
  rw [hcoll, Bool.not_not, hname, Bool.and_eq_true, beq_iff_eq]
  exact and_congr_right fun _ => eq_comm

/-- The objects of the calls that are not for the archive are the data objects. -/
theorem flatMap_source (hnames : List.Forall₂
      (fun i c => i.IsCalled c ∧ Text.join coll c.name = i.path) visited calls)
    (hfits : ∀ i ∈ visited, i.isObj = true → i.path.length < Text.maxNameLen) (archive : Text) :
    (calls.filter (fun c => !c.isSelf archive coll)).flatMap (ArchiveCall.source coll)
      = objectPaths archive visited := by
  induction hnames with
  | nil => rfl
  | @cons i c visited calls hc _ ih =>
    obtain ⟨hcalled, hname⟩ := hc
    rw [List.forall_mem_cons] at hfits
    have hself := isSelf_iff hcalled hname archive
    obtain ⟨attributes, acl, hcall⟩ := hcalled
    have hcoll : c.isColl = !i.isObj := hcall ▸ WalkItem.isColl_call i _ attributes acl
    have hrest := ih hfits.2
    unfold objectPaths at hrest ⊢
    by_cases hleft : i.isObj = true ∧ i.path = archive
    · -- the archive is in neither list
      rw [List.filter_cons_of_neg (by rw [hself.mpr hleft]; decide), hrest,
        List.filter_cons_of_neg (by rw [hleft.1, hleft.2]; simp)]
    · have hkept : c.isSelf archive coll = false := Bool.eq_false_of_not_eq_true (hself.not.mpr hleft)
      rw [List.filter_cons_of_pos (by rw [hkept]; rfl), List.flatMap_cons, hrest,
        ArchiveCall.source, hcoll, hname]
      cases hobj : i.isObj with
      | false =>
        rw [List.filter_cons_of_neg (by rw [hobj, Bool.false_and]; decide)]
        rfl
      | true =>
        have hpath : i.path ≠ archive := fun h => hleft ⟨hobj, h⟩
        rw [List.filter_cons_of_pos (by rw [hobj, bne_iff_ne.mpr hpath]; rfl), List.map_cons,
          Text.rstrcpy_of_fits (hfits.1 hobj)]
        rfl

/-- **Names that lead back do so wherever the code goes back.** -/
theorem namesLeadBack_of_names {J : Jansson} (hnames : List.Forall₂
      (fun i c => i.IsCalled c ∧ Text.join coll c.name = i.path) visited calls)
    (hfits : ∀ i ∈ visited, i.isObj = true → i.path.length < Text.maxNameLen) :
    NamesLeadBack J coll visited calls where
  names := hnames
  self archive := hnames.imp (fun _ _ h => isSelf_iff h.1 h.2 archive)
  opens L E archive fuel w s r h := by
    have hlist : ((WriteArchive.create archive coll).run J calls).list
        = (calls.filter (fun c => !c.isSelf archive coll)).map (ArchiveCall.item J) := by
      rw [WriteArchive.run_eq]
      rfl
    have horigin : ((WriteArchive.create archive coll).run J calls).origin = coll := by
      rw [WriteArchive.run_eq]
      rfl
    have hopens := construct_opens hlist h
    rw [horigin, flatMap_source hnames hfits archive] at hopens
    exact hopens

/-- A name the code has computed leads back only where the collection is not the root. -/
theorem not_root_of_names (hne : visited ≠ []) (hlocated : ∀ i ∈ visited, i.Located coll)
    (hissued : List.Forall₂ (WalkItem.IssuedAs coll) visited calls)
    (hnames : List.Forall₂ (fun i c => i.IsCalled c ∧ Text.join coll c.name = i.path)
      visited calls) : coll ≠ ['/'] := by
  cases hissued with
  | nil => exact absurd rfl hne
  | @cons i c visited calls hc _ =>
    obtain ⟨⟨-, hpath⟩, -⟩ := List.forall₂_cons.mp hnames
    rw [hc.isCalled.2] at hpath
    exact (WalkItem.leads_back_iff (hlocated i List.mem_cons_self)).mp hpath

end NamesLeadBack

/-- **The names of an archive lead back to its items**, for any server that shows the
catalog, exactly where the archived collection is not the root, or where there is nothing
below it. -/
theorem relative_names_iff {K : Catalog} {coll : Text} {t : CollTree} (hs : t.Stands K coll) :
    (∀ (Q : GenQuery) (J : Jansson) (fuel : ℕ) (w w' : Walk), Q.toCatalog = K → w.calls = [] →
        Q.walk J fuel coll t.coll.id w = some w' →
        ∃ visited, visited.Sublist (t.items K coll) ∧ (Q.Fine w' → visited = t.items K coll)
          ∧ NamesLeadBack J coll visited w'.calls)
      ↔ coll ≠ ['/'] ∨ t.items K coll = [] := by
  constructor
  · intro h
    rw [or_iff_not_imp_right]
    intro hitems
    -- a server that never fails comes to all of the items
    set Q : GenQuery := ⟨K, fun _ => .page 0 false, fun _ => .ofCode .catNoRowsFound⟩
    set J : Jansson := ⟨fun _ => true, fun _ => none, fun _ _ => []⟩
    have hfine : ∀ v : Walk, Q.Fine v := fun v => 
      GenQuery.Reliable.fine (fun _ h => PageOutcome.noConfusion h) v
    obtain ⟨v, hv⟩ := GenQuery.dirColl_total_of_listed (Q := Q) (J := J) coll hs.listed
      (Nat.lt_succ_self _) Walk.start
    have hwalk : Q.walk J (t.depth + 1) coll t.coll.id Walk.start
        = some (Q.dirDataObj J [] t.coll.id v) := by
      rw [GenQuery.walk, hv, Option.map_some]
    obtain ⟨-, visited, calls, -, hcalls, hissued, hall⟩ :=
      GenQuery.walk_visits (Q := Q) hs hwalk
    obtain ⟨visited', -, hall', hback⟩ := h Q J _ _ _ rfl rfl hwalk
    have hnames := hback.names
    rw [hall' (hfine _), hcalls] at hnames
    rw [hall (hfine _)] at hissued
    exact not_root_of_names hitems (fun i hi => (CollTree.located_items hs i hi).1) hissued hnames
  · rintro h Q J fuel w w' rfl hw hwalk
    obtain ⟨-, visited, calls, hsub, hcalls, hissued, hall⟩ := GenQuery.walk_visits hs hwalk
    have hlocated : ∀ i ∈ visited, i ∈ t.items Q.toCatalog coll := fun i hi => hsub.subset hi
    have hboth := (List.forall₂_and_left visited calls).mpr ⟨hlocated, hissued⟩
    refine ⟨visited, hsub, hall, ?_⟩
    rw [hcalls, hw, List.nil_append]
    refine namesLeadBack_of_names (hboth.imp ?_) (fun i hi => (CollTree.located_items hs i (hlocated i hi)).2)
    rintro i c ⟨hi, hc⟩
    obtain ⟨hcalled, hname⟩ := hc.isCalled
    refine ⟨hcalled, ?_⟩
    rcases h with hroot | hnone
    · rw [hname]
      exact (WalkItem.leads_back_iff (CollTree.located_items hs i hi).1).mpr hroot
    · rw [hnone] at hi
      exact absurd hi List.not_mem_nil

/-! ## The root -/

namespace Sample

/-- The collection of a zone. -/
def zoneColl : Collection := ⟨"zone".toList, 2, "u".toList, "zone".toList, 0, 0, [], [], []⟩

/-- A data object in it. -/
def zoneObject : DataRow :=
  ⟨"f".toList, 3, 0, "u".toList, "zone".toList, 0, 0, []⟩

/-- A catalog with one zone, and a data object in its collection. -/
def zoneCatalog : Catalog where
  collIds cond := if cond = nameCond "/".toList then [1]
    else if cond = nameCond "/zone".toList then [2] else []
  subColls cond := if cond = nameCond "/".toList then [zoneColl.childRow "/".toList] else []
  dataObjs id := if id = 2 then [zoneObject] else []
  dataAttrs _ := []
  collAttrs _ := []
  dataAcl _ := []
  collAcl _ := []

/-- The server of that catalog, without failures. -/
def zoneServer : GenQuery := ⟨zoneCatalog, fun _ => .page 0 false, fun _ => .ofCode .catNoRowsFound⟩

/-- The collection of the zone. -/
def zoneTree : CollTree := .node zoneColl []

theorem zoneTree_stands : zoneTree.Stands zoneCatalog "/zone".toList := by
  refine .node (by decide +kernel) (fun _ h => nomatch h) ?_ (fun _ h => nomatch h)
  exact List.forall_mem_singleton.mpr (by decide +kernel)

end Sample

theorem relative_names_zone :
    (∀ (Q : GenQuery) (J : Jansson) (fuel : ℕ) (w w' : Walk), Q.toCatalog = Sample.zoneCatalog →
        w.calls = [] → Q.walk J fuel "/zone".toList Sample.zoneTree.coll.id w = some w' →
        ∃ visited, visited.Sublist (Sample.zoneTree.items Sample.zoneCatalog "/zone".toList)
          ∧ (Q.Fine w' → visited = Sample.zoneTree.items Sample.zoneCatalog "/zone".toList)
          ∧ NamesLeadBack J "/zone".toList visited w'.calls)
      ↔ "/zone".toList ≠ ['/']
        ∨ Sample.zoneTree.items Sample.zoneCatalog "/zone".toList = [] :=
  relative_names_iff Sample.zoneTree_stands

/-- **Below the root a letter is cut off**: what is joined again is no path of the catalog. -/
theorem root_names_lead_astray :
    (Sample.zoneServer.collID "/".toList .start).1 = .num 1
      ∧ (Sample.zoneServer.walk JsonText.codec 3 "/".toList 1 .start).map
          (fun w => w.calls.map (fun c => Text.join "/".toList c.name))
        = some ["//one".toList, "//one/f".toList]
      ∧ (Sample.zoneCatalog.subColls (nameCond "/".toList)).map CollRow.name
        = ["/zone".toList] := by
  decide +kernel
