import IrodsMicroservices.FreeSpace
import IrodsMicroservices.NamespaceTree

/-!
# Extracting a single item

An extraction of a single item goes through the entries and the items side by side as the
extraction of all items does, skips what comes before its item, and extracts that. It does
not find what the extraction of all items finds: nothing that comes before has been
extracted, and the collection the item is in may not be there, so that it makes that
first.

At the place of the item both do the same all the same (`single_extraction_agrees`): the
same stands there before, and what extracting an item asks for at its place, and what it
leaves there, depends on that only (`extractEntry_alike`). Apart from that the single
extraction makes no more than the target and the collections between it and the item.

Two names are not extracted so (`single_extraction_differs`): one whose path is cut off,
and `null`, which as a parameter is no name at all.
-/

open Session

/-! ## The same at a place -/

/-- **Two sessions that are the same at a path**: the same stands there, and where nothing
does there is a collection for it. -/
structure SameAt (file : Text) (u v : Session) : Prop where
  node : v.nodes file = u.nodes file
  above : u.nodes file = none → u.nodes (Text.parent file) = some .coll
    ∧ v.nodes (Text.parent file) = some .coll

/-- **Two steps that do the same at a path**: with the same result, the same requests and
the same answers. -/
def Alike {α : Type} (file : Text) (u v : Session) (x y : α × Session) : Prop :=
  y.1 = x.1 ∧ SameAt file x.2 y.2 ∧ ∃ log, u.Since x.2 log ∧ v.Since y.2 log

section Alike

variable {E : Irods} {file : Text} {u v : Session}

theorem SameAt.put (n : Node) : SameAt file (u.put file n) (v.put file n) :=
  ⟨by rw [nodes_put_self, nodes_put_self],
    fun h => absurd ((nodes_put_self u file n).symm.trans h) (Option.some_ne_none _)⟩

/-- One request, answered the same in both. -/
theorem request_alike (hE : E.Serves) {α : Type} (r : Request)
    {answer answer' : Except Failure (α × Session)}
    (h : (∃ f, answer = .error f ∧ answer' = .error f ∧ SameAt file u v)
      ∨ ∃ a u' v', answer = .ok (a, u') ∧ answer' = .ok (a, v') ∧ SameAt file u' v'
        ∧ u'.log = u.log ∧ v'.log = v.log) :
    Alike file u v (u.request E r answer) (v.request E r answer') := by
  unfold request
  rw [(hE _).1, (hE _).1]
  rcases h with ⟨f, rfl, rfl, hsame⟩ | ⟨a, u', v', rfl, rfl, hsame, hu, hv⟩
  · exact ⟨rfl, ⟨hsame.node, hsame.above⟩, [(r, false)], rfl, rfl⟩
  · refine ⟨rfl, ⟨hsame.node, hsame.above⟩, [(r, true)], ?_, ?_⟩
    · exact congrArg (· ++ [(r, true)]) hu
    · exact congrArg (· ++ [(r, true)]) hv

theorem objOpen_alike (hE : E.Serves) (h : SameAt file u v) (resource : Option Text) :
    Alike file u v (u.objOpen E file true resource) (v.objOpen E file true resource) := by
  unfold objOpen
  rw [h.node]
  refine request_alike hE _ ?_
  split
  · exact .inr ⟨(), _, _, rfl, rfl, .put _, rfl, rfl⟩
  · exact .inl ⟨_, rfl, rfl, h⟩

theorem objCreate_alike (hE : E.Serves) (h : SameAt file u v) (resource : Option Text) :
    Alike file u v (u.objCreate E file resource) (v.objCreate E file resource) := by
  unfold objCreate
  rw [h.node]
  refine request_alike hE _ ?_
  split
  · exact .inl ⟨_, rfl, rfl, h⟩
  · exact .inl ⟨_, rfl, rfl, h⟩
  · rename_i hnone
    rw [if_pos (h.above hnone).1, if_pos (h.above hnone).2]
    exact .inr ⟨(), _, _, rfl, rfl, .put _, rfl, rfl⟩

theorem collCreate_alike (hE : E.Serves) (h : SameAt file u v) :
    Alike file u v (u.collCreate E file false) (v.collCreate E file false) := by
  unfold collCreate
  rw [h.node]
  refine request_alike hE _ ?_
  split
  · exact .inl ⟨_, rfl, rfl, h⟩
  · exact .inl ⟨_, rfl, rfl, h⟩
  · rename_i hnone
    rw [if_neg Bool.false_ne_true, if_neg Bool.false_ne_true, if_pos (h.above hnone).1,
      if_pos (h.above hnone).2]
    exact .inr ⟨(), _, _, rfl, rfl, .put _, rfl, rfl⟩

theorem objWrite_alike (hE : E.Serves) (h : SameAt file u v) (buf : Bytes) :
    Alike file u v (u.objWrite E file buf) (v.objWrite E file buf) := by
  have hstored : ∀ s : Session, s.stored E buf.length = buf.length := by
    intro s
    unfold stored
    rw [(hE _).2]
  unfold objWrite
  rw [h.node, hstored, hstored]
  refine request_alike hE _ ?_
  split
  · exact .inr ⟨_, _, _, rfl, rfl, .put _, rfl, rfl⟩
  · exact .inl ⟨_, rfl, rfl, h⟩

theorem objClose_alike (hE : E.Serves) (h : SameAt file u v) :
    Alike file u v (u.objClose E file) (v.objClose E file) :=
  request_alike hE _ (.inr ⟨(), u, v, rfl, rfl, h, rfl, rfl⟩)

theorem modDataObjMeta_alike (hE : E.Serves) (h : SameAt file u v) (modified : ℤ) :
    Alike file u v (u.modDataObjMeta E file modified) (v.modDataObjMeta E file modified) :=
  request_alike hE _ (.inr ⟨(), u, v, rfl, rfl, h, rfl, rfl⟩)

theorem modAvuMetadata_alike (hE : E.Serves) (h : SameAt file u v) (op : AvuOp) (isColl : Bool)
    (name value unit : Option Text) :
    Alike file u v (u.modAvuMetadata E op isColl file name value unit)
      (v.modAvuMetadata E op isColl file name value unit) := by
  unfold modAvuMetadata
  refine request_alike hE _ ?_
  split
  · exact .inr ⟨(), _, _, rfl, rfl, ⟨h.node, h.above⟩, rfl, rfl⟩
  · exact .inl ⟨_, rfl, rfl, h⟩

/-- A step after a step that does the same. -/
theorem Alike.trans {α β : Type} {x y : α × Session} {x' y' : β × Session}
    (h : Alike file u v x y) (h' : Alike file x.2 y.2 x' y') : Alike file u v x' y' := by
  obtain ⟨-, -, log, hu, hv⟩ := h
  obtain ⟨hresult, hsame, log', hu', hv'⟩ := h'
  exact ⟨hresult, hsame, log ++ log', hu.trans hu', hv.trans hv'⟩

theorem creat_alike (hE : E.Serves) (hfits : file.length < Text.maxNameLen) (h : SameAt file u v)
    (resource : Option Text) :
    Alike file u v (creat E file resource u) (creat E file resource v) := by
  have hopen := objOpen_alike hE h resource
  unfold creat
  rw [Text.rstrcpy_of_fits hfits]
  cases hx : u.objOpen E file true resource with
  | mk r u' =>
    cases hy : v.objOpen E file true resource with
    | mk r' v' =>
      rw [hx, hy] at hopen
      obtain rfl : r' = r := hopen.1
      cases r' with
      | ok => exact hopen
      | error f =>
        dsimp only
        split
        · exact hopen.trans (objCreate_alike hE hopen.2.1 resource)
        · exact hopen

theorem writeBlocks_alike (hE : E.Serves) (fails : Bool) (blocks : List Bytes) :
    ∀ {u v : Session}, SameAt file u v →
      Alike file u v (writeBlocks E file fails blocks u) (writeBlocks E file fails blocks v) := by
  have hclose : ∀ {u v : Session} (r : Except Failure Unit), SameAt file u v →
      Alike file u v (r, (u.objClose E file).2) (r, (v.objClose E file).2) := by
    intro u v r h
    obtain ⟨-, hsame, hlog⟩ := objClose_alike hE h
    exact ⟨rfl, hsame, hlog⟩
  induction blocks with
  | nil =>
    intro u v h
    unfold writeBlocks
    split
    · exact hclose _ h
    · exact objClose_alike hE h
  | cons block blocks ih =>
    intro u v h
    cases block with
    | nil => exact objClose_alike hE h
    | cons b buf =>
      have hwrite := objWrite_alike hE h (b :: buf)
      unfold writeBlocks
      cases hx : u.objWrite E file (b :: buf) with
      | mk r u' =>
        cases hy : v.objWrite E file (b :: buf) with
        | mk r' v' =>
          rw [hx, hy] at hwrite
          obtain rfl : r' = r := hwrite.1
          cases r' with
          | ok n => exact hwrite.trans (ih hwrite.2.1)
          | error f => exact hwrite.trans (hclose _ hwrite.2.1)

theorem extractItem_alike (hE : E.Serves) (hfits : file.length < Text.maxNameLen)
    (h : SameAt file u v) (resource : Option Text) (e : ReadEntry) :
    Alike file u v (extractItem E resource e file u) (extractItem E resource e file v) := by
  unfold extractItem
  rw [Text.rstrcpy_of_fits hfits]
  split
  · have hcreate := collCreate_alike hE h
    cases hx : u.collCreate E file false with
    | mk r u' =>
      cases hy : v.collCreate E file false with
      | mk r' v' =>
        rw [hx, hy] at hcreate
        obtain rfl : r' = r := hcreate.1
        cases r' with
        | ok => exact hcreate
        | error f =>
          dsimp only
          split
          · exact ⟨rfl, hcreate.2⟩
          · exact hcreate
  · have hcreat := creat_alike hE hfits h resource
    cases hx : creat E file resource u with
    | mk r u' =>
      cases hy : creat E file resource v with
      | mk r' v' =>
        rw [hx, hy] at hcreat
        obtain rfl : r' = r := hcreat.1
        cases r' with
        | ok => exact hcreat.trans (writeBlocks_alike hE _ _ hcreat.2.1)
        | error f => exact hcreat

theorem attributesLoop_alike (hE : E.Serves) (isColl : Bool) (list : List Json) :
    ∀ {prev : Option Text} {u v u' : Session}, SameAt file u v →
      attributesLoop E file isColl prev list u = .ok u' →
      ∃ v', attributesLoop E file isColl prev list v = .ok v' ∧ Alike file u v ((), u') ((), v') := by
  induction list with
  | nil =>
    intro prev u v u' h hu
    obtain rfl := Except.ok.inj hu
    exact ⟨v, rfl, rfl, h, [], .refl u, .refl v⟩
  | cons json list ih =>
    intro prev u v u' h hu
    unfold attributesLoop at hu ⊢
    dsimp only at hu ⊢
    split at hu
    · exact nomatch hu
    · obtain ⟨v', hv', hrest⟩ := ih (modAvuMetadata_alike hE h _ isColl _ _ _).2.1 hu
      exact ⟨v', hv', (modAvuMetadata_alike hE h _ isColl _ _ _).trans hrest⟩

theorem setMetadata_alike (hE : E.Serves) (hfits : file.length < Text.maxNameLen)
    (h : SameAt file u v) {json : Json} {u' : Session} (hu : setMetadata E file json u = .ok u') :
    ∃ v', setMetadata E file json v = .ok v' ∧ Alike file u v ((), u') ((), v') := by
  unfold setMetadata at hu ⊢
  cases htype : json.stringMember "type".toList with
  | none =>
    rw [htype] at hu
    exact nomatch hu
  | some type =>
    rw [htype] at hu
    dsimp only at hu ⊢
    have hmodify : Alike file u v
        ((), if decide (type = "coll".toList) = true then u else u.modify E file json)
        ((), if decide (type = "coll".toList) = true then v else v.modify E file json) := by
      split
      · exact ⟨rfl, h, [], .refl u, .refl v⟩
      · obtain ⟨-, hsame, hlog⟩ :=
          modDataObjMeta_alike hE h (json.integerMember "modified".toList)
        unfold Session.modify
        rw [Text.rstrcpy_of_fits hfits]
        exact ⟨rfl, hsame, hlog⟩
    cases hlist : json.objectGet "attributes".toList with
    | none =>
      rw [hlist] at hu
      obtain rfl := Except.ok.inj hu
      exact ⟨_, rfl, hmodify⟩
    | some list =>
      rw [hlist] at hu
      obtain ⟨v', hv', hrest⟩ := attributesLoop_alike hE _ _ hmodify.2.1 hu
      exact ⟨v', hv', hmodify.trans hrest⟩

/-- **An item is extracted the same way** in sessions that are the same at its path. -/
theorem extractEntry_alike (hE : E.Serves) (hfits : file.length < Text.maxNameLen)
    (h : SameAt file u v) {resource : Option Text} {e : ReadEntry} {json : Json} {u' : Session}
    (hu : extractEntry E resource file e json u = .ok (.ok (), u')) :
    ∃ v', extractEntry E resource file e json v = .ok (.ok (), v')
      ∧ Alike file u v ((), u') ((), v') := by
  have hitem := extractItem_alike hE hfits h resource e
  obtain ⟨u₁, hx, hset⟩ := extractEntry_ok_iff.mp hu
  cases hy : extractItem E resource e file v with
  | mk r v₁ =>
    rw [hx, hy] at hitem
    obtain rfl : r = .ok () := hitem.1
    obtain ⟨v', hv', hrest⟩ := setMetadata_alike hE hfits hitem.2.1 hset
    exact ⟨v', extractEntry_ok_iff.mpr ⟨v₁, hy, hv'⟩, hitem.trans hrest⟩

end Alike

/-! ## The calls at a place -/

/-- The requests that make, open for writing or change what is at a path, and whether
they were granted. -/
def callsAt (p : Text) (log : List (Request × Bool)) : List (Request × Bool) :=
  log.filter (fun q => decide (q.1.target = some p))

/-- **What a session has been asked since at a path.** -/
def Calls (p : Text) (s t : Session) (calls : List (Request × Bool)) : Prop :=
  ∃ log, s.Since t log ∧ callsAt p log = calls

theorem Calls.trans {p : Text} {s t u : Session} {calls calls' : List (Request × Bool)}
    (h : Calls p s t calls) (h' : Calls p t u calls') : Calls p s u (calls ++ calls') := by
  obtain ⟨log, hlog, rfl⟩ := h
  obtain ⟨log', hlog', rfl⟩ := h'
  exact ⟨log ++ log', hlog.trans hlog', List.filter_append ..⟩

/-- What goes elsewhere asks for nothing there. -/
theorem Session.Asks.calls {D : Text → Prop} {n : ℕ} {s t : Session} (h : Asks D n s t) {p : Text}
    (hp : ¬ D p) : Calls p s t [] := by
  obtain ⟨log, hlog, hD, -⟩ := h
  refine ⟨log, hlog, List.filter_eq_nil_iff.mpr (fun q hq htarget => ?_)⟩
  exact hp (hD q hq p (of_decide_eq_true htarget))

theorem Lays.calls {D : Text → Prop} {s t : Session} (h : Lays D s t) {p : Text} (hp : ¬ D p) :
    Calls p s t [] := by
  obtain ⟨n, hn⟩ := h.asks
  exact hn.calls hp

/-! ## The loop for a single item -/

section Loop

variable {E : Irods} {headers : ℕ → HeaderResult} {resource : Option Text} {target name : Text}

/-- **Items of other names are skipped**, whatever their entries are. -/
theorem extractLoop_skip {space : ℤ} {status : Status} {s : Session} {post : List Json} :
    ∀ {pre : List Json} {n : ℕ}, (∀ k < pre.length, ∃ e, headers (n + k) = .ok e) →
      (∀ item ∈ pre, ∃ m, item.stringMember "name".toList = some m ∧ m ≠ name) →
      extractLoop E headers resource (some name) target space (pre ++ post) n status s
        = extractLoop E headers resource (some name) target space post (n + pre.length) status s := by
  intro pre
  induction pre with
  | nil => exact fun _ _ => rfl
  | cons json pre ih =>
    intro n hheaders hnames
    rw [List.forall_mem_cons] at hnames
    obtain ⟨⟨m, hname, hne⟩, hnames⟩ := hnames
    obtain ⟨e, hheader⟩ := hheaders 0 (Nat.zero_lt_succ _)
    rw [Nat.add_zero] at hheader
    have hrest := ih (n := n + 1) (fun k hk => by
      rw [Nat.add_assoc, Nat.add_comm 1 k]
      exact hheaders (k + 1) (Nat.succ_lt_succ hk)) hnames
    rw [List.cons_append, extractLoop_other hheader hname hne, hrest, List.length_cons,
      Nat.add_assoc, Nat.add_comm 1]

/-- The item itself is extracted with the collection it is in. -/
theorem extractLoop_single {n : ℕ} {e : ReadEntry} {json : Json} (hheader : headers n = .ok e)
    (hname : json.stringMember "name".toList = some name) (items : List Json) (status : Status)
    {s t : Session} (hentry : extractEntry E resource (Text.join target name) e json
      (makeParent E target name s) = .ok (.ok (), t)) :
    extractLoop E headers resource (some name) target 0 (json :: items) n status s
      = .ok ⟨.num 0, [json], t⟩ := by
  rw [extractLoop_self hheader hname, if_neg (fun h => h.1 rfl), hentry]

/-- What is above a joined path is above the target, the target, or below it. -/
theorem mem_ancestors_join_cases {q : Text} (h : q ∈ ancestors (Text.join target name)) :
    q ∈ ancestors target ∨ q = target ∨ ∃ m, q = Text.join target m := by
  obtain ⟨hq, hprefix⟩ := mem_ancestors_iff.mp h
  have htarget : target ++ ['/'] <+: Text.join target name := ⟨name, by simp [Text.join]⟩
  rcases lt_trichotomy q.length target.length with hlt | heq | hgt
  · refine .inl (mem_ancestors_iff.mpr ⟨hq, ?_⟩)
    refine List.prefix_of_prefix_length_le hprefix ((List.prefix_append target _).trans htarget) ?_
    rw [List.length_append]
    exact hlt
  · refine .inr (.inl (List.IsPrefix.eq_of_length ?_ heq))
    exact List.prefix_of_prefix_length_le ((List.prefix_append q _).trans hprefix)
      ((List.prefix_append target _).trans htarget) heq.le
  · obtain ⟨m, hm⟩ : target ++ ['/'] <+: q := by
      refine List.prefix_of_prefix_length_le htarget ((List.prefix_append q _).trans hprefix) ?_
      rw [List.length_append]
      exact hgt
    exact .inr (.inr ⟨m, by rw [← hm]; simp [Text.join]⟩)

/-- **The collection a single item is extracted into is there**, where nothing above the
item is an object; and no more has been made than collections above the item. -/
theorem makeParent_above (hE : E.Serves) (htarget : target ≠ [])
    (hfits : (Text.join target name).length < Text.maxNameLen) {s : Session}
    (hfree : ∀ q ∈ ancestors (Text.join target name), ∀ data, s.nodes q ≠ some (.obj data))
    (hcoll : s.nodes target = some .coll) :
    let s' := makeParent E target name s
    Text.parent (Text.join target name) ∈ ancestors (Text.join target name)
      ∧ s'.nodes (Text.parent (Text.join target name)) = some .coll
      ∧ (∀ q, s'.nodes q ≠ s.nodes q →
        s'.nodes q = some .coll ∧ q ∈ ancestors (Text.join target name))
      ∧ Calls (Text.join target name) s s' [] := by
  intro s'
  -- a name with a slash has its collections made, any other one lies in the target
  by_cases hslash : '/' ∈ name
  · obtain ⟨last, hlast, hlastslash⟩ := join_parentName hslash
    set path := Text.join target (parentName name) with hpath
    have hjoin : Text.join target name = Text.join path last := by
      rw [hpath, Text.join_join, ← hlast]
    have hne : path ≠ [] := by
      rw [hpath]
      exact List.append_ne_nil_of_right_ne_nil _ (List.cons_ne_nil _ _)
    have hparent : Text.parent (Text.join target name) = path := by
      rw [hjoin, Text.parent_join hne hlastslash]
    have habove : path ∈ ancestors (Text.join target name) := hjoin ▸ mem_ancestors_join hne last
    obtain ⟨hmade, hframe, b, hsince⟩ := makeParent_spec hE (s := s) hslash hfits (fun q hq => by
      rcases hq with rfl | hq
      · exact hfree _ habove
      · exact hfree q (mem_ancestors_trans hq habove))
    rw [hparent]
    refine ⟨habove, hmade, fun q hq => ?_, [(.collCreate path true, b)], hsince, ?_⟩
    · obtain ⟨hq', hplace⟩ := hframe q hq
      refine ⟨hq', ?_⟩
      rcases hplace with rfl | hplace
      · exact habove
      · exact mem_ancestors_trans hplace habove
    · refine List.filter_eq_nil_iff.mpr (List.forall_mem_singleton.mpr (fun h => ?_))
      exact ne_of_mem_ancestors habove (Option.some.inj (of_decide_eq_true h))
  · have hsame : s' = s := if_neg hslash
    have hparent : Text.parent (Text.join target name) = target :=
      Text.parent_join htarget hslash
    rw [hsame, hparent]
    exact ⟨mem_ancestors_join htarget name, hcoll, fun q hq => absurd rfl hq, [], .refl s, rfl⟩

/-- **What an extraction of a single item does**, between two sessions, where the
extraction of all items has ended in a third: the same at the place of the item; and no
more besides than collections between the target and the item. -/
structure Agrees (target name : Text) (s full single : Session) : Prop where
  calls : ∃ calls, Calls (Text.join target name) s full calls
    ∧ Calls (Text.join target name) s single calls
  node : single.nodes (Text.join target name) = full.nodes (Text.join target name)
  there : full.nodes (Text.join target name) ≠ none
  frame : ∀ q, q ≠ Text.join target name → single.nodes q ≠ s.nodes q →
    single.nodes q = some .coll
      ∧ (q = target ∨ q ∈ ancestors (Text.join target name) ∧ ∃ m, q = Text.join target m)

theorem join_ne (target name : Text) : Text.join target name ≠ target := by
  intro h
  have hlen := congrArg List.length h
  rw [Text.length_join] at hlen
  omega

/-- Items of other names have other places. -/
theorem not_placeOf {items : List Json}
    (h : ∀ item ∈ items, ∃ m, item.stringMember "name".toList = some m ∧ m ≠ name) :
    ¬ PlaceOf target items (Text.join target name) := by
  rintro ⟨item, hitem, m, hm, heq⟩
  obtain ⟨m', hm', hne⟩ := h item hitem
  obtain rfl := Option.some.inj (hm.symm.trans hm')
  exact hne (Text.join_right_injective target heq).symm

/-- **The extraction of all items, cut at one of them**: what lies before it and after it
is laid out at the places of the other items. -/
theorem Passes.cut (hE : E.Honest) {pre post : List Json} {item : Json}
    (hheaders : ∀ k < (pre ++ item :: post).length,
      ∃ e p, headers (1 + k) = .ok e ∧ Libarchive.Restores p e)
    (hfits : ∀ item' ∈ pre ++ item :: post, ∀ m, item'.stringMember "name".toList = some m →
      (Text.join target m).length < Text.maxNameLen)
    (hname : item.stringMember "name".toList = some name) {s u : Session}
    (hpass : Passes E headers resource target (pre ++ item :: post) 1 s u) :
    ∃ e p t t', headers (1 + pre.length) = .ok e ∧ Libarchive.Restores p e
      ∧ extractEntry E resource (Text.join target name) e item t = .ok (.ok (), t')
      ∧ Lays (PlaceOf target pre) s t ∧ Lays (PlaceOf target post) t' u := by
  obtain ⟨t, hpre, hrest⟩ := hpass.split
  cases hrest with
  | @cons _ _ _ e name' _ t' _ hheader hname' hentry hpost =>
    obtain rfl : name = name' := Option.some.inj (hname.symm.trans hname')
    have hlen : (pre ++ item :: post).length = pre.length + 1 + post.length := by
      rw [List.length_append, List.length_cons]
      omega
    obtain ⟨e', p, hheader', he⟩ := hheaders pre.length (by omega)
    obtain rfl := HeaderResult.ok.inj (hheader.symm.trans hheader')
    refine ⟨e, p, t, t', hheader, he, hentry, ?_, ?_⟩
    · exact hpre.lays hE (fun k hk => hheaders k (by omega))
        (fun i hi => hfits i (List.mem_append_left _ hi))
    · refine hpost.lays hE (fun k hk => ?_)
        (fun i hi => hfits i (List.mem_append_right _ (List.mem_cons_of_mem _ hi)))
      have hlater := hheaders (pre.length + 1 + k) (by omega)
      rwa [← Nat.add_assoc, ← Nat.add_assoc] at hlater

/-- **Above an item that has been extracted** there were collections: something is there
now, in a tree, and the extraction of the item has changed nothing above it. -/
theorem collections_above (hE : E.Honest) {D : Text → Prop} {s t t' : Session}
    (htree : Tree s.nodes) (hlays : Lays D s t) {e : ReadEntry} {p : EntryHeader × Bytes}
    (he : Libarchive.Restores p e) {file : Text} (hfits : file.length < Text.maxNameLen)
    {item : Json} (hentry : extractEntry E resource file e item t = .ok (.ok (), t')) :
    ∀ q ∈ ancestors file, t.nodes q = some .coll := by
  have hlays' := extractEntry_lays hE he hfits hentry
  have hthere : t'.nodes file ≠ none := by
    rw [(extractEntry_ok hE he hfits hentry).1, Function.update_self]
    exact Option.some_ne_none _
  intro q hq
  rw [← hlays'.tree (hlays.tree htree) file hthere q hq]
  exact (hlays'.frame q (ne_of_mem_ancestors hq)).symm

/-- **The loop for a single item agrees with the loop for all items.** -/
theorem extractLoop_agrees (hE : E.Serves) (htarget : target ≠ []) {items : List Json}
    (hheaders : ∀ k < items.length, ∃ e p, headers (1 + k) = .ok e ∧ Libarchive.Restores p e)
    (hdistinct : (items.map (fun item => item.stringMember "name".toList)).Nodup)
    (hfits : ∀ item ∈ items, ∀ m, item.stringMember "name".toList = some m →
      (Text.join target m).length < Text.maxNameLen)
    {s u : Session} (htree : Tree s.nodes) (hpass : Passes E headers resource target items 1 s u)
    {item : Json} (hitem : item ∈ items)
    (hname : item.stringMember "name".toList = some name) :
    ∃ r, extractLoop E headers resource (some name) target 0 items 1 (.num 0) s = .ok r
      ∧ r.status = .num 0 ∧ Agrees target name s u r.session := by
  set file := Text.join target name with hfile
  obtain ⟨pre, post, rfl⟩ := List.append_of_mem hitem
  -- the places of the other items are others
  have hother : ∀ item' ∈ pre ++ post, ∃ m, item'.stringMember "name".toList = some m ∧ m ≠ name := by
    intro item' hitem'
    obtain ⟨m, hm⟩ := hpass.named item' (by
      rw [List.mem_append, List.mem_cons]
      exact (List.mem_append.mp hitem').imp_right .inr)
    refine ⟨m, hm, ?_⟩
    rintro rfl
    rw [List.map_append, List.map_cons, List.nodup_middle, List.nodup_cons, ← List.map_append]
      at hdistinct
    exact hdistinct.1 (List.mem_map.mpr ⟨item', hitem', hm.trans hname.symm⟩)
  have hpreother := fun i hi => hother i (List.mem_append_left post hi)
  have hpreplace : ¬ PlaceOf target pre file := not_placeOf hpreother
  have hpostplace : ¬ PlaceOf target post file :=
    not_placeOf (fun i hi => hother i (List.mem_append_right pre hi))
  -- the extraction of all items, cut at the item
  obtain ⟨e, p, t, t', hheader, he, hentry, hlaysPre, hlaysPost⟩ :=
    hpass.cut hE.honest hheaders hfits hname
  have hfitsN : file.length < Text.maxNameLen := hfits item hitem name hname
  have hnode : t'.nodes file = some (entryNode p) := by
    rw [(extractEntry_ok hE.honest he hfitsN hentry).1, Function.update_self]
  -- above the item there are collections then, and no objects before
  have habove := collections_above hE.honest htree hlaysPre he hfitsN hentry
  have hfree : ∀ q ∈ ancestors file, ∀ data, s.nodes q ≠ some (.obj data) := by
    intro q hq data hdata
    obtain ⟨data', hdata'⟩ := hlaysPre.objects q data hdata
    exact nomatch hdata'.symm.trans (habove q hq)
  have hcoll : s.nodes target = some .coll := by
    rw [← habove target (mem_ancestors_join htarget name)]
    refine (hlaysPre.frame target ?_).symm
    rintro ⟨item', -, m, -, heq⟩
    exact join_ne target m heq.symm
  obtain ⟨hparent, hmade, hframe, hcallsMade⟩ := makeParent_above hE htarget hfitsN hfree hcoll
  -- the extraction of the item alone
  have hsame : SameAt file t (makeParent E target name s) := by
    refine ⟨?_, fun _ => ⟨habove _ hparent, hmade⟩⟩
    rw [hlaysPre.frame file hpreplace]
    by_contra hne
    exact ne_of_mem_ancestors (hframe file hne).2 rfl
  obtain ⟨v, hsingle, -, hsame', log, hlog, hlog'⟩ := extractEntry_alike hE hfitsN hsame hentry
  have hlaysV := extractEntry_lays hE.honest he hfitsN hsingle
  refine ⟨⟨.num 0, [item], v⟩, ?_, rfl, ⟨callsAt file log, ?_, ?_⟩, ?_, ?_, fun q hq hchanged => ?_⟩
  · have hread : ∀ k < pre.length, ∃ e, headers (1 + k) = .ok e := fun k hk => by
      obtain ⟨e, -, he, -⟩ := hheaders k (by
        rw [List.length_append]
        omega)
      exact ⟨e, he⟩
    rw [extractLoop_skip hread hpreother]
    exact extractLoop_single hheader hname post _ hsingle
  · have hfull := ((hlaysPre.calls hpreplace).trans ⟨log, hlog, rfl⟩).trans
      (hlaysPost.calls hpostplace)
    rwa [List.nil_append, List.append_nil] at hfull
  · exact hcallsMade.trans ⟨log, hlog', rfl⟩
  · exact hsame'.node.trans (hlaysPost.frame file hpostplace).symm
  · rw [hlaysPost.frame file hpostplace, hnode]
    exact Option.some_ne_none _
  · rw [show v.nodes q = _ from hlaysV.frame q hq] at hchanged ⊢
    obtain ⟨hq', hmem⟩ := hframe q hchanged
    refine ⟨hq', ?_⟩
    rcases mem_ancestors_join_cases hmem with habove' | rfl | hbelow
    · have hs : s.nodes q = some .coll :=
        htree target (by rw [hcoll]; exact Option.some_ne_none _) q habove'
      exact absurd (hq'.trans hs.symm) hchanged
    · exact .inl rfl
    · exact .inr ⟨hmem, hbelow⟩

/-- **What agrees still agrees** when a step that makes no more than the target comes
first, and a step that changes nothing comes last in either. -/
theorem Agrees.enclosed {s t full single full' single' : Session}
    (h : Agrees target name t full single) (hstart : Asks (fun p => p = target) 0 s t)
    (hmade : ∀ q, t.nodes q ≠ s.nodes q → q = target ∧ t.nodes q = some .coll)
    (hfull : Asks (fun p => p = target) 0 full full') (hnodes : full'.nodes = full.nodes)
    (hsingle : Asks (fun p => p = target) 0 single single')
    (hnodes' : single'.nodes = single.nodes) : Agrees target name s full' single' := by
  have hplace : ¬ Text.join target name = target := join_ne target name
  obtain ⟨⟨calls, hcalls, hcalls'⟩, hnode, hthere, hframe⟩ := h
  refine ⟨⟨calls, ?_, ?_⟩, ?_, ?_, fun q hq hchanged => ?_⟩
  · have hall := ((hstart.calls hplace).trans hcalls).trans (hfull.calls hplace)
    rwa [List.nil_append, List.append_nil] at hall
  · have hall := ((hstart.calls hplace).trans hcalls').trans (hsingle.calls hplace)
    rwa [List.nil_append, List.append_nil] at hall
  · rw [hnodes, hnodes']
    exact hnode
  · rw [hnodes]
    exact hthere
  · rw [hnodes'] at hchanged ⊢
    by_cases hlater : single.nodes q = t.nodes q
    · rw [hlater] at hchanged ⊢
      obtain ⟨rfl, hcoll⟩ := hmade q hchanged
      exact ⟨hcoll, .inl rfl⟩
    · exact hframe q hq hlater

end Loop

/-! ## The extraction of a single item -/

section Run

variable {L : Libarchive} {J : Jansson} {archive coll : Text} {calls : List ArchiveCall}
  {stored : Text → Option Node} {data : Bytes} {E : Irods}

/-- Making the target makes no more than the target. -/
theorem collCreate_target (path : Text) (s : Session) :
    let t := (s.collCreate E path false).2
    (Tree s.nodes → Tree t.nodes)
      ∧ ∀ q, t.nodes q ≠ s.nodes q → q = path ∧ t.nodes q = some .coll := by
  intro t
  cases h : s.collCreate E path false with
  | mk r t' =>
    have ht : t = t' := congrArg Prod.snd h
    rw [ht]
    cases r with
    | error f =>
      rw [request_error h]
      exact ⟨fun h => h, fun q hq => absurd rfl hq⟩
    | ok =>
      obtain ⟨hnone, hparent, hnodes⟩ := collCreate_ok h
      rw [hnodes]
      refine ⟨fun htree => htree.update (.inl ⟨hnone, hparent⟩), fun q hq => ?_⟩
      by_cases hpath : q = path
      · subst hpath
        exact ⟨rfl, Function.update_self ..⟩
      · exact absurd (Function.update_of_ne hpath ..) hq

/-- **What an extraction finds in a produced archive** when all items have been passed: the
entries are read, and the items have the names of the calls. -/
theorem Produced.passed (hL : L.ReadsBack) (hJ : J.Lawful)
    (h : Produced L J archive coll calls stored data) {path target : Text} {b : ReadArchive}
    {s s₁ t u : Session} (hopen : openArchive J E (L.entryAt data) path s = .ok (some b, s₁))
    {resource : Option Text} (hpass : Passes E (L.entryAt data) resource target b.items 1 t u) :
    (∀ k < b.items.length, ∃ e p, L.entryAt data (1 + k) = .ok e ∧ Libarchive.Restores p e)
      ∧ b.items.map (fun item => item.stringMember "name".toList)
        = ((indexed archive coll calls).map ArchiveCall.name).map some := by
  constructor
  · intro k hk
    obtain ⟨c, hc, -⟩ := h.call_of_item hL hJ hopen (List.getElem?_eq_getElem hk)
    obtain ⟨e, he, hrestores⟩ := h.header hL hJ hc
    exact ⟨e, _, he, hrestores⟩
  · obtain ⟨hitems, -⟩ := h.opened hL hJ hopen
    rw [List.map_map, ← List.forall₂_eq_eq_eq, List.forall₂_map_left_iff,
      List.forall₂_map_right_iff]
    refine List.Forall₂.imp ?_ ((List.forall₂_and_left _ _).mpr ⟨hpass.named, hitems.flip⟩)
    rintro item c ⟨⟨name, hname⟩, hsame, -⟩
    obtain rfl : c.name = name := ArchiveCall.name_of_stringMember ((hsame _).symm.trans hname)
    exact hname

/-- **Single extraction agrees with full extraction.** Of an archive that has been produced
and whose names are distinct, an item extracted alone is what it is among all items, from
the same calls at its place, wherever the extraction of all items succeeds; and nothing is
extracted under a name that is not in the index. -/
theorem single_extraction_agrees {rows : SpaceQuery} {target name : Text}
    {archiveIn pathIn resourceIn allIn extractIn : MsParam} {s : Session} {r : Extracted}
    (hL : L.ReadsBack) (hJ : J.Lawful) (hE : E.Serves)
    (hproduced : Produced L J archive coll calls stored data)
    (hdistinct : ((indexed archive coll calls).map ArchiveCall.name).Nodup)
    (hpath : pathIn.parseMspForStr = some target) (htarget : target ≠ [])
    (hall : allIn.parseMspForStr = none) (hextract : extractIn.parseMspForStr = some name)
    (hunset : ∀ resource, resourceIn.parseMspForStr = some resource →
      freeSpace rows resource = .num 0)
    (hfits : target.length < Text.maxNameLen ∧ ∀ c ∈ indexed archive coll calls,
      (Text.join target c.name).length < Text.maxNameLen)
    (htree : Tree s.nodes)
    (hfull : msiArchiveExtract J E rows (L.entryAt data) archiveIn pathIn allIn resourceIn s
      = .ok r) (hstatus : r.status.isNeg = false) :
    ∃ r', msiArchiveExtract J E rows (L.entryAt data) archiveIn pathIn extractIn resourceIn s
        = .ok r' ∧ r'.status = .num 0
      ∧ ((∃ c ∈ indexed archive coll calls, c.name = name) →
        Agrees target name s r.session r'.session)
      ∧ ((∀ c ∈ indexed archive coll calls, c.name ≠ name) → ∀ q,
        r'.session.nodes q ≠ s.nodes q → q = target ∧ r'.session.nodes q = some .coll) := by
  obtain ⟨path, _, b, s₁, loop, harchive, hpath', hopen, -, hloop, rfl⟩ :=
    msiArchiveExtract_spec hfull hstatus
  obtain rfl := Option.some.inj (hpath.symm.trans hpath')
  rw [checkSpace_unset hunset, hall, Text.rstrcpy_of_fits hfits.1] at hloop
  set t := (s₁.collCreate E target false).2 with ht
  -- the extraction of all items tells what every turn of it was
  have hread : ∀ k < b.items.length, ∃ e, L.entryAt data (1 + k) = .ok e := by
    intro k hk
    obtain ⟨c, hc, -⟩ := hproduced.call_of_item hL hJ hopen (List.getElem?_eq_getElem hk)
    obtain ⟨e, he, -⟩ := hproduced.header hL hJ hc
    exact ⟨e, he⟩
  have hpass := passes_of_loop hread hloop hstatus
  obtain ⟨hheaders, hnames⟩ := hproduced.passed hL hJ hopen hpass
  have hindex : ∀ m, (∃ item ∈ b.items, item.stringMember "name".toList = some m)
      ↔ ∃ c ∈ indexed archive coll calls, c.name = m := by
    intro m
    have hin := congrArg (fun names => some m ∈ names) hnames
    rw [List.mem_map_of_injective (Option.some_injective _), List.mem_map, List.mem_map] at hin
    exact iff_of_eq hin
  -- before the loop there is the target, and nothing else is new
  have hnodes₁ : s₁.nodes = s.nodes := (objOpen_read_spec (openArchive_spec hopen).1).1
  obtain ⟨htree', hmade⟩ := collCreate_target (E := E) target s₁
  rw [hnodes₁] at htree' hmade
  have hrun : ∀ single, extractLoop E (L.entryAt data) resourceIn.parseMspForStr (some name) target
      0 b.items 1 (.num 0) t = .ok single →
      msiArchiveExtract J E rows (L.entryAt data) archiveIn pathIn extractIn resourceIn s
        = .ok ⟨single.status, some single.status, single.extracted,
          (single.session.objClose E b.path).2⟩ := by
    intro single hsingle
    rw [msiArchiveExtract_eq harchive hpath hopen]
    dsimp only
    rw [hextract, checkSpace_unset hunset, Text.rstrcpy_of_fits hfits.1]
    exact congrArg (Except.map _) hsingle
  by_cases hmem : ∃ c ∈ indexed archive coll calls, c.name = name
  · obtain ⟨item, hitem, hname⟩ := (hindex name).mpr hmem
    obtain ⟨single, hsingle, hzero, hagrees⟩ :=
      extractLoop_agrees hE htarget hheaders (hnames ▸ hdistinct.map (Option.some_injective _))
        (fun item' hitem' m hm => by
          obtain ⟨c, hc, rfl⟩ := (hindex m).mp ⟨item', hitem', hm⟩
          exact hfits.2 c hc)
        (htree' htree) hpass hitem hname
    -- the loop, with the target before it and the closing of the archive after it
    have hstart : Asks (fun p => p = target) 0 s t :=
      ((openArchive_asks hopen).mono (fun _ hp => hp.elim) le_rfl).trans
        (.of_since (since_collCreate ..) (fun p hp => (Option.some.inj hp).symm)) le_rfl
    have hclose : ∀ u : Session, Asks (fun p => p = target) 0 u (u.objClose E b.path).2 :=
      fun u => .of_since (since_objClose ..) (fun p hp => nomatch hp)
    refine ⟨_, hrun single hsingle, hzero, fun _ => ?_, fun hnot => ?_⟩
    · exact hagrees.enclosed hstart hmade (hclose _) (objClose_frame _ E b.path).1 (hclose _)
        (objClose_frame _ E b.path).1
    · obtain ⟨c, hc, rfl⟩ := hmem
      exact absurd rfl (hnot c hc)
  -- no item has the name: all of them are skipped
  · have hskip : extractLoop E (L.entryAt data) resourceIn.parseMspForStr (some name) target 0
        b.items 1 (.num 0) t = .ok ⟨.num 0, [], t⟩ := by
      rw [← List.append_nil b.items]
      refine extractLoop_skip hread (fun item hitem => ?_)
      obtain ⟨m, hm⟩ := hpass.named item hitem
      refine ⟨m, hm, ?_⟩
      rintro rfl
      exact hmem ((hindex m).mp ⟨item, hitem, hm⟩)
    refine ⟨_, hrun _ hskip, rfl, fun h => absurd h hmem, fun _ q hq => ?_⟩
    rw [(objClose_frame t E b.path).1] at hq ⊢
    exact hmade q hq

end Run

/-! ## An item alone, and two that are not extracted so -/

namespace Sample

theorem tree_before (data : Bytes) : Tree (before data).nodes := by
  intro p hp q hq
  have hcases : p = "/z/x.tar".toList ∨ p = "/z".toList := by
    by_contra hne
    rw [not_or] at hne
    exact hp ((if_neg hne.1).trans (if_neg hne.2))
  rcases hcases with rfl | rfl
  · obtain rfl : q = "/z".toList :=
      List.mem_singleton.mp (show q ∈ ["/z".toList] from hq)
    rfl
  · exact absurd (show q ∈ [] from hq) List.not_mem_nil

end Sample

/-- An item of the sample tree, extracted alone. -/
theorem single_extraction_agrees_sample : ∃ (data : Bytes) (r r' : Extracted),
    msiArchiveExtract JsonText.codec .obliging (fun _ => .ok []) (ArchiveText.library.entryAt data)
        (.ofText "/z/x.tar".toList) (.ofText "/z/t".toList) Sample.noParam Sample.noParam
        (Sample.before data) = .ok r
      ∧ msiArchiveExtract JsonText.codec .obliging (fun _ => .ok [])
        (ArchiveText.library.entryAt data) (.ofText "/z/x.tar".toList) (.ofText "/z/t".toList)
        (.ofText "a/f".toList) Sample.noParam (Sample.before data) = .ok r'
      ∧ Agrees "/z/t".toList "a/f".toList (Sample.before data) r.session r'.session := by
  obtain ⟨r₀, hr₀, hstatus₀⟩ := Sample.create_succeeds
  have hfine : (Sample.server (Sample.catalog Sample.object)).Fine r₀.walk :=
    (Sample.server_reliable _).fine r₀.walk
  obtain ⟨data, -, hproduced, hopens⟩ :=
    Sample.created_opens Sample.source_tree (by decide) hr₀ hstatus₀ hfine
  have hopen : (Sample.before data).objOpen .obliging "/z/x.tar".toList false none
      = (.ok (), (Sample.before data).record (.objOpen "/z/x.tar".toList false none) true) := rfl
  obtain ⟨b, hb, hitems, hentries⟩ := hopens hopen
  obtain ⟨r, hr, hstatus⟩ := Sample.extract_tree hopen hb hitems hentries
  have htarget : (MsParam.ofText "/z/t".toList).parseMspForStr = some "/z/t".toList := rfl
  have hname : (MsParam.ofText "a/f".toList).parseMspForStr = some "a/f".toList := rfl
  have hunset : ∀ resource, Sample.noParam.parseMspForStr = some resource →
      freeSpace (fun _ => .ok []) resource = .num 0 := fun _ h => nomatch h
  obtain ⟨r', hr', -, hagrees, -⟩ := single_extraction_agrees ArchiveText.library_readsBack
    JsonText.codec_lawful Irods.obliging_serves hproduced (by decide) htarget (by decide) rfl hname
    hunset (by decide) (Sample.tree_before data) hr (by rw [hstatus]; rfl)
  exact ⟨data, r, r', hr, hr', hagrees (by decide)⟩

namespace Sample

/-- The places before an extraction into a collection below `/z`. -/
def longPlaces (target : Text) (data : Bytes) : Session :=
  .fresh (fun p => if p = target ∨ p = "/z".toList then some .coll
    else if p = "/z/x.tar".toList then some (.obj data) else none)

theorem longPlaces_target (target : Text) (data : Bytes) :
    (longPlaces target data).nodes target = some .coll := by
  unfold longPlaces Session.fresh
  dsimp only
  exact if_pos (.inl rfl)

theorem longPlaces_archive {target : Text} (hlong : target.length = 1087) (data : Bytes) :
    (longPlaces target data).nodes "/z/x.tar".toList = some (.obj data) := by
  unfold longPlaces Session.fresh
  dsimp only
  rw [if_neg (not_or.mpr ⟨ne_longTarget hlong, by decide⟩), if_pos rfl]

/-- Nothing stands below the target. -/
theorem longPlaces_join {target : Text} (hlong : target.length = 1087) (data : Bytes)
    (name : Text) : (longPlaces target data).nodes (Text.join target name) = none := by
  have hlonger : 1087 < (Text.join target name).length := by
    rw [Text.length_join, hlong]
    omega
  unfold longPlaces Session.fresh
  dsimp only
  rw [if_neg, if_neg]
  · intro h
    rw [h] at hlonger
    exact absurd hlonger (by decide)
  · rintro (h | h)
    · exact join_ne _ _ h
    · rw [h] at hlonger
      exact absurd hlonger (by decide)

theorem tree_longPlaces {t : Text} (ht : '/' ∉ t) (data : Bytes) :
    Tree (longPlaces (Text.join "/z".toList t) data).nodes := by
  have hz : (longPlaces (Text.join "/z".toList t) data).nodes "/z".toList = some .coll := by
    unfold longPlaces Session.fresh
    dsimp only
    exact if_pos (.inr rfl)
  have hroot : ancestors "/z".toList = [] := rfl
  intro p hp q hq
  have hparent : Text.parent p = "/z".toList ∨ p = "/z".toList := by
    by_cases hcoll : p = Text.join "/z".toList t ∨ p = "/z".toList
    · exact hcoll.imp_left (fun h => by rw [h, Text.parent_join (by decide) ht])
    · by_cases harchive : p = "/z/x.tar".toList
      · exact .inl (by rw [harchive]; rfl)
      · refine absurd ?_ hp
        unfold longPlaces Session.fresh
        dsimp only
        rw [if_neg hcoll, if_neg harchive]
  rcases hparent with hparent | rfl
  · rcases mem_ancestors_parent hq with rfl | hq
    · rw [hparent, hz]
    · rw [hparent, hroot] at hq
      exact absurd hq List.not_mem_nil
  · rw [hroot] at hq
    exact absurd hq List.not_mem_nil

/-- The extraction of the archive of the tree with one collection returns 0 and has made
it. -/
theorem extract_emptyTree_short {data : Bytes} {b : ReadArchive} {s₁ : Session}
    (hopen : (before data).objOpen .obliging "/z/x.tar".toList false none = (.ok (), s₁))
    (hb : openArchive JsonText.codec .obliging (ArchiveText.library.entryAt data)
      "/z/x.tar".toList (before data) = .ok (some b, s₁))
    (hitems : b.items = [((collection "a".toList 2 []).call JsonText.codec "a".toList).item
      JsonText.codec])
    (hheader : ArchiveText.library.entryAt data 1 = .ok ⟨some "a".toList, true, 0, [], false⟩)
    {extractIn : MsParam} (hall : extractIn.parseMspForStr = none) :
    ∃ r, msiArchiveExtract JsonText.codec .obliging (fun _ => .ok [])
        (ArchiveText.library.entryAt data) (.ofText "/z/x.tar".toList) (.ofText "/z/t".toList)
        extractIn noParam (before data) = .ok r ∧ r.status = .num 0
      ∧ r.session.nodes "/z/t/a".toList = some .coll := by
  obtain rfl := (Prod.mk.inj hopen).2
  obtain ⟨loop, hloop, hstatus, hnode⟩ : ∃ loop, extractLoop .obliging
      (ArchiveText.library.entryAt data) none none "/z/t".toList 0 b.items 1 (.num 0)
      (((before data).record (.objOpen "/z/x.tar".toList false none) true).collCreate .obliging
        "/z/t".toList false).2 = .ok loop ∧ loop.status = .num 0
      ∧ loop.session.nodes "/z/t/a".toList = some .coll := by
    rw [hitems, extractLoop_cons hheader rfl]
    exact ⟨_, rfl, rfl, rfl⟩
  refine ⟨⟨loop.status, some loop.status, loop.extracted,
    (loop.session.objClose .obliging b.path).2⟩, ?_, hstatus, ?_⟩
  · rw [msiArchiveExtract_eq rfl rfl hb, hall]
    exact congrArg (Except.map _) hloop
  · rw [(Session.objClose_frame _ _ _).1]
    exact hnode

end Sample

/-- **A single extraction that does not agree**: where the path of the item is cut off, and
where its name is no name to the parameter, so that all items are extracted. -/
theorem single_extraction_differs :
    (¬ ∀ (L : Libarchive) (J : Jansson) (E : Irods) (rows : SpaceQuery) (archive coll : Text)
      (calls : List ArchiveCall) (stored : Text → Option Node) (data : Bytes)
      (target name : Text) (archiveIn pathIn resourceIn allIn extractIn : MsParam) (s : Session)
      (r : Extracted),
      L.ReadsBack → J.Lawful → E.Serves → Produced L J archive coll calls stored data →
      ((indexed archive coll calls).map ArchiveCall.name).Nodup →
      pathIn.parseMspForStr = some target → target ≠ [] → allIn.parseMspForStr = none →
      extractIn.parseMspForStr = some name → resourceIn.parseMspForStr = none → Tree s.nodes →
      msiArchiveExtract J E rows (L.entryAt data) archiveIn pathIn allIn resourceIn s = .ok r →
      r.status.isNeg = false → (∃ c ∈ indexed archive coll calls, c.name = name) →
      ∃ r', msiArchiveExtract J E rows (L.entryAt data) archiveIn pathIn extractIn resourceIn s
        = .ok r' ∧ Agrees target name s r.session r'.session)
    ∧ ¬ ∀ (L : Libarchive) (J : Jansson) (E : Irods) (rows : SpaceQuery) (archive coll : Text)
      (calls : List ArchiveCall) (stored : Text → Option Node) (data : Bytes)
      (target name : Text) (archiveIn pathIn resourceIn allIn : MsParam) (s : Session)
      (r : Extracted),
      L.ReadsBack → J.Lawful → E.Serves → Produced L J archive coll calls stored data →
      ((indexed archive coll calls).map ArchiveCall.name).Nodup →
      pathIn.parseMspForStr = some target → target ≠ [] → allIn.parseMspForStr = none →
      resourceIn.parseMspForStr = none →
      (target.length < Text.maxNameLen ∧ ∀ c ∈ indexed archive coll calls,
        (Text.join target c.name).length < Text.maxNameLen) → Tree s.nodes →
      msiArchiveExtract J E rows (L.entryAt data) archiveIn pathIn allIn resourceIn s = .ok r →
      r.status.isNeg = false → (∀ c ∈ indexed archive coll calls, c.name ≠ name) →
      ∃ r', msiArchiveExtract J E rows (L.entryAt data) archiveIn pathIn (.ofText name)
          resourceIn s = .ok r' ∧ ∀ q, r'.session.nodes q ≠ s.nodes q →
        q = target ∧ r'.session.nodes q = some .coll := by
  obtain ⟨r₀, hr₀, hstatus₀⟩ := Sample.create_emptyTree
  have hfine : (Sample.server Sample.emptyCatalog).Fine r₀.walk :=
    (Sample.server_reliable _).fine r₀.walk
  obtain ⟨data, -, hproduced, hopens⟩ :=
    Sample.created_opens Sample.source_emptyTree (by decide) hr₀ hstatus₀ hfine
  constructor
  · intro h
    -- the path of the item is cut to that of its target, which is there already
    obtain ⟨t, hlen, hslash⟩ : ∃ t : Text, t.length = 1084 ∧ '/' ∉ t :=
      ⟨List.replicate 1084 't', List.length_replicate,
        fun h => absurd (List.eq_of_mem_replicate h) (by decide)⟩
    have hlong : (Text.join "/z".toList t).length = 1087 := by
      rw [Text.length_join, hlen]
      rfl
    have hnull : Text.join "/z".toList t ≠ "null".toList :=
      fun heq => absurd (List.cons.inj heq).1 (by decide)
    have htree := Sample.tree_longPlaces hslash data
    set target := Text.join "/z".toList t with htarget
    have hopen := Sample.objOpen_there (Sample.longPlaces_archive hlong data)
    obtain ⟨b, hb, hitems, hentries⟩ := hopens hopen
    obtain ⟨r, hr, hstatus, hnodes⟩ := Sample.extract_cut hlong
      (Sample.longPlaces_target target data) hopen hb hitems rfl rfl rfl (hentries 0 _ rfl)
    obtain ⟨r', -, hagrees⟩ := h _ _ _ _ _ _ _ _ data target "a".toList _ _ Sample.noParam
      Sample.noParam (.ofText "a".toList) _ r ArchiveText.library_readsBack JsonText.codec_lawful
      Irods.obliging_serves hproduced (by decide) (MsParam.parseMspForStr_ofText hnull)
      (List.cons_ne_nil _ _) rfl rfl rfl htree hr (by rw [hstatus]; rfl) (by decide)
    refine hagrees.there ?_
    rw [hnodes, Sample.longPlaces_join hlong]
  · intro h
    -- a parameter that is the text `null` is read as none, and so everything is extracted
    have hopen : (Sample.before data).objOpen .obliging "/z/x.tar".toList false none
        = (.ok (), (Sample.before data).record (.objOpen "/z/x.tar".toList false none) true) := rfl
    obtain ⟨b, hb, hitems, hentries⟩ := hopens hopen
    have hheader := hentries 0 _ rfl
    obtain ⟨r, hr, hstatus, -⟩ := Sample.extract_emptyTree_short hopen hb hitems hheader
      (show Sample.noParam.parseMspForStr = none from rfl)
    obtain ⟨r', hr', -, hnode⟩ := Sample.extract_emptyTree_short hopen hb hitems hheader
      (show (MsParam.ofText "null".toList).parseMspForStr = none from rfl)
    obtain ⟨r'', hr'', hframe⟩ := h _ _ _ _ _ _ _ _ data "/z/t".toList "null".toList _ _
      Sample.noParam Sample.noParam _ r ArchiveText.library_readsBack JsonText.codec_lawful
      Irods.obliging_serves hproduced (by decide) rfl (by decide) rfl rfl (by decide)
      (Sample.tree_before data) hr (by rw [hstatus]; rfl) (by decide)
    obtain rfl : r' = r'' := Except.ok.inj (hr'.symm.trans hr'')
    have hchanged : r'.session.nodes "/z/t/a".toList ≠ (Sample.before data).nodes "/z/t/a".toList :=
      fun heq => absurd (hnode.symm.trans heq) (fun h => nomatch h)
    exact absurd (hframe _ hchanged).1 (by decide)
