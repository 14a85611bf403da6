import IrodsMicroservices.Descriptors
import IrodsMicroservices.ForeignArchive

/-!
# Extractions that end early

An extraction of a whole archive may end at any item: for an error of iRODS or of
libarchive, or because a header is not read. What it leaves then is what the items
before have laid out (`extractLoop_partial`), with one exception: the data object of the
item that has failed may be there with a start of its data, in the place of the object
that has been there before.
-/

/-- What the items of an index lay out, one after the other, from the header `n` on. -/
def layout (headers : ℕ → HeaderResult) : List Json → ℕ → List (Text × Node)
  | [], _ => []
  | json :: items, n =>
    match headers n, json.stringMember "name".toList with
    | .ok e, some name => (name, e.node) :: layout headers items (n + 1)
    | _, _ => []

/-- No block is empty: `archive_read_data` returns 0 at the end only. -/
def NoEmptyBlock (headers : ℕ → HeaderResult) : Prop :=
  ∀ n e, headers n = .ok e → [] ∉ e.blocks

/-- An object with a start of the data of an entry. -/
def PartOf (e : ReadEntry) (node : Option Node) : Prop :=
  e.isDir = false ∧ ∃ data, data <+: e.blocks.flatten ∧ node = some (.obj data)

theorem layout_cons {headers : ℕ → HeaderResult} {n : ℕ} {e : ReadEntry} {json : Json}
    {name : Text} (hheader : headers n = .ok e)
    (hname : json.stringMember "name".toList = some name) (items : List Json) :
    layout headers (json :: items) n = (name, e.node) :: layout headers items (n + 1) := by
  rw [layout, hheader, hname]

/-! ## One item -/

section Item

variable {E : Irods} {resource : Option Text}

/-- Blocks written one after the other leave a start of them, however it ends. -/
theorem writeBlocks_part (hE : E.Honest) {path : Text} {fails : Bool} {blocks : List Bytes} :
    ∀ {data : Bytes} {s s' : Session} {x : Except Failure Unit}, [] ∉ blocks →
      s.nodes path = some (.obj data) → writeBlocks E path fails blocks s = (x, s') →
      ∃ part, part <+: blocks.flatten ∧ s'.nodes path = some (.obj (data ++ part)) := by
  have hclose : ∀ {s : Session} {data : Bytes}, s.nodes path = some (.obj data) →
      ∃ part, part <+: ([] : Bytes)
        ∧ (s.objClose E path).2.nodes path = some (.obj (data ++ part)) := by
    intro s data hs
    refine ⟨[], List.prefix_rfl, ?_⟩
    rw [(Session.objClose_frame s E path).1, hs, List.append_nil]
  induction blocks with
  | nil =>
    intro data s s' x _ hs h
    unfold writeBlocks at h
    have hend := hclose hs
    split at h
    · obtain ⟨-, rfl⟩ := Prod.mk.inj h
      exact hend
    · rwa [h] at hend
  | cons block blocks ih =>
    intro data s s' x hempty hs h
    rw [List.mem_cons, not_or] at hempty
    cases block with
    | nil => exact absurd rfl hempty.1
    | cons b buf =>
      unfold writeBlocks at h
      cases hwrite : s.objWrite E path (b :: buf) with
      | mk y t =>
        rw [hwrite] at h
        cases y with
        | error f =>
          obtain ⟨-, rfl⟩ := Prod.mk.inj h
          have hkept : t.nodes path = some (.obj data) := by
            rw [Session.request_error hwrite]
            exact hs
          obtain ⟨part, hpart, hnode⟩ := hclose hkept
          exact ⟨part, hpart.trans List.nil_prefix, hnode⟩
        | ok n =>
          obtain ⟨-, hnodes⟩ := objWrite_whole hE hs hwrite
          have ht : t.nodes path = some (.obj (data ++ b :: buf)) := by
            rw [hnodes, Function.update_self]
          obtain ⟨part, hpart, hnode⟩ := ih hempty.2 ht h
          refine ⟨b :: buf ++ part, ?_, by rw [hnode, List.append_assoc]⟩
          rw [List.flatten_cons]
          exact (List.prefix_append_right_inj _).mpr hpart

/-- **What an item leaves**: its entry, where no error is returned, and else nothing or a
part of it. -/
theorem extractItem_part (hE : E.Honest) {e : ReadEntry} (hblocks : [] ∉ e.blocks) {file : Text}
    (hfits : file.length < Text.maxNameLen) {s s' : Session} {x : Except Failure Unit}
    (h : extractItem E resource e file s = (x, s')) :
    (x = .ok () → s'.nodes file = some e.node)
      ∧ ∀ f, x = .error f → s'.nodes file = s.nodes file ∨ PartOf e (s'.nodes file) := by
  unfold extractItem at h
  rw [Text.rstrcpy_of_fits hfits] at h
  unfold ReadEntry.node PartOf
  cases hdir : e.isDir with
  | true =>
    rw [hdir, if_pos rfl] at h
    rw [if_pos rfl]
    cases hcreate : s.collCreate E file false with
    | mk y t =>
      obtain ⟨-, hok, herror⟩ := collCreate_spec hE hcreate
      rw [hcreate] at h
      cases y with
      | ok =>
        obtain ⟨rfl, rfl⟩ := Prod.mk.inj h
        refine ⟨fun _ => ?_, fun f hf => (by cases hf)⟩
        rw [hok rfl, Function.update_self]
      | error f =>
        obtain ⟨hnodes, hexists⟩ := herror f rfl
        dsimp only at h
        split at h
        · rename_i hstatus
          obtain ⟨rfl, rfl⟩ := Prod.mk.inj h
          refine ⟨fun _ => ?_, fun f hf => (by cases hf)⟩
          rw [hnodes, hexists hstatus]
        · obtain ⟨rfl, rfl⟩ := Prod.mk.inj h
          exact ⟨fun hx => (by cases hx), fun _ _ => .inl (congrFun hnodes file)⟩
  | false =>
    rw [hdir, if_neg Bool.false_ne_true] at h
    rw [if_neg Bool.false_ne_true]
    cases hcreat : creat E file resource s with
    | mk y t =>
      obtain ⟨-, hfailed, hok⟩ := creat_spec hcreat
      rw [hcreat] at h
      cases y with
      | error f =>
        obtain ⟨rfl, rfl⟩ := Prod.mk.inj h
        exact ⟨fun hx => (by cases hx), fun _ _ => .inl (congrFun (hfailed f rfl) file)⟩
      | ok =>
        obtain ⟨-, hnodes⟩ := hok rfl
        rw [Text.rstrcpy_of_fits hfits] at hnodes
        have ht : t.nodes file = some (.obj []) := by rw [hnodes, Function.update_self]
        refine ⟨fun hx => ?_, fun f _ => .inr ⟨rfl, ?_⟩⟩
        · obtain rfl := hx
          obtain ⟨-, hwritten⟩ := writeBlocks_ok hE hblocks ht h
          rw [hwritten, Function.update_self, List.nil_append]
        · exact writeBlocks_part hE hblocks ht h

/-- What an item leaves elsewhere. -/
theorem extractEntry_frame {e : ReadEntry} {file : Text} (hfits : file.length < Text.maxNameLen)
    {json : Json} {s s' : Session} {x : Except Failure Unit}
    (h : extractEntry E resource file e json s = .ok (x, s')) {q : Text} (hq : q ≠ file) :
    s'.nodes q = s.nodes q ∧ s'.avus q = s.avus q := by
  have hpath : Text.rstrcpy file = file := Text.rstrcpy_of_fits hfits
  have hheld : ([] : List Text).length < 2 := Nat.two_pos
  have hitem : Session.Handled (fun p => p = file) [] [] s s' :=
    handled_extractEntry (D := fun p => p = file) hpath rfl hheld h
  exact hitem.confined q hq

/-- What an item leaves at its path, with its metadata. -/
theorem extractEntry_part (hE : E.Honest) {e : ReadEntry} (hblocks : [] ∉ e.blocks) {file : Text}
    (hfits : file.length < Text.maxNameLen) {json : Json} {s s' : Session}
    {x : Except Failure Unit} (h : extractEntry E resource file e json s = .ok (x, s')) :
    (x = .ok () → s'.nodes file = some e.node)
      ∧ ∀ f, x = .error f → s'.nodes file = s.nodes file ∨ PartOf e (s'.nodes file) := by
  obtain ⟨f, hitem, rfl⟩ | ⟨t, hitem, hset, rfl⟩ := extractEntry_cases h
  · exact extractItem_part hE hblocks hfits hitem
  · refine ⟨fun _ => ?_, fun f hf => (by cases hf)⟩
    rw [(setMetadata_frame hset).1]
    exact (extractItem_part hE hblocks hfits hitem).1 rfl

end Item

/-! ## The loop -/

/-- The paths of the items below a target fit. -/
def PathsFit (target : Text) (items : List Json) : Prop :=
  ∀ item ∈ items, ∀ name, item.stringMember "name".toList = some name →
    (Text.join target name).length < Text.maxNameLen

/-- **Where the loop ends**, the items before have been laid out, and the item it ends at
has left nothing or a part of its data. -/
theorem extractLoop_partial {E : Irods} (hE : E.Honest) {headers : ℕ → HeaderResult}
    (hblocks : NoEmptyBlock headers) {resource : Option Text} {target : Text} {space : ℤ}
    {items : List Json} :
    ∀ {n : ℕ} {status : Status} {s : Session} {r : Extraction}, PathsFit target items →
      extractLoop E headers resource none target space items n status s = .ok r →
      r.extracted <+: items
        ∧ ∀ q, r.session.nodes q = lay target (layout headers r.extracted n) s.nodes q
          ∨ ∃ item name e, items[r.extracted.length]? = some item
            ∧ item.stringMember "name".toList = some name ∧ q = Text.join target name
            ∧ headers (n + r.extracted.length) = .ok e ∧ PartOf e (r.session.nodes q) := by
  induction items with
  | nil =>
    intro n status s r _ h
    obtain rfl := Except.ok.inj h
    exact ⟨List.nil_prefix, fun q => .inl rfl⟩
  | cons json items ih =>
    intro n status s r hfits h
    cases hheader : headers n with
    | ok e =>
      cases hname : json.stringMember "name".toList with
      | none =>
        rw [extractLoop_nameless hheader hname] at h
        cases h
      | some name =>
        rw [extractLoop_cons (n := n) hheader hname] at h
        have hfits' := hfits json List.mem_cons_self name hname
        cases hentry : extractEntry E resource (Text.join target name) e json s with
        | error fault =>
          rw [hentry] at h
          cases h
        | ok p =>
          obtain ⟨x, t⟩ := p
          obtain ⟨hdone, hfailed⟩ := extractEntry_part hE (hblocks n e hheader) hfits' hentry
          have hframe : ∀ q, q ≠ Text.join target name → t.nodes q = s.nodes q :=
            fun q hq => (extractEntry_frame hfits' hentry hq).1
          rw [hentry] at h
          cases x with
          | error f =>
            obtain rfl := Except.ok.inj h
            refine ⟨List.nil_prefix, fun q => ?_⟩
            by_cases hq : q = Text.join target name
            · subst hq
              refine (hfailed f rfl).imp id (fun hpart => ?_)
              exact ⟨json, name, e, rfl, hname, rfl, hheader, hpart⟩
            · exact .inl (hframe q hq)
          | ok =>
            dsimp only at h
            cases hloop : extractLoop E headers resource none target space items (n + 1) (.num 0)
                t with
            | error fault =>
              rw [hloop] at h
              cases h
            | ok r' =>
              rw [hloop] at h
              obtain rfl := Except.ok.inj h
              obtain ⟨hstart, hnodes⟩ := ih
                (fun item hitem => hfits item (List.mem_cons_of_mem _ hitem)) hloop
              refine ⟨(List.cons_prefix_cons).mpr ⟨rfl, hstart⟩, fun q => ?_⟩
              have hlaid : t.nodes = Function.update s.nodes (Text.join target name)
                  (some e.node) := by
                funext p
                by_cases hp : p = Text.join target name
                · rw [hp, hdone rfl, Function.update_self]
                · rw [hframe p hp, Function.update_of_ne hp]
              refine (hnodes q).imp (fun hq => ?_) (fun hq => ?_)
              · show r'.session.nodes q = lay target (layout headers (json :: r'.extracted) n) _ q
                rw [hq, layout_cons hheader hname, hlaid]
                rfl
              · obtain ⟨item, name', e', hitem, hname', hq, hheader', hpart⟩ := hq
                refine ⟨item, name', e', hitem, hname', hq, ?_, hpart⟩
                rw [← hheader']
                show headers (n + (r'.extracted.length + 1)) = _
                rw [Nat.add_comm r'.extracted.length 1, Nat.add_assoc]
    | _ =>
      rw [extractLoop_stop (by simp [hheader])] at h
      obtain rfl := Except.ok.inj h
      exact ⟨List.nil_prefix, fun q => .inl rfl⟩

/-- The entries of an archive as text have no empty block. -/
theorem ArchiveText.noEmptyBlock (stream : Bytes) :
    NoEmptyBlock (ArchiveText.library.entryAt stream) := by
  intro n e h
  have hjson : ∀ v, ArchiveText.ofJson v = some e → [] ∉ e.blocks := by
    intro v hv
    unfold ArchiveText.ofJson at hv
    split at hv
    · obtain rfl := Option.some.inj hv
      dsimp only
      split
      · exact List.not_mem_nil
      · rename_i hdata
        exact fun hmem => hdata (List.mem_singleton.mp hmem).symm
    · cases hv
  change ArchiveText.entryAt stream n = _ at h
  unfold ArchiveText.entryAt at h
  split at h
  · rename_i es _
    cases hget : es[n]? with
    | none =>
      rw [hget] at h
      cases h
    | some v =>
      rw [hget] at h
      dsimp only at h
      cases hv : ArchiveText.ofJson v with
      | none =>
        rw [hv] at h
        cases h
      | some e' =>
        rw [hv] at h
        obtain rfl := HeaderResult.ok.inj h
        exact hjson v hv
  · cases h

/-! ## The service -/

/-- **Whatever ends an extraction of a whole archive**, what is there is what the items
before have laid out, one after the other, and at the place of the next item at most a
part of its data more. -/
theorem extraction_partial {J : Jansson} {E : Irods} {rows : SpaceQuery}
    {headers : ℕ → HeaderResult} {archiveIn pathIn extractIn resourceIn : MsParam}
    {archive path : Text} {a : ReadArchive} {s s₁ : Session} {r : Extracted} (hE : E.Honest)
    (hblocks : NoEmptyBlock headers) (harchive : archiveIn.parseMspForStr = some archive)
    (hpath : pathIn.parseMspForStr = some path) (hall : extractIn.parseMspForStr = none)
    (hopen : openArchive J E headers archive s = .ok (some a, s₁))
    (hfits : path.length < Text.maxNameLen ∧ PathsFit path a.items)
    (h : msiArchiveExtract J E rows headers archiveIn pathIn extractIn resourceIn s = .ok r) :
    r.extracted <+: a.items
      ∧ ∀ q, q ≠ path →
        r.session.nodes q = lay path (layout headers r.extracted 1) s.nodes q
        ∨ ∃ item name e, a.items[r.extracted.length]? = some item
          ∧ item.stringMember "name".toList = some name ∧ q = Text.join path name
          ∧ headers (1 + r.extracted.length) = .ok e ∧ PartOf e (r.session.nodes q) := by
  have hopened : s₁.nodes = s.nodes := (Session.objOpen_read_spec (openArchive_spec hopen).1).1
  rw [msiArchiveExtract_eq harchive hpath hopen, hall] at h
  dsimp only at h
  split at h
  · obtain rfl := Except.ok.inj h
    refine ⟨List.nil_prefix, fun q _ => .inl ?_⟩
    exact (congrFun (Session.objClose_frame s₁ E a.path).1 q).trans (congrFun hopened q)
  · cases hloop : extractLoop E headers resourceIn.parseMspForStr none path
        (checkSpace rows resourceIn.parseMspForStr none a.dataSize).2 a.items 1
        (checkSpace rows resourceIn.parseMspForStr none a.dataSize).1
        (s₁.collCreate E (Text.rstrcpy path) false).2 with
    | error fault =>
      rw [hloop] at h
      cases h
    | ok r' =>
      rw [hloop] at h
      obtain rfl := Except.ok.inj h
      obtain ⟨hstart, hnodes⟩ := extractLoop_partial hE hblocks hfits.2 hloop
      refine ⟨hstart, fun q hq => ?_⟩
      have hbefore : (s₁.collCreate E (Text.rstrcpy path) false).2.nodes q = s.nodes q := by
        rw [Text.rstrcpy_of_fits hfits.1, collCreate_frame hE hq, hopened]
      show (r'.session.objClose E a.path).2.nodes q = _ ∨ _
      rw [(Session.objClose_frame r'.session E a.path).1, ← lay_congr _ hbefore]
      exact hnodes q

namespace Sample

theorem twoItems_fit : PathsFit "/z/t".toList twoItems := by
  intro item hitem name hname
  simp only [twoItems, List.mem_cons, List.not_mem_nil, or_false] at hitem
  rcases hitem with rfl | rfl
  · obtain rfl := Option.some.inj hname
    decide
  · obtain rfl := Option.some.inj hname
    decide

theorem twoHeaders_noEmptyBlock : NoEmptyBlock twoHeaders := by
  intro n e h
  match n with
  | 0 =>
    obtain rfl := HeaderResult.ok.inj h
    exact fun hmem => nomatch List.mem_singleton.mp hmem
  | 1 =>
    obtain rfl := HeaderResult.ok.inj h
    exact List.not_mem_nil
  | 2 =>
    obtain rfl := HeaderResult.ok.inj h
    decide
  | n + 3 => exact nomatch h

end Sample

/-- An extraction that ends at the second item, after a part of its data. -/
theorem extraction_partial_sample : ∃ r : Extracted,
    Sample.extractTwo (.refusing 6) = .ok r ∧ r.status = .named .sysRescQuotaExceeded
      ∧ r.extracted.length = 1
      ∧ r.session.nodes "/z/t/a/f".toList = some (.obj "he".toList)
      ∧ r.extracted <+: Sample.twoItems
      ∧ ∀ q, q ≠ "/z/t".toList →
        r.session.nodes q = lay "/z/t".toList (layout Sample.twoHeaders r.extracted 1)
            Sample.places.nodes q
        ∨ ∃ item name e, Sample.twoItems[r.extracted.length]? = some item
          ∧ item.stringMember "name".toList = some name ∧ q = Text.join "/z/t".toList name
          ∧ Sample.twoHeaders (1 + r.extracted.length) = .ok e
          ∧ PartOf e (r.session.nodes q) := by
  obtain ⟨a, s₁, r, hopen, hitems, hr, hstatus, hlen, hpart⟩ := Sample.extractTwo_stopped
  refine ⟨r, hr, hstatus, hlen, hpart, ?_⟩
  rw [← hitems]
  exact extraction_partial (Irods.refusing_honest 6) Sample.twoHeaders_noEmptyBlock rfl rfl rfl
    hopen ⟨by decide, hitems ▸ Sample.twoItems_fit⟩ hr
