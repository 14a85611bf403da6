import IrodsMicroservices.ArchiveExtract

/-!
# What an extraction lays out

An entry that is extracted without an error is there afterwards, as a collection or as a
data object with its data, and nothing else has changed (`extractItem_ok`,
`extractEntry_ok`). This asks of the server that it stores all of what is written and
says that a collection is there only where it is (`Irods.Honest`).

So the loop lays the entries out below the target, one after the other, each under the
name of the item at its place (`extractLoop_lay`).
-/

/-! ## What extracting an entry does -/

/-- **A server that stores all of what is written**, and says that a collection is there
only where it is. -/
def Irods.Honest (E : Irods) : Prop :=
  ∀ n, E.short n = none
    ∧ ∀ f, E.deny n = some f → f.status ≠ .named .catalogAlreadyHasItemByThatName

theorem Irods.obliging_honest : obliging.Honest :=
  fun _ => ⟨rfl, fun _ h => absurd h (by simp [obliging])⟩

theorem Irods.refusing_honest (n : ℕ) : (refusing n).Honest := by
  refine fun m => ⟨rfl, fun f hf => ?_⟩
  unfold refusing at hf
  dsimp only at hf
  split at hf
  · obtain rfl := Option.some.inj hf
    simp
  · cases hf

section Extract

variable {E : Irods}

/-- Making a collection leaves a collection where it succeeds, and one is there where
an honest server says so. -/
theorem collCreate_spec (hE : E.Honest) {path : Text} {s s' : Session} {r : Except Failure Unit}
    (h : s.collCreate E path false = (r, s')) :
    s'.avus = s.avus
      ∧ (r = .ok () → s'.nodes = Function.update s.nodes path (some .coll))
      ∧ ∀ f, r = .error f → s'.nodes = s.nodes
        ∧ (f.status = .named .catalogAlreadyHasItemByThatName → s.nodes path = some .coll) := by
  cases r with
  | ok =>
    obtain ⟨t, ht, rfl⟩ := Session.request_ok h
    split at ht
    · exact nomatch ht
    · exact nomatch ht
    · rw [if_neg Bool.false_ne_true] at ht
      split at ht
      · obtain ⟨-, rfl⟩ := Prod.mk.inj (Except.ok.inj ht)
        exact ⟨rfl, fun _ => rfl, fun _ h => nomatch h⟩
      · exact nomatch ht
  | error f =>
    rw [Session.request_error h]
    refine ⟨rfl, fun h => (nomatch h), ?_⟩
    rintro _ ⟨⟩
    refine ⟨rfl, fun hstatus => ?_⟩
    rcases Session.request_error_cases h with hdeny | hanswer
    · exact absurd hstatus ((hE _).2 f hdeny)
    · split at hanswer
      · assumption
      · obtain rfl := Except.error.inj hanswer
        exact absurd hstatus (by simp)
      · rw [if_neg Bool.false_ne_true] at hanswer
        split at hanswer
        · exact nomatch hanswer
        · obtain rfl := Except.error.inj hanswer
          exact absurd hstatus (by simp)

/-- Making a collection changes nothing elsewhere. -/
theorem collCreate_frame (hE : E.Honest) {path q : Text} (hq : q ≠ path) (s : Session) :
    (s.collCreate E path false).2.nodes q = s.nodes q := by
  cases h : s.collCreate E path false with
  | mk r t =>
    obtain ⟨-, hok, herror⟩ := collCreate_spec hE h
    cases r with
    | ok => exact (congrFun (hok rfl) q).trans (Function.update_of_ne hq ..)
    | error f => exact congrFun (herror f rfl).1 q

/-- An honest server stores a block behind what the object holds. -/
theorem objWrite_whole (hE : E.Honest) {path : Text} {buf data : Bytes} {n : ℕ} {s s' : Session}
    (hs : s.nodes path = some (.obj data)) (h : s.objWrite E path buf = (.ok n, s')) :
    s'.avus = s.avus ∧ s'.nodes = Function.update s.nodes path (some (.obj (data ++ buf))) := by
  have hstored : s.stored E buf.length = buf.length := by
    unfold Session.stored
    rw [(hE _).1]
  obtain ⟨t, ht, rfl⟩ := Session.request_ok h
  rw [hs] at ht
  dsimp only at ht
  rw [hstored, List.take_length] at ht
  obtain ⟨-, rfl⟩ := Prod.mk.inj (Except.ok.inj ht)
  exact ⟨rfl, rfl⟩

/-- **The blocks of an entry are stored one behind the other**, where no error is
returned. -/
theorem writeBlocks_ok (hE : E.Honest) {path : Text} {fails : Bool} {blocks : List Bytes} :
    ∀ {data : Bytes} {s s' : Session}, [] ∉ blocks → s.nodes path = some (.obj data) →
      writeBlocks E path fails blocks s = (.ok (), s') →
      s'.avus = s.avus
        ∧ s'.nodes = Function.update s.nodes path (some (.obj (data ++ blocks.flatten))) := by
  have hclose : ∀ {s s' : Session}, s.objClose E path = (.ok (), s') →
      s'.avus = s.avus ∧ s'.nodes = s.nodes := by
    intro s s' h
    obtain ⟨t, ht, rfl⟩ := Session.request_ok h
    obtain ⟨-, rfl⟩ := Prod.mk.inj (Except.ok.inj ht)
    exact ⟨rfl, rfl⟩
  induction blocks with
  | nil =>
    intro data s s' _ hs h
    unfold writeBlocks at h
    split at h
    · exact nomatch (Prod.mk.inj h).1
    · obtain ⟨havus, hnodes⟩ := hclose h
      refine ⟨havus, ?_⟩
      rw [hnodes, List.flatten_nil, List.append_nil, ← hs, Function.update_eq_self]
  | cons block blocks ih =>
    intro data s s' hempty hs h
    rw [List.mem_cons, not_or] at hempty
    cases block with
    | nil => exact absurd rfl hempty.1
    | cons b buf =>
      unfold writeBlocks at h
      split at h
      · exact nomatch (Prod.mk.inj h).1
      · rename_i n t hwrite
        obtain ⟨havus, hnodes⟩ := objWrite_whole hE hs hwrite
        have ht : t.nodes path = some (.obj (data ++ b :: buf)) := by
          rw [hnodes, Function.update_self]
        obtain ⟨havus', hnodes'⟩ := ih hempty.2 ht h
        refine ⟨havus'.trans havus, ?_⟩
        rw [hnodes', hnodes, Function.update_idem, List.flatten_cons, List.append_assoc]

/-- What an entry leaves where it is extracted. -/
def entryNode (p : EntryHeader × Bytes) : Node := if p.1.isDir then .coll else .obj p.2

/-- **An entry that is extracted is laid down at its path**, and nothing else changes. -/
theorem extractItem_ok (hE : E.Honest) {resource : Option Text} {e : ReadEntry}
    {p : EntryHeader × Bytes} (he : Libarchive.Restores p e) {file : Text}
    (hfits : file.length < Text.maxNameLen) {s s' : Session}
    (h : extractItem E resource e file s = (.ok (), s')) :
    s'.avus = s.avus ∧ s'.nodes = Function.update s.nodes file (some (entryNode p)) := by
  obtain ⟨hdir, -, hdata, hempty, -⟩ := he
  unfold extractItem at h
  rw [Text.rstrcpy_of_fits hfits] at h
  unfold entryNode
  rw [← hdir]
  split at h
  · rename_i hisDir
    rw [if_pos hisDir]
    split at h
    · rename_i f t hcreate
      obtain ⟨havus, -, herror⟩ := collCreate_spec hE hcreate
      obtain ⟨hnodes, hexists⟩ := herror f rfl
      split at h
      · rename_i hstatus
        obtain ⟨-, rfl⟩ := Prod.mk.inj h
        refine ⟨havus, ?_⟩
        rw [hnodes, ← hexists hstatus, Function.update_eq_self]
      · exact nomatch (Prod.mk.inj h).1
    · obtain ⟨havus, hok, -⟩ := collCreate_spec hE h
      exact ⟨havus, hok rfl⟩
  · rename_i hisDir
    rw [if_neg hisDir]
    split at h
    · exact nomatch (Prod.mk.inj h).1
    · rename_i t hcreat
      obtain ⟨havus, -, hok⟩ := creat_spec hcreat
      obtain ⟨-, hnodes⟩ := hok rfl
      rw [Text.rstrcpy_of_fits hfits] at hnodes
      have ht : t.nodes file = some (.obj []) := by rw [hnodes, Function.update_self]
      obtain ⟨havus', hnodes'⟩ := writeBlocks_ok hE hempty ht h
      refine ⟨havus'.trans havus, ?_⟩
      rw [hnodes', hnodes, Function.update_idem, hdata, List.nil_append]

/-- Metadata is set at its path only, and changes nothing else there. -/
theorem modAvuMetadata_frame (op : AvuOp) (isColl : Bool) (file : Text)
    (name value unit : Option Text) (s : Session) :
    let s' := (s.modAvuMetadata E op isColl file name value unit).2
    s'.nodes = s.nodes ∧ ∀ q, q ≠ file → s'.avus q = s.avus q := by
  dsimp only
  cases h : s.modAvuMetadata E op isColl file name value unit with
  | mk r s' =>
    cases r with
    | ok =>
      obtain ⟨t, ht, rfl⟩ := Session.request_ok h
      split at ht
      · obtain ⟨-, rfl⟩ := Prod.mk.inj (Except.ok.inj ht)
        exact ⟨rfl, fun q hq => Function.update_of_ne hq ..⟩
      · exact nomatch ht
    | error f =>
      rw [Session.request_error h]
      exact ⟨rfl, fun _ _ => rfl⟩

theorem attributesLoop_frame (file : Text) (isColl : Bool) : ∀ (list : List Json)
    (prev : Option Text) {s s' : Session}, attributesLoop E file isColl prev list s = .ok s' →
    s'.nodes = s.nodes ∧ ∀ q, q ≠ file → s'.avus q = s.avus q := by
  intro list
  induction list with
  | nil =>
    intro prev s s' h
    obtain rfl := Except.ok.inj h
    exact ⟨rfl, fun _ _ => rfl⟩
  | cons json list ih =>
    intro prev s s' h
    unfold attributesLoop at h
    dsimp only at h
    split at h
    · exact nomatch h
    · obtain ⟨hnodes, havus⟩ := ih _ h
      exact ⟨hnodes.trans (modAvuMetadata_frame ..).1,
        fun q hq => (havus q hq).trans ((modAvuMetadata_frame ..).2 q hq)⟩

theorem setMetadata_frame {file : Text} {json : Json} {s s' : Session}
    (h : setMetadata E file json s = .ok s') :
    s'.nodes = s.nodes ∧ ∀ q, q ≠ file → s'.avus q = s.avus q := by
  have hmodify : (s.modify E file json).nodes = s.nodes ∧ (s.modify E file json).avus = s.avus := by
    unfold Session.modify
    cases h : s.modDataObjMeta E (Text.rstrcpy file) (json.integerMember "modified".toList) with
    | mk r t =>
      cases r with
      | ok =>
        obtain ⟨u, hu, rfl⟩ := Session.request_ok h
        obtain ⟨-, rfl⟩ := Prod.mk.inj (Except.ok.inj hu)
        exact ⟨rfl, rfl⟩
      | error f =>
        rw [Session.request_error h]
        exact ⟨rfl, rfl⟩
  unfold setMetadata at h
  split at h
  · exact nomatch h
  · rename_i type _
    dsimp only at h
    have hstart : (if decide (type = "coll".toList) = true then s else s.modify E file json).nodes
          = s.nodes
        ∧ (if decide (type = "coll".toList) = true then s else s.modify E file json).avus
          = s.avus := by
      split
      · exact ⟨rfl, rfl⟩
      · exact hmodify
    split at h
    · obtain rfl := Except.ok.inj h
      exact ⟨hstart.1, fun q _ => congrFun hstart.2 q⟩
    · obtain ⟨hnodes, havus⟩ := attributesLoop_frame _ _ _ _ h
      exact ⟨hnodes.trans hstart.1, fun q hq => (havus q hq).trans (congrFun hstart.2 q)⟩

/-- **An entry that is extracted with its metadata** is laid down at its path. -/
theorem extractEntry_ok (hE : E.Honest) {resource : Option Text} {e : ReadEntry}
    {p : EntryHeader × Bytes} (he : Libarchive.Restores p e) {file : Text}
    (hfits : file.length < Text.maxNameLen) {json : Json} {s s' : Session}
    (h : extractEntry E resource file e json s = .ok (.ok (), s')) :
    s'.nodes = Function.update s.nodes file (some (entryNode p))
      ∧ ∀ q, q ≠ file → s'.avus q = s.avus q := by
  obtain ⟨t, hitem, hset⟩ := extractEntry_ok_iff.mp h
  obtain ⟨havus, hnodes⟩ := extractItem_ok hE he hfits hitem
  obtain ⟨hnodes', havus'⟩ := setMetadata_frame hset
  exact ⟨hnodes'.trans hnodes, fun q hq => (havus' q hq).trans (congrFun havus q)⟩

end Extract

/-! ## The loop -/

/-- The namespace with some items laid out below a target, one after the other. -/
def lay (target : Text) (items : List (Text × Node)) (nodes : Text → Option Node) :
    Text → Option Node :=
  items.foldl (fun nodes p => Function.update nodes (Text.join target p.1) (some p.2)) nodes

theorem lay_of_not_mem {target q : Text} {items : List (Text × Node)}
    (h : ∀ p ∈ items, q ≠ Text.join target p.1) : ∀ nodes, lay target items nodes q = nodes q := by
  induction items with
  | nil => exact fun _ => rfl
  | cons p items ih =>
    intro nodes
    rw [List.forall_mem_cons] at h
    exact (ih h.2 _).trans (Function.update_of_ne h.1 ..)

/-- What is laid out does not depend on what was at another place. -/
theorem lay_congr {target q : Text} (items : List (Text × Node)) :
    ∀ {nodes nodes' : Text → Option Node}, nodes q = nodes' q →
      lay target items nodes q = lay target items nodes' q := by
  induction items with
  | nil => exact fun h => h
  | cons p items ih =>
    intro nodes nodes' h
    refine ih ?_
    show Function.update nodes _ _ q = Function.update nodes' _ _ q
    by_cases hq : q = Text.join target p.1
    · rw [hq, Function.update_self, Function.update_self]
    · rw [Function.update_of_ne hq, Function.update_of_ne hq, h]

/-- Items with paths of their own are all there in the end. -/
theorem lay_of_mem {target : Text} {items : List (Text × Node)}
    (hnodup : (items.map Prod.fst).Nodup) {p : Text × Node} (hp : p ∈ items) :
    ∀ nodes, lay target items nodes (Text.join target p.1) = some p.2 := by
  induction items with
  | nil => exact absurd hp List.not_mem_nil
  | cons l items ih =>
    intro nodes
    rw [List.map_cons, List.nodup_cons] at hnodup
    rcases List.mem_cons.mp hp with rfl | hp
    · have hlater : ∀ q ∈ items, Text.join target p.1 ≠ Text.join target q.1 := by
        intro q hq heq
        exact hnodup.1 (Text.join_right_injective target heq ▸ List.mem_map_of_mem hq)
      exact (lay_of_not_mem hlater _).trans (Function.update_self ..)
    · exact ih hnodup.2 hp _

/-- **The loop lays the entries out**, where each header that is read is that of the
entry of its item. The induction is on the items and their entries side by side. -/
theorem extractLoop_lay {E : Irods} (hE : E.Honest) {headers : ℕ → HeaderResult}
    {resource : Option Text} {target : Text} {space : ℤ} {items : List Json}
    {entries : List (Text × (EntryHeader × Bytes))}
    (hnames : List.Forall₂ (fun item l => item.stringMember "name".toList = some l.1) items
      entries) :
    ∀ {n : ℕ} {status : Status} {s : Session} {r : Extraction},
      (∀ k l, entries[k]? = some l → ∃ e, headers (n + k) = .ok e ∧ Libarchive.Restores l.2 e) →
      (∀ l ∈ entries, (Text.join target l.1).length < Text.maxNameLen) →
      extractLoop E headers resource none target space items n status s = .ok r →
      r.status.isNeg = false →
      r.session.nodes = lay target (entries.map (fun l => (l.1, entryNode l.2))) s.nodes
        ∧ ∀ q, (∀ l ∈ entries, q ≠ Text.join target l.1) → r.session.avus q = s.avus q := by
  induction hnames with
  | nil =>
    intro n status s r _ _ h _
    obtain rfl := Except.ok.inj h
    exact ⟨rfl, fun _ _ => rfl⟩
  | @cons item l items entries hname hrest ih =>
    intro n status s r hheaders hfits h hstatus
    rw [List.forall_mem_cons] at hfits
    obtain ⟨e, hheader, he⟩ := hheaders 0 l rfl
    rw [extractLoop_cons (n := n) hheader hname] at h
    split at h
    · exact nomatch h
    · rename_i f t hentry
      obtain rfl := Except.ok.inj h
      exact absurd (f.neg.symm.trans hstatus) (by simp)
    · rename_i t hentry
      obtain ⟨hnodes, havus⟩ := extractEntry_ok hE he hfits.1 hentry
      cases hloop : extractLoop E headers resource none target space items (n + 1) (.num 0) t with
      | error fault =>
        rw [hloop] at h
        exact nomatch h
      | ok r' =>
        rw [hloop] at h
        obtain rfl := Except.ok.inj h
        obtain ⟨hnodes', havus'⟩ := ih (fun k l hl => by
          rw [Nat.add_assoc, Nat.add_comm 1 k]
          exact hheaders (k + 1) l hl) hfits.2 hloop hstatus
        refine ⟨hnodes'.trans ?_, fun q hq => ?_⟩
        · rw [hnodes]
          rfl
        · rw [List.forall_mem_cons] at hq
          exact (havus' q hq.2).trans (havus q hq.1)
