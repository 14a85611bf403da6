import IrodsMicroservices.ArchiveExtract

/-!
# What an extraction asks for

The log of a session only grows. This module says by which requests the steps of an
extraction make it grow: which paths they make, open for writing or change
(`Request.target`), and how many bytes they hand over (`written`). Both are one
statement about a step (`Session.Asks`), so that each step is looked at once.

Whatever the server answers, and wherever the extraction ends, every such path is one
of three: the target collection, the place of an index item below it, or the
collection that place is in (`extraction_targets`); and no more is handed over than what
the entries of the items hold that are extracted (`extraction_asks`).
-/

/-- The path a request makes, opens for writing or changes: none for one that only
reads, and for closing. -/
def Request.target : Request → Option Text
  | .collCreate path _ => some path
  | .objOpen path true _ => some path
  | .objOpen _ false _ => none
  | .objCreate path _ => some path
  | .objRead _ => none
  | .objWrite path _ => some path
  | .objClose _ => none
  | .modDataObjMeta path _ => some path
  | .modAvuMetadata _ _ path _ _ _ => some path

/-- The bytes a request hands over. -/
def Request.bytes : Request → ℕ
  | .objWrite _ data => data.length
  | _ => 0

/-- The bytes that have been handed over in all. -/
def written (log : List (Request × Bool)) : ℕ := (log.map (fun q => q.1.bytes)).sum

theorem written_append (log log' : List (Request × Bool)) :
    written (log ++ log') = written log + written log' := by
  unfold written
  rw [List.map_append, List.sum_append]

namespace Session

/-- What a session has been asked since. -/
def Since (s s' : Session) (log : List (Request × Bool)) : Prop := s'.log = s.log ++ log

section Since

variable {E : Irods} {s s' t u : Session} {log : List (Request × Bool)}

theorem Since.refl (s : Session) : s.Since s [] := (List.append_nil _).symm

theorem Since.trans {log' : List (Request × Bool)} (h : s.Since t log) (h' : t.Since u log') :
    s.Since u (log ++ log') := by
  unfold Since at h h' ⊢
  rw [h', h, List.append_assoc]

/-- One request makes the log longer by one. -/
theorem length_log_of_since {r : Request} (h : ∃ b, s.Since t [(r, b)]) :
    t.log.length = s.log.length + 1 := by
  obtain ⟨b, h⟩ := h
  rw [show t.log = s.log ++ [(r, b)] from h]
  exact List.length_append

/-- **A request goes on record, and nothing else does.** -/
theorem since_request {α : Type} {r : Request} {answer : Except Failure (α × Session)}
    (h : ∀ a t, answer = .ok (a, t) → t.log = s.log) :
    ∃ b, s.Since (s.request E r answer).2 [(r, b)] := by
  unfold request
  split
  · exact ⟨false, rfl⟩
  · exact ⟨false, rfl⟩
  · rename_i a t _
    refine ⟨true, ?_⟩
    show t.log ++ _ = _
    rw [h a t rfl]

/-- Collections put one after the other leave the log. -/
theorem log_foldl_put (paths : List Text) : ∀ s : Session,
    (paths.foldl (fun s p => s.put p .coll) s).log = s.log := by
  induction paths with
  | nil => exact fun _ => rfl
  | cons p paths ih => exact fun s => ih (s.put p .coll)

theorem since_collCreate (E : Irods) (path : Text) (recursive : Bool) (s : Session) :
    ∃ b, s.Since (s.collCreate E path recursive).2 [(.collCreate path recursive, b)] := by
  refine since_request (fun a t h => ?_)
  split at h
  · exact nomatch h
  · exact nomatch h
  · split at h
    · split at h
      · exact nomatch h
      · obtain ⟨-, rfl⟩ := Prod.mk.inj (Except.ok.inj h)
        exact log_foldl_put _ s
    · split at h
      · obtain ⟨-, rfl⟩ := Prod.mk.inj (Except.ok.inj h)
        rfl
      · exact nomatch h

theorem since_objOpen (E : Irods) (path : Text) (truncate : Bool) (resource : Option Text)
    (s : Session) :
    ∃ b, s.Since (s.objOpen E path truncate resource).2 [(.objOpen path truncate resource, b)] := by
  refine since_request (fun a t h => ?_)
  split at h
  · obtain ⟨-, rfl⟩ := Prod.mk.inj (Except.ok.inj h)
    split <;> rfl
  · exact nomatch h

theorem since_objCreate (E : Irods) (path : Text) (resource : Option Text) (s : Session) :
    ∃ b, s.Since (s.objCreate E path resource).2 [(.objCreate path resource, b)] := by
  refine since_request (fun a t h => ?_)
  split at h
  · exact nomatch h
  · exact nomatch h
  · split at h
    · obtain ⟨-, rfl⟩ := Prod.mk.inj (Except.ok.inj h)
      rfl
    · exact nomatch h

theorem since_objRead (E : Irods) (path : Text) (pos len : ℕ) (s : Session) :
    ∃ b, s.Since (s.objRead E path pos len).2 [(.objRead path, b)] := by
  refine since_request (fun a t h => ?_)
  split at h
  · obtain ⟨-, rfl⟩ := Prod.mk.inj (Except.ok.inj h)
    rfl
  · exact nomatch h

theorem since_objWrite (E : Irods) (path : Text) (buf : Bytes) (s : Session) :
    ∃ b, s.Since (s.objWrite E path buf).2 [(.objWrite path buf, b)] := by
  refine since_request (fun a t h => ?_)
  split at h
  · obtain ⟨-, rfl⟩ := Prod.mk.inj (Except.ok.inj h)
    rfl
  · exact nomatch h

theorem since_objClose (E : Irods) (path : Text) (s : Session) :
    ∃ b, s.Since (s.objClose E path).2 [(.objClose path, b)] := by
  refine since_request (fun a t h => ?_)
  obtain ⟨-, rfl⟩ := Prod.mk.inj (Except.ok.inj h)
  rfl

theorem since_modDataObjMeta (E : Irods) (path : Text) (modified : ℤ) (s : Session) :
    ∃ b, s.Since (s.modDataObjMeta E path modified).2 [(.modDataObjMeta path modified, b)] := by
  refine since_request (fun a t h => ?_)
  obtain ⟨-, rfl⟩ := Prod.mk.inj (Except.ok.inj h)
  rfl

theorem since_modAvuMetadata (E : Irods) (op : AvuOp) (isColl : Bool) (path : Text)
    (name value unit : Option Text) (s : Session) :
    ∃ b, s.Since (s.modAvuMetadata E op isColl path name value unit).2
      [(.modAvuMetadata op isColl path name value unit, b)] := by
  refine since_request (fun a t h => ?_)
  split at h
  · obtain ⟨-, rfl⟩ := Prod.mk.inj (Except.ok.inj h)
    rfl
  · exact nomatch h

end Since

/-! ## What a step asks for -/

/-- **What has been asked since goes to places of a kind only**, and hands over no more
than so many bytes. -/
def Asks (D : Text → Prop) (n : ℕ) (s s' : Session) : Prop :=
  ∃ log, s.Since s' log ∧ (∀ q ∈ log, ∀ p, q.1.target = some p → D p) ∧ written log ≤ n

section Asks

variable {D D' : Text → Prop} {m n k : ℕ} {s t u : Session}

theorem Asks.refl (D : Text → Prop) (s : Session) : Asks D 0 s s :=
  ⟨[], .refl s, List.forall_mem_nil _, le_rfl⟩

theorem Asks.trans (h : Asks D m s t) (h' : Asks D n t u) (hk : m + n ≤ k) : Asks D k s u := by
  obtain ⟨log, hlog, hD, hm⟩ := h
  obtain ⟨log', hlog', hD', hn⟩ := h'
  refine ⟨log ++ log', hlog.trans hlog', List.forall_mem_append.mpr ⟨hD, hD'⟩, ?_⟩
  rw [written_append]
  omega

theorem Asks.mono (h : Asks D m s t) (hD : ∀ p, D p → D' p) (hk : m ≤ k) : Asks D' k s t := by
  obtain ⟨log, hlog, h, hm⟩ := h
  exact ⟨log, hlog, fun q hq p hp => hD p (h q hq p hp), hm.trans hk⟩

/-- One request. -/
theorem Asks.of_since {r : Request} (h : ∃ b, s.Since t [(r, b)])
    (hr : ∀ p, r.target = some p → D p) : Asks D r.bytes s t := by
  obtain ⟨b, h⟩ := h
  exact ⟨_, h, List.forall_mem_singleton.mpr hr, le_rfl⟩

end Asks

end Session

open Session

section Extract

variable {E : Irods} {headers : ℕ → HeaderResult} {resource extract : Option Text}

theorem creat_asks (E : Irods) (path : Text) (resource : Option Text) (s : Session) :
    Asks (fun p => p = Text.rstrcpy path) 0 s (creat E path resource s).2 := by
  have hopen : Asks (fun p => p = Text.rstrcpy path) 0 s
      (s.objOpen E (Text.rstrcpy path) true resource).2 :=
    .of_since (since_objOpen ..) (fun p hp => (Option.some.inj hp).symm)
  unfold creat
  split
  · rename_i h
    rwa [h] at hopen
  · rename_i f t h
    rw [h] at hopen
    split
    · exact hopen.trans (.of_since (since_objCreate ..)
        (fun p hp => (Option.some.inj hp).symm)) le_rfl
    · exact hopen

/-- The blocks of an entry are handed over at most once. -/
theorem writeBlocks_asks (E : Irods) (path : Text) (fails : Bool) (blocks : List Bytes) :
    ∀ s, Asks (fun p => p = path) blocks.flatten.length s
      (writeBlocks E path fails blocks s).2 := by
  have hclose : ∀ s : Session, Asks (fun p => p = path) 0 s (s.objClose E path).2 :=
    fun s => .of_since (since_objClose ..) (fun p hp => nomatch hp)
  induction blocks with
  | nil =>
    intro s
    unfold writeBlocks
    split
    · exact hclose s
    · exact hclose s
  | cons block blocks ih =>
    intro s
    cases block with
    | nil => exact (hclose s).mono (fun _ hp => hp) (Nat.zero_le _)
    | cons b buf =>
      have hwrite : Asks (fun p => p = path) (b :: buf).length s
          (s.objWrite E path (b :: buf)).2 :=
        .of_since (since_objWrite ..) (fun p hp => (Option.some.inj hp).symm)
      rw [List.flatten_cons, List.length_append]
      unfold writeBlocks
      split
      · rename_i f t h
        rw [h] at hwrite
        exact hwrite.trans (hclose t) (Nat.le_add_right _ _)
      · rename_i n t h
        rw [h] at hwrite
        exact hwrite.trans (ih t) le_rfl

/-- An item is extracted under the name it is given, as far as that fits. -/
theorem extractItem_asks (E : Irods) (resource : Option Text) (e : ReadEntry)
    (filename : Text) (s : Session) :
    Asks (fun p => p = Text.rstrcpy filename) e.blocks.flatten.length s
      (extractItem E resource e filename s).2 := by
  unfold extractItem
  split
  · have hcreate : Asks (fun p => p = Text.rstrcpy filename) e.blocks.flatten.length s
        (s.collCreate E (Text.rstrcpy filename) false).2 :=
      .mono (.of_since (since_collCreate ..) (fun p hp => (Option.some.inj hp).symm))
        (fun _ hp => hp) (Nat.zero_le _)
    split
    · rename_i f t h
      rw [h] at hcreate
      split <;> exact hcreate
    · exact hcreate
  · have hcreat := creat_asks E filename resource s
    split
    · rename_i h
      rw [h] at hcreat
      exact hcreat.mono (fun _ hp => hp) (Nat.zero_le _)
    · rename_i t h
      rw [h] at hcreat
      exact hcreat.trans (writeBlocks_asks E _ _ _ t) (Nat.zero_add _).le

theorem attributesLoop_asks (file : Text) (isColl : Bool) (list : List Json) :
    ∀ {prev : Option Text} {s s' : Session}, attributesLoop E file isColl prev list s = .ok s' →
      Asks (fun p => p = file) 0 s s' := by
  induction list with
  | nil =>
    intro prev s s' h
    obtain rfl := Except.ok.inj h
    exact .refl _ _
  | cons json list ih =>
    intro prev s s' h
    unfold attributesLoop at h
    dsimp only at h
    split at h
    · exact nomatch h
    · exact .trans (.of_since (since_modAvuMetadata ..) (fun p hp => (Option.some.inj hp).symm))
        (ih h) le_rfl

/-- Metadata and attributes are set under the name of the item. -/
theorem setMetadata_asks {file : Text} {json : Json} {s s' : Session}
    (h : setMetadata E file json s = .ok s') :
    Asks (fun p => p = Text.rstrcpy file ∨ p = file) 0 s s' := by
  unfold setMetadata at h
  split at h
  · exact nomatch h
  · rename_i type _
    dsimp only at h
    have hmodify : Asks (fun p => p = Text.rstrcpy file ∨ p = file) 0 s
        (if decide (type = "coll".toList) = true then s else s.modify E file json) := by
      split
      · exact .refl _ _
      · exact .of_since (since_modDataObjMeta ..) (fun p hp => .inl (Option.some.inj hp).symm)
    split at h
    · obtain rfl := Except.ok.inj h
      exact hmodify
    · exact hmodify.trans ((attributesLoop_asks _ _ _ h).mono (fun _ => .inr) le_rfl) le_rfl

theorem extractEntry_asks {file : Text} {e : ReadEntry} {json : Json} {s s' : Session}
    {r : Except Failure Unit} (h : extractEntry E resource file e json s = .ok (r, s')) :
    Asks (fun p => p = Text.rstrcpy file ∨ p = file) e.blocks.flatten.length s s' := by
  have hitem : Asks (fun p => p = Text.rstrcpy file ∨ p = file) e.blocks.flatten.length s
      (extractItem E resource e file s).2 :=
    (extractItem_asks E resource e file s).mono (fun _ => .inl) le_rfl
  obtain ⟨f, hextract, -⟩ | ⟨t, hextract, hset, -⟩ := extractEntry_cases h
  · rw [hextract] at hitem
    exact hitem
  · rw [hextract] at hitem
    exact hitem.trans (setMetadata_asks hset) le_rfl

/-- The part of a name before its last slash. -/
def parentName (file : Text) : Text :=
  ((file.reverse.dropWhile (fun c => c != '/')).drop 1).reverse

/-- What is before the last slash of a joined path is what has been joined. -/
theorem parentName_join (dir : Text) {name : Text} (h : '/' ∉ name) :
    parentName (Text.join dir name) = dir := by
  have hall : ∀ c ∈ name.reverse, (c != '/') = true := by
    intro c hc
    rw [bne_iff_ne]
    rintro rfl
    exact h (List.mem_reverse.mp hc)
  unfold parentName
  rw [Text.join, List.reverse_append, List.reverse_cons, List.append_assoc,
    List.dropWhile_append_of_pos hall]
  simp

/-- **A name with a slash is cut at its last one.** -/
theorem join_parentName {name : Text} (h : '/' ∈ name) :
    ∃ last, name = Text.join (parentName name) last ∧ '/' ∉ last := by
  obtain ⟨pre, post, hname, hpre⟩ := List.eq_append_cons_of_mem (List.mem_reverse.mpr h)
  have hlast : '/' ∉ pre.reverse := fun hmem => hpre (List.mem_reverse.mp hmem)
  have hjoin : name = Text.join post.reverse pre.reverse := by
    rw [← List.reverse_reverse name, hname, List.reverse_append, List.reverse_cons,
      List.append_assoc]
    rfl
  refine ⟨pre.reverse, ?_, hlast⟩
  rw [hjoin, parentName_join _ hlast]

/-- **The places of an item**: under its name below the target, as far as that fits, and
the collection that is in. -/
def ItemPlace (path : Text) (items : List Json) (p : Text) : Prop :=
  ∃ item ∈ items, ∃ name, item.stringMember "name".toList = some name
    ∧ (p = Text.rstrcpy (Text.join path name) ∨ p = Text.join path name
      ∨ '/' ∈ name ∧ p = Text.rstrcpy (Text.join path (parentName name)))

theorem ItemPlace.mono {path p : Text} {items items' : List Json} (h : ItemPlace path items p)
    (hitems : ∀ item ∈ items, item ∈ items') : ItemPlace path items' p := by
  obtain ⟨item, hitem, hp⟩ := h
  exact ⟨item, hitems item hitem, hp⟩

/-- The item is one of those to be extracted, and alone it is not too large. -/
def Takes (extract : Option Text) (space : ℤ) (item : Json) : Prop :=
  ∀ name, extract = some name → item.stringMember "name".toList = some name
    ∧ ¬ (space ≠ 0 ∧ usable space < item.integerMember "size".toList)

/-- The items an extraction takes: all that are to be extracted, or a single one. -/
def Taken (extract : Option Text) (space : ℤ) (items taken : List Json) : Prop :=
  taken.Sublist items ∧ (∀ item ∈ taken, Takes extract space item)
    ∧ (extract ≠ none → taken.length ≤ 1)

theorem Taken.nil (extract : Option Text) (space : ℤ) (items : List Json) :
    Taken extract space items [] :=
  ⟨List.nil_sublist _, List.forall_mem_nil _, fun _ => Nat.zero_le _⟩

/-- The size of an item bounds what the entries hold that are read for it. -/
def Covers (headers : ℕ → HeaderResult) (size : Json → ℕ) (items : List Json) (n : ℕ) : Prop :=
  ∀ k item e, items[k]? = some item → headers (n + k) = .ok e → e.blocks.flatten.length ≤ size item

theorem Covers.tail {size : Json → ℕ} {json : Json} {items : List Json} {n : ℕ}
    (h : Covers headers size (json :: items) n) : Covers headers size items (n + 1) := by
  intro k item e hk he
  refine h (k + 1) item e hk ?_
  rwa [← Nat.add_assoc, Nat.add_right_comm]

/-- An item that is extracted, alone with the collection it is in, goes to its places. -/
theorem itemPlace_asks {path file : Text} {e : ReadEntry} {json : Json}
    (hname : json.stringMember "name".toList = some file) {s t : Session}
    {r : Except Failure Unit} (hentry : extractEntry E resource (Text.join path file) e json
      (if extract = none then s else makeParent E path file s) = .ok (r, t)) :
    Asks (ItemPlace path [json]) e.blocks.flatten.length s t := by
  have hhere : ∀ p, (p = Text.rstrcpy (Text.join path file) ∨ p = Text.join path file) →
      ItemPlace path [json] p :=
    fun p hp => ⟨json, List.mem_cons_self, file, hname, hp.imp_right .inl⟩
  have hparent : Asks (ItemPlace path [json]) 0 s
      (if extract = none then s else makeParent E path file s) := by
    split
    · exact .refl _ _
    · unfold makeParent
      split
      · rename_i hslash
        refine .of_since (since_collCreate ..) (fun p hp => ?_)
        exact ⟨json, List.mem_cons_self, file, hname, .inr (.inr ⟨hslash,
          (Option.some.inj hp).symm⟩)⟩
      · exact .refl _ _
  exact hparent.trans ((extractEntry_asks hentry).mono hhere le_rfl) (Nat.zero_add _).le

/-- **The loop goes to the places of the items it takes**, and hands over what their
entries hold. -/
theorem extractLoop_asks {path : Text} {space : ℤ} {size : Json → ℕ} :
    ∀ {items : List Json} {n : ℕ} {status : Status} {s : Session} {r : Extraction},
    Covers headers size items n →
    extractLoop E headers resource extract path space items n status s = .ok r →
    ∃ taken, Taken extract space items taken
      ∧ Asks (ItemPlace path taken) (taken.map size).sum s r.session := by
  intro items
  induction items with
  | nil =>
    intro n status s r _ h
    obtain rfl := Except.ok.inj h
    exact ⟨[], .nil _ _ _, .refl _ _⟩
  | cons json items ih =>
    intro n status s r hcovers h
    unfold extractLoop at h
    split at h
    · rename_i e hheader
      split at h
      · cases h
      · rename_i file hname
        split at h
        · -- the item is skipped
          obtain ⟨taken, ⟨hsub, htakes, hone⟩, hasks⟩ := ih hcovers.tail h
          exact ⟨taken, ⟨hsub.cons json, htakes, hone⟩, hasks⟩
        · rename_i hskip
          split at h
          · obtain rfl := Except.ok.inj h
            exact ⟨[], .nil _ _ _, .refl _ _⟩
          · rename_i hlarge
            have htakes : Takes extract space json := by
              rintro name rfl
              have hfile : some name = some file := by
                by_contra hne
                exact hskip ⟨Option.some_ne_none _, hne⟩
              exact ⟨hname.trans hfile.symm,
                fun hspace => hlarge ⟨Option.some_ne_none _, hspace⟩⟩
            have hsize : e.blocks.flatten.length ≤ size json := hcovers 0 json e rfl hheader
            have hsingle : ∀ {r : Except Failure Unit} {t : Session},
                extractEntry E resource (Text.join path file) e json
                  (if extract = none then s else makeParent E path file s) = .ok (r, t) →
                Asks (ItemPlace path [json]) (size json) s t :=
              fun hentry => (itemPlace_asks hname hentry).mono (fun _ hp => hp) hsize
            have halone : Taken extract space (json :: items) [json] :=
              ⟨List.singleton_sublist.mpr List.mem_cons_self,
                List.forall_mem_singleton.mpr htakes, fun _ => le_rfl⟩
            dsimp only at h
            split at h
            · cases h
            · rename_i f t hentry
              obtain rfl := Except.ok.inj h
              exact ⟨[json], halone, hsingle hentry⟩
            · rename_i t hentry
              split at h
              · obtain rfl := Except.ok.inj h
                exact ⟨[json], halone, hsingle hentry⟩
              · rename_i hall
                cases hloop : extractLoop E headers resource extract path space items (n + 1)
                    (.num 0) t with
                | error fault =>
                  rw [hloop] at h
                  cases h
                | ok r' =>
                  rw [hloop] at h
                  obtain rfl := Except.ok.inj h
                  obtain ⟨taken, ⟨hsub, htaken, -⟩, hasks⟩ := ih hcovers.tail hloop
                  refine ⟨json :: taken, ⟨hsub.cons_cons json, List.forall_mem_cons.mpr
                    ⟨htakes, htaken⟩, fun hne => absurd hne hall⟩, ?_⟩
                  refine .trans ((hsingle hentry).mono (fun p hp => hp.mono ?_) le_rfl)
                    (hasks.mono (fun p hp => hp.mono ?_) le_rfl) le_rfl
                  · exact List.forall_mem_singleton.mpr List.mem_cons_self
                  · exact fun _ => List.mem_cons_of_mem json
    · obtain rfl := Except.ok.inj h
      exact ⟨[], .nil _ _ _, .refl _ _⟩

end Extract

/-! ## What an extraction asks for -/

section Run

variable {J : Jansson} {E : Irods} {rows : SpaceQuery} {headers : ℕ → HeaderResult}

/-- Opening an archive makes, opens for writing and changes nothing. -/
theorem openArchive_asks {archive : Text} {a : Option ReadArchive} {s s' : Session}
    (h : openArchive J E headers archive s = .ok (a, s')) : Asks (fun _ => False) 0 s s' := by
  have hopen : Asks (fun _ => False) 0 s (s.objOpen E (Text.rstrcpy archive) false none).2 :=
    .of_since (since_objOpen ..) (fun p hp => nomatch hp)
  have hclose : ∀ t : Session, Asks (fun _ => False) 0 t (t.objClose E (Text.rstrcpy archive)).2 :=
    fun t => .of_since (since_objClose ..) (fun p hp => nomatch hp)
  obtain ⟨y, t, hobj, hend⟩ := openArchive_cases h
  rw [hobj] at hopen
  rcases hend with ⟨-, rfl, -⟩ | ⟨-, rfl, -⟩ | ⟨_, -, rfl, -⟩
  · exact hopen
  · exact hopen.trans (hclose t) le_rfl
  · exact hopen

/-- **What an extraction asks for**, whatever the server answers and wherever it ends: it
goes to the target and to the places of the items it takes, and hands over no more than
what their entries hold. It takes none where the check of the free space fails. -/
theorem extraction_asks {archiveIn pathIn extractIn resourceIn : MsParam} {archive path : Text}
    {a : ReadArchive} {s s₁ : Session} {r : Extracted}
    (harchive : archiveIn.parseMspForStr = some archive)
    (hpath : pathIn.parseMspForStr = some path)
    (hopen : openArchive J E headers archive s = .ok (some a, s₁)) {size : Json → ℕ}
    (hcovers : Covers headers size a.items 1)
    (h : msiArchiveExtract J E rows headers archiveIn pathIn extractIn resourceIn s = .ok r) :
    ∃ taken, Taken extractIn.parseMspForStr
        (checkSpace rows resourceIn.parseMspForStr extractIn.parseMspForStr a.dataSize).2
        a.items taken
      ∧ ((checkSpace rows resourceIn.parseMspForStr extractIn.parseMspForStr
          a.dataSize).1.isNeg = true → taken = [])
      ∧ Asks (fun p => p = Text.rstrcpy path ∨ ItemPlace path taken p) (taken.map size).sum
        s r.session := by
  have hstart := openArchive_asks hopen
  have hclose : ∀ {D : Text → Prop} (t : Session), Asks D 0 t (t.objClose E a.path).2 :=
    fun t => .of_since (since_objClose ..) (fun p hp => nomatch hp)
  rw [msiArchiveExtract_eq harchive hpath hopen] at h
  dsimp only at h
  split at h
  · obtain rfl := Except.ok.inj h
    exact ⟨[], .nil _ _ _, fun _ => rfl,
      (hstart.mono (fun _ hp => hp.elim) le_rfl).trans (hclose s₁) le_rfl⟩
  · rename_i hpassed
    have hcreate : Asks (fun p => p = Text.rstrcpy path) 0 s₁
        (s₁.collCreate E (Text.rstrcpy path) false).2 :=
      .of_since (since_collCreate ..) (fun p hp => (Option.some.inj hp).symm)
    cases hloop : extractLoop E headers resourceIn.parseMspForStr extractIn.parseMspForStr path
        (checkSpace rows resourceIn.parseMspForStr extractIn.parseMspForStr a.dataSize).2
        a.items 1
        (checkSpace rows resourceIn.parseMspForStr extractIn.parseMspForStr a.dataSize).1
        (s₁.collCreate E (Text.rstrcpy path) false).2 with
    | error fault =>
      rw [hloop] at h
      exact nomatch h
    | ok loop =>
      rw [hloop] at h
      obtain rfl := Except.ok.inj h
      obtain ⟨taken, htaken, hasks⟩ := extractLoop_asks hcovers hloop
      refine ⟨taken, htaken, fun hneg => absurd hneg hpassed, ?_⟩
      have hmade : Asks (fun p => p = Text.rstrcpy path ∨ ItemPlace path taken p) 0 s
          (s₁.collCreate E (Text.rstrcpy path) false).2 :=
        (hstart.mono (fun _ hp => hp.elim) le_rfl).trans (hcreate.mono (fun _ => .inl) le_rfl) le_rfl
      exact (hmade.trans (hasks.mono (fun _ => .inr) le_rfl) (Nat.zero_add _).le).trans
        (hclose _) le_rfl

/-- There is a bound for what the entries of some items hold. -/
theorem exists_covers (headers : ℕ → HeaderResult) (items : List Json) :
    ∀ n, ∃ size, Covers headers (fun _ => size) items n := by
  induction items with
  | nil => exact fun n => ⟨0, fun k item e hk => absurd hk (by simp)⟩
  | cons json items ih =>
    intro n
    obtain ⟨size, hsize⟩ := ih (n + 1)
    obtain ⟨first, hfirst⟩ : ∃ first, ∀ e, headers n = .ok e → e.blocks.flatten.length ≤ first := by
      cases headers n with
      | ok e => exact ⟨e.blocks.flatten.length, fun e' he => by rw [HeaderResult.ok.inj he]⟩
      | _ => exact ⟨0, fun e he => nomatch he⟩
    refine ⟨max first size, fun k item e hk he => ?_⟩
    cases k with
    | zero => exact (hfirst e he).trans (le_max_left _ _)
    | succ k =>
      rw [← Nat.add_assoc, Nat.add_right_comm] at he
      exact (hsize k item e hk he).trans (le_max_right _ _)

/-- An extraction has opened its archive, or has made, opened for writing and changed
nothing. -/
theorem extraction_opened {archiveIn pathIn extractIn resourceIn : MsParam} {s : Session}
    {r : Extracted}
    (h : msiArchiveExtract J E rows headers archiveIn pathIn extractIn resourceIn s = .ok r) :
    Asks (fun _ => False) 0 s r.session
      ∨ ∃ archive path a s₁, archiveIn.parseMspForStr = some archive
        ∧ pathIn.parseMspForStr = some path
        ∧ openArchive J E headers archive s = .ok (some a, s₁) := by
  unfold msiArchiveExtract at h
  dsimp only at h
  split at h
  · obtain rfl := Except.ok.inj h
    exact .inl (.refl _ _)
  · split at h
    · obtain rfl := Except.ok.inj h
      exact .inl (.refl _ _)
    · split at h
      · rename_i archive path harchive hpath
        split at h
        · exact nomatch h
        · rename_i t hopen
          obtain rfl := Except.ok.inj h
          exact .inl (openArchive_asks hopen)
        · rename_i a s₁ hopen
          exact .inr ⟨archive, path, a, s₁, harchive, hpath, hopen⟩
      · obtain rfl := Except.ok.inj h
        exact .inl (.refl _ _)

/-- **The paths an extraction makes, opens for writing and changes**: the target, where an
archive has been opened, and the places of its items. -/
theorem extraction_targets {archiveIn pathIn extractIn resourceIn : MsParam} {s : Session}
    {r : Extracted}
    (h : msiArchiveExtract J E rows headers archiveIn pathIn extractIn resourceIn s = .ok r) :
    ∃ log, s.Since r.session log ∧ ∀ q ∈ log, ∀ p, q.1.target = some p →
      ∃ archive path a s₁, archiveIn.parseMspForStr = some archive
        ∧ pathIn.parseMspForStr = some path
        ∧ openArchive J E headers archive s = .ok (some a, s₁)
        ∧ (p = Text.rstrcpy path ∨ ItemPlace path a.items p) := by
  rcases extraction_opened h with ⟨log, hlog, hnone, -⟩ | ⟨archive, path, a, s₁, harchive, hpath, hopen⟩
  · exact ⟨log, hlog, fun q hq p hp => (hnone q hq p hp).elim⟩
  · obtain ⟨size, hcovers⟩ := exists_covers headers a.items 1
    obtain ⟨taken, ⟨hsub, -⟩, -, log, hlog, htargets, -⟩ :=
      extraction_asks harchive hpath hopen hcovers h
    refine ⟨log, hlog, fun q hq p hp => ⟨archive, path, a, s₁, harchive, hpath, hopen, ?_⟩⟩
    exact (htargets q hq p hp).imp_right (fun hplace => hplace.mono (fun _ => hsub.mem))

end Run
