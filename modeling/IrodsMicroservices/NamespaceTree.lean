import IrodsMicroservices.ArchiveLayout
import IrodsMicroservices.RequestLog

/-!
# The namespace as a tree

In iRODS whatever stands at a path stands in a collection, and that one in the collection
above it (`Session.Tree`). The requests keep it like that: something new is only put into
a collection, and nothing takes the place of a collection.

For an extraction this means that an item that has been extracted has collections all the
way above it (`Lays`), which is what an extraction of that item alone has to provide
first (`makeParent_spec`).
-/

namespace Session

/-! ## Above a path -/

theorem mem_ancestors_iff {p q : Text} : q ∈ ancestors p ↔ q ≠ [] ∧ q ++ ['/'] <+: p := by
  unfold ancestors
  rw [List.mem_filter, List.mem_inits, Bool.and_eq_true, bne_iff_ne, beq_iff_eq]
  constructor
  · rintro ⟨⟨rest, rfl⟩, hq, hhead⟩
    rw [List.drop_left] at hhead
    cases rest with
    | nil => exact nomatch hhead
    | cons c rest =>
      obtain rfl : c = '/' := Option.some.inj hhead
      exact ⟨hq, rest, by simp⟩
  · rintro ⟨hq, rest, rfl⟩
    refine ⟨⟨'/' :: rest, by simp⟩, hq, ?_⟩
    rw [List.append_assoc, List.drop_left]
    rfl

/-- The collection something is joined to is above it. -/
theorem mem_ancestors_join {dir : Text} (hdir : dir ≠ []) (name : Text) :
    dir ∈ ancestors (Text.join dir name) :=
  mem_ancestors_iff.mpr ⟨hdir, name, by simp [Text.join]⟩

theorem mem_ancestors_trans {p q r : Text} (h : q ∈ ancestors r) (h' : r ∈ ancestors p) :
    q ∈ ancestors p := by
  rw [mem_ancestors_iff] at h h' ⊢
  exact ⟨h.1, h.2.trans ((List.prefix_append r ['/']).trans h'.2)⟩

/-- What is above a path is shorter. -/
theorem length_lt_of_mem_ancestors {p q : Text} (h : q ∈ ancestors p) : q.length < p.length := by
  have hlen := (mem_ancestors_iff.mp h).2.length_le
  rw [List.length_append] at hlen
  exact hlen

theorem ne_of_mem_ancestors {p q : Text} (h : q ∈ ancestors p) : q ≠ p := by
  rintro rfl
  exact absurd (length_lt_of_mem_ancestors h) (lt_irrefl _)

/-- **What is above a path is its parent, or above that.** -/
theorem mem_ancestors_parent {p q : Text} (h : q ∈ ancestors p) :
    q = Text.parent p ∨ q ∈ ancestors (Text.parent p) := by
  obtain ⟨hq, hprefix⟩ := mem_ancestors_iff.mp h
  have hslash : '/' ∈ p := hprefix.subset (List.mem_append_right _ (List.mem_singleton_self _))
  obtain ⟨name, hp, hname⟩ := join_parentName hslash
  have hparent : Text.parent p = if parentName p = [] then ['/'] else parentName p := rfl
  have hlast : parentName p <+: p := ⟨'/' :: name, hp.symm⟩
  rw [hparent]
  -- the slash after `q` is the last one, or one before that
  rcases lt_trichotomy q.length (parentName p).length with hlt | heq | hgt
  · have hbelow : q ++ ['/'] <+: parentName p :=
      List.prefix_of_prefix_length_le hprefix hlast (by rw [List.length_append]; exact hlt)
    have hne : parentName p ≠ [] := fun hnil => by
      rw [hnil] at hlt
      exact absurd hlt (Nat.not_lt_zero _)
    rw [if_neg hne]
    exact .inr (mem_ancestors_iff.mpr ⟨hq, hbelow⟩)
  · have hsame : q = parentName p :=
      (List.prefix_of_prefix_length_le ((List.prefix_append q _).trans hprefix) hlast
        heq.le).eq_of_length heq
    rw [if_neg (hsame ▸ hq)]
    exact .inl hsame
  · refine absurd ?_ hname
    obtain ⟨rest, hrest⟩ := hprefix
    have hslashed : parentName p ++ ['/'] <+: p := ⟨name, by rw [List.append_assoc]; exact hp.symm⟩
    obtain ⟨more, hmore⟩ : parentName p ++ ['/'] <+: q :=
      List.prefix_of_prefix_length_le hslashed ((List.prefix_append q _).trans ⟨rest, hrest⟩)
        (by rw [List.length_append]; exact hgt)
    have hcut : name = more ++ '/' :: rest := by
      refine List.append_cancel_left (?_ : parentName p ++ ['/'] ++ name
        = parentName p ++ ['/'] ++ (more ++ '/' :: rest))
      calc parentName p ++ ['/'] ++ name = p := by rw [List.append_assoc]; exact hp.symm
        _ = q ++ ['/'] ++ rest := hrest.symm
        _ = parentName p ++ ['/'] ++ (more ++ '/' :: rest) := by rw [← hmore]; simp
    rw [hcut]
    simp

/-! ## The tree -/

/-- **Whatever stands at a path stands in collections.** -/
def Tree (nodes : Text → Option Node) : Prop :=
  ∀ p, nodes p ≠ none → ∀ q ∈ ancestors p, nodes q = some .coll

section Tree

variable {nodes : Text → Option Node} {p : Text}

/-- What is above something in a collection are collections. -/
theorem Tree.above (h : Tree nodes) (hparent : nodes (Text.parent p) = some .coll) :
    ∀ q ∈ ancestors p, nodes q = some .coll := by
  intro q hq
  rcases mem_ancestors_parent hq with rfl | hq
  · exact hparent
  · exact h _ (by rw [hparent]; exact Option.some_ne_none _) q hq

/-- **A tree stays one** where something new is put into a collection, an object takes the
place of an object, and a collection that of a collection. -/
theorem Tree.update (h : Tree nodes) {n : Node}
    (hp : (nodes p = none ∧ nodes (Text.parent p) = some .coll)
      ∨ (∃ data, nodes p = some (.obj data)) ∨ nodes p = some .coll ∧ n = .coll) :
    Tree (Function.update nodes p (some n)) := by
  have habove : ∀ q ∈ ancestors p, nodes q = some .coll := by
    rcases hp with ⟨-, hparent⟩ | ⟨data, hdata⟩ | ⟨hcoll, -⟩
    · exact h.above hparent
    · exact h p (by rw [hdata]; exact Option.some_ne_none _)
    · exact h p (by rw [hcoll]; exact Option.some_ne_none _)
  -- only a collection has something below it
  have hbelow : ∀ r, nodes r ≠ none → p ∈ ancestors r → n = .coll := by
    intro r hr hmem
    have hcoll := h r hr p hmem
    rcases hp with ⟨hnone, -⟩ | ⟨data, hdata⟩ | ⟨-, hn⟩
    · exact nomatch hnone.symm.trans hcoll
    · exact nomatch hdata.symm.trans hcoll
    · exact hn
  intro r hr q hq
  by_cases hqp : q = p
  · subst hqp
    rw [Function.update_of_ne (ne_of_mem_ancestors hq).symm] at hr
    rw [Function.update_self, hbelow r hr hq]
  · rw [Function.update_of_ne hqp]
    by_cases hrp : r = p
    · exact habove q (hrp ▸ hq)
    · rw [Function.update_of_ne hrp] at hr
      exact h r hr q hq

end Tree

end Session

open Session

/-- **A server that does all it is asked to**, as far as what it finds allows. -/
def Irods.Serves (E : Irods) : Prop := ∀ n, E.deny n = none ∧ E.short n = none

theorem Irods.obliging_serves : obliging.Serves := fun _ => ⟨rfl, rfl⟩

theorem Irods.Serves.honest {E : Irods} (h : E.Serves) : E.Honest :=
  fun n => ⟨(h n).2, fun _ hf => nomatch (h n).1.symm.trans hf⟩

/-! ## What an item leaves -/

/-- **What a step has laid down in places of a kind**: it has asked for nothing else, and
left the rest alone; a tree is still one, and no object has gone. -/
structure Lays (D : Text → Prop) (s t : Session) : Prop where
  asks : ∃ n, Asks D n s t
  frame : ∀ q, ¬ D q → t.nodes q = s.nodes q
  tree : Tree s.nodes → Tree t.nodes
  objects : ∀ q data, s.nodes q = some (.obj data) → ∃ data', t.nodes q = some (.obj data')

section Lays

variable {D D' : Text → Prop} {s t u : Session}

theorem Lays.refl (D : Text → Prop) (s : Session) : Lays D s s :=
  ⟨⟨0, .refl D s⟩, fun _ _ => rfl, fun h => h, fun _ data h => ⟨data, h⟩⟩

theorem Lays.trans (h : Lays D s t) (h' : Lays D t u) : Lays D s u := by
  obtain ⟨m, hm⟩ := h.asks
  obtain ⟨n, hn⟩ := h'.asks
  refine ⟨⟨m + n, hm.trans hn le_rfl⟩, fun q hq => (h'.frame q hq).trans (h.frame q hq),
    fun htree => h'.tree (h.tree htree), fun q data hdata => ?_⟩
  obtain ⟨data', hdata'⟩ := h.objects q data hdata
  exact h'.objects q data' hdata'

theorem Lays.mono (h : Lays D s t) (hD : ∀ p, D p → D' p) : Lays D' s t := by
  obtain ⟨n, hn⟩ := h.asks
  exact ⟨⟨n, hn.mono hD le_rfl⟩, fun q hq => h.frame q (fun hmem => hq (hD q hmem)), h.tree,
    h.objects⟩

end Lays

section Extract

variable {E : Irods} {headers : ℕ → HeaderResult} {resource : Option Text} {target : Text}

/-- A collection that has been made was not there, and is in one. -/
theorem collCreate_ok {path : Text} {s t : Session} (h : s.collCreate E path false = (.ok (), t)) :
    s.nodes path = none ∧ s.nodes (Text.parent path) = some .coll
      ∧ t.nodes = Function.update s.nodes path (some .coll) := by
  obtain ⟨u, hu, rfl⟩ := request_ok h
  split at hu
  · exact nomatch hu
  · exact nomatch hu
  · rename_i hnone
    rw [if_neg Bool.false_ne_true] at hu
    split at hu
    · rename_i hparent
      obtain ⟨-, rfl⟩ := Prod.mk.inj (Except.ok.inj hu)
      exact ⟨hnone, hparent, rfl⟩
    · exact nomatch hu

/-- **Where an item has been extracted to** there was nothing, in a collection, or
something of its kind. -/
theorem extractItem_from (hE : E.Honest) {e : ReadEntry} {file : Text}
    (hfits : file.length < Text.maxNameLen) {s t : Session}
    (h : extractItem E resource e file s = (.ok (), t)) :
    (s.nodes file = none ∧ s.nodes (Text.parent file) = some .coll)
      ∨ (e.isDir = false ∧ ∃ data, s.nodes file = some (.obj data))
      ∨ s.nodes file = some .coll ∧ e.isDir = true := by
  unfold extractItem at h
  rw [Text.rstrcpy_of_fits hfits] at h
  split at h
  · rename_i hdir
    split at h
    · rename_i f u hcreate
      split at h
      · rename_i hstatus
        exact .inr (.inr ⟨((collCreate_spec hE hcreate).2.2 f rfl).2 hstatus, hdir⟩)
      · exact nomatch (Prod.mk.inj h).1
    · obtain ⟨hnone, hparent, -⟩ := collCreate_ok h
      exact .inl ⟨hnone, hparent⟩
  · rename_i hdir
    split at h
    · exact nomatch (Prod.mk.inj h).1
    · rename_i u hcreat
      obtain ⟨-, -, hok⟩ := creat_spec hcreat
      obtain ⟨hplace, -⟩ := hok rfl
      rw [Text.rstrcpy_of_fits hfits] at hplace
      rcases hplace with hdata | hnew
      · exact .inr (.inl ⟨Bool.eq_false_of_not_eq_true hdir, hdata⟩)
      · exact .inl hnew

/-- **An item is laid down at its path.** -/
theorem extractEntry_lays (hE : E.Honest) {e : ReadEntry} {p : EntryHeader × Bytes}
    (he : Libarchive.Restores p e) {file : Text} (hfits : file.length < Text.maxNameLen)
    {json : Json} {s t : Session}
    (h : extractEntry E resource file e json s = .ok (.ok (), t)) :
    Lays (fun q => q = file) s t := by
  obtain ⟨hnodes, -⟩ := extractEntry_ok hE he hfits h
  have hkind : e.isDir = p.1.isDir := he.1
  have hfrom : (s.nodes file = none ∧ s.nodes (Text.parent file) = some .coll)
      ∨ (e.isDir = false ∧ ∃ data, s.nodes file = some (.obj data))
      ∨ s.nodes file = some .coll ∧ e.isDir = true := by
    obtain ⟨u, hitem, -⟩ := extractEntry_ok_iff.mp h
    exact extractItem_from hE hfits hitem
  refine ⟨⟨_, (extractEntry_asks h).mono (fun q hq => ?_) le_rfl⟩, fun q hq => ?_, fun htree => ?_,
    fun q data hdata => ?_⟩
  · rw [Text.rstrcpy_of_fits hfits] at hq
    exact hq.elim id id
  · rw [hnodes, Function.update_of_ne hq]
  · rw [hnodes]
    refine htree.update ?_
    rcases hfrom with hnew | ⟨-, hobj⟩ | ⟨hcoll, hdir⟩
    · exact .inl hnew
    · exact .inr (.inl hobj)
    · exact .inr (.inr ⟨hcoll, if_pos (hkind.symm.trans hdir)⟩)
  · rw [hnodes]
    by_cases hq : q = file
    · subst hq
      rw [Function.update_self]
      rcases hfrom with ⟨hnone, -⟩ | ⟨hdir, -⟩ | ⟨hcoll, -⟩
      · exact nomatch hnone.symm.trans hdata
      · exact ⟨p.2, congrArg some (if_neg (by rw [← hkind, hdir]; exact Bool.false_ne_true))⟩
      · exact nomatch hcoll.symm.trans hdata
    · exact ⟨data, by rw [Function.update_of_ne hq, hdata]⟩

/-! ## What the loop passes -/

/-- **The loop has passed some items**, from one session to another. -/
inductive Passes (E : Irods) (headers : ℕ → HeaderResult) (resource : Option Text)
    (target : Text) : List Json → ℕ → Session → Session → Prop
  | nil (n : ℕ) (s : Session) : Passes E headers resource target [] n s s
  | cons {json : Json} {items : List Json} {n : ℕ} {e : ReadEntry} {name : Text}
      {s t u : Session} (hheader : headers n = .ok e)
      (hname : json.stringMember "name".toList = some name)
      (hentry : extractEntry E resource (Text.join target name) e json s = .ok (.ok (), t))
      (hrest : Passes E headers resource target items (n + 1) t u) :
      Passes E headers resource target (json :: items) n s u

/-- **A loop that ends without an error has passed all items**, where the headers are
read. -/
theorem passes_of_loop {space : ℤ} : ∀ {items : List Json} {n : ℕ} {status : Status}
    {s : Session} {r : Extraction}, (∀ k < items.length, ∃ e, headers (n + k) = .ok e) →
    extractLoop E headers resource none target space items n status s = .ok r →
    r.status.isNeg = false → Passes E headers resource target items n s r.session := by
  intro items
  induction items with
  | nil =>
    intro n status s r _ h _
    obtain rfl := Except.ok.inj h
    exact .nil n s
  | cons json items ih =>
    intro n status s r hheaders h hstatus
    obtain ⟨e, hheader⟩ := hheaders 0 (Nat.zero_lt_succ _)
    rw [Nat.add_zero] at hheader
    cases hname : json.stringMember "name".toList with
    | none =>
      rw [extractLoop_nameless hheader hname] at h
      cases h
    | some name =>
      rw [extractLoop_cons hheader hname] at h
      split at h
      · cases h
      · rename_i f t hentry
        obtain rfl := Except.ok.inj h
        exact absurd (f.neg.symm.trans hstatus) (by simp)
      · rename_i t hentry
        cases hloop : extractLoop E headers resource none target space items (n + 1) (.num 0) t with
        | error fault =>
          rw [hloop] at h
          cases h
        | ok r' =>
          rw [hloop] at h
          obtain rfl := Except.ok.inj h
          have hrest : Passes E headers resource target items (n + 1) t r'.session := by
            refine ih (fun k hk => ?_) hloop hstatus
            rw [Nat.add_assoc, Nat.add_comm 1 k]
            exact hheaders (k + 1) (Nat.succ_lt_succ hk)
          exact .cons hheader hname hentry hrest

/-- The items that have been passed have names. -/
theorem Passes.named {items : List Json} {n : ℕ} {s t : Session}
    (h : Passes E headers resource target items n s t) :
    ∀ item ∈ items, ∃ name, item.stringMember "name".toList = some name := by
  induction h with
  | nil => exact List.forall_mem_nil _
  | cons _ hname _ _ ih => exact List.forall_mem_cons.mpr ⟨⟨_, hname⟩, ih⟩

/-- Items that have been passed have been passed one after the other. -/
theorem Passes.split {pre post : List Json} : ∀ {n : ℕ} {s u : Session},
    Passes E headers resource target (pre ++ post) n s u →
    ∃ t, Passes E headers resource target pre n s t
      ∧ Passes E headers resource target post (n + pre.length) t u := by
  induction pre with
  | nil => exact fun {n s u} h => ⟨s, .nil n s, h⟩
  | cons json pre ih =>
    intro n s u h
    cases h with
    | cons hheader hname hentry hrest =>
      obtain ⟨t, hpre, hpost⟩ := ih hrest
      refine ⟨t, .cons hheader hname hentry hpre, ?_⟩
      rwa [List.length_cons, ← Nat.add_assoc, Nat.add_right_comm]

/-- The place of an item. -/
def PlaceOf (target : Text) (items : List Json) (q : Text) : Prop :=
  ∃ item ∈ items, ∃ name, item.stringMember "name".toList = some name ∧ q = Text.join target name

/-- **What has been passed is laid down at the places of the items.** -/
theorem Passes.lays (hE : E.Honest) {items : List Json} {n : ℕ} {s t : Session}
    (h : Passes E headers resource target items n s t)
    (hheaders : ∀ k < items.length, ∃ e p, headers (n + k) = .ok e ∧ Libarchive.Restores p e)
    (hfits : ∀ item ∈ items, ∀ name, item.stringMember "name".toList = some name →
      (Text.join target name).length < Text.maxNameLen) :
    Lays (PlaceOf target items) s t := by
  induction h with
  | nil => exact .refl _ _
  | @cons json items n e name s t u hheader hname hentry hrest ih =>
    rw [List.forall_mem_cons] at hfits
    obtain ⟨e', p, hheader', he⟩ := hheaders 0 (Nat.zero_lt_succ _)
    obtain rfl := HeaderResult.ok.inj (hheader.symm.trans hheader')
    have hfirst := extractEntry_lays hE he (hfits.1 name hname) hentry
    have hlater := ih (fun k hk => by
      rw [Nat.add_assoc, Nat.add_comm 1 k]
      exact hheaders (k + 1) (Nat.succ_lt_succ hk)) hfits.2
    refine (hfirst.mono ?_).trans (hlater.mono ?_)
    · rintro q rfl
      exact ⟨json, List.mem_cons_self, name, hname, rfl⟩
    · rintro q ⟨item, hitem, hplace⟩
      exact ⟨item, List.mem_cons_of_mem _ hitem, hplace⟩

end Extract

/-! ## The collections above an item -/

/-- What comes of putting collections at some paths. -/
theorem nodes_foldl_put (paths : List Text) : ∀ (s : Session) (q : Text),
    (paths.foldl (fun s p => s.put p .coll) s).nodes q
      = if q ∈ paths then some .coll else s.nodes q := by
  induction paths with
  | nil => exact fun _ _ => rfl
  | cons p paths ih =>
    intro s q
    rw [List.foldl_cons, ih]
    by_cases hq : q ∈ paths
    · rw [if_pos hq, if_pos (List.mem_cons_of_mem p hq)]
    · rw [if_neg hq]
      by_cases hp : q = p
      · subst hp
        rw [if_pos List.mem_cons_self, nodes_put_self]
      · rw [if_neg (fun h => (List.mem_cons.mp h).elim hp hq), nodes_put_of_ne s _ hp]

/-- **The collection an item to be extracted alone is in**: it is there afterwards, where
no object stands there or above, and nothing has changed but that there may be collections
above it that were not there before. -/
theorem makeParent_spec {E : Irods} (hE : E.Serves) {target name : Text} (hslash : '/' ∈ name)
    (hfits : (Text.join target name).length < Text.maxNameLen) {s : Session}
    (hfree : ∀ q, q = Text.join target (parentName name)
        ∨ q ∈ ancestors (Text.join target (parentName name)) → ∀ data, s.nodes q ≠ some (.obj data)) :
    let path := Text.join target (parentName name)
    let s' := makeParent E target name s
    s'.nodes path = some .coll
      ∧ (∀ q, s'.nodes q ≠ s.nodes q → s'.nodes q = some .coll ∧ (q = path ∨ q ∈ ancestors path))
      ∧ ∃ b, s.Since s' [(.collCreate path true, b)] := by
  intro path s'
  have hpath : Text.rstrcpy path = path := by
    obtain ⟨last, hlast, -⟩ := join_parentName hslash
    refine Text.rstrcpy_of_fits ?_
    have hlen := congrArg List.length hlast
    rw [Text.length_join] at hlen hfits
    show (Text.join target (parentName name)).length < _
    rw [Text.length_join]
    omega
  have hmade : s' = (s.collCreate E path true).2 := by
    show makeParent E target name s = _
    unfold makeParent
    rw [if_pos hslash]
    exact congrArg (fun p => (s.collCreate E p true).2) hpath
  rw [hmade]
  refine and_assoc.mp ⟨?_, since_collCreate E path true s⟩
  unfold Session.collCreate Session.request
  rw [(hE _).1]
  -- where the collection is there already the request changes nothing
  cases hnode : s.nodes path with
  | some n =>
    cases n with
    | coll => exact ⟨hnode, fun q hq => absurd rfl hq⟩
    | obj data => exact absurd hnode (hfree path (.inl rfl) data)
  | none =>
    dsimp only
    rw [if_pos rfl, if_neg]
    · dsimp only
      rw [nodes_record, nodes_foldl_put]
      refine ⟨if_pos (by simp), fun q hq => ?_⟩
      rw [nodes_foldl_put] at hq ⊢
      by_cases hmem : q ∈ ancestors path ++ [path]
      · rw [if_pos hmem]
        refine ⟨rfl, ?_⟩
        rw [List.mem_append, List.mem_singleton] at hmem
        exact hmem.symm
      · rw [if_neg hmem] at hq
        exact absurd rfl hq
    · rw [List.any_eq_true]
      rintro ⟨q, hq, hobj⟩
      split at hobj
      · rename_i data hdata
        exact hfree q (.inr hq) data hdata
      · exact nomatch hobj
