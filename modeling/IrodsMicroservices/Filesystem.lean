import IrodsMicroservices.LexicalPath

/-!
# A file system with symbolic links

How an operating system resolves a path: piece by piece from the root or from the
working directory, following the links it comes across, forty of them at most. A
dot-dot leads to the parent of the directory that has actually been reached.

The locations of a file system are the paths that no link and no dot leads along.
What stands at a location is in a directory, and has a name (`Filesystem.parent`,
`Filesystem.isName`).

Resolving a path and resolving its normal form are two things: the one goes into
the directory that a dot-dot leaves, the other passes it by. They lead to the same
place where no name that is cancelled is a link (`resolve_lexicallyNormal`).
-/

open LexicalPath

/-- A location: the names from the root down to it. -/
abbrev Location := List Text

/-- What stands at a location. -/
inductive FsNode
  | dir
  | file (data : Bytes)
  | link (target : Text)
  deriving DecidableEq

/-- Why a path leads nowhere. -/
inductive PathError
  | noEntry
  | notDir
  | loop
  deriving DecidableEq

/-- **A file system.** -/
structure Filesystem where
  /-- What stands at a location. -/
  node : Location → Option FsNode
  /-- The entries of a directory, in the order they are read. -/
  names : Location → List Text
  /-- When what stands at a location was last written. -/
  mtime : Location → ℤ
  /-- The root is a directory. -/
  root : node [] = some .dir
  /-- What stands somewhere is in a directory. -/
  parent : ∀ {loc x}, node (loc ++ [x]) ≠ none → node loc = some .dir
  /-- What stands somewhere has a name. -/
  isName : ∀ {loc x}, node (loc ++ [x]) ≠ none → IsName x
  /-- The entries are what is in the directory. -/
  mem_names : ∀ loc x, x ∈ names loc ↔ node (loc ++ [x]) ≠ none
  /-- Each of them is read once. -/
  nodup_names : ∀ loc, (names loc).Nodup

namespace Filesystem

/-- Where a resolution has come, and how many links it may still follow. -/
abbrev Place := Location × ℕ

/-- One piece of a path. -/
def stepPiece (fs : Filesystem) (follow : Place → Text → Except PathError Place) (p : Place)
    (x : Text) : Except PathError Place :=
  match fs.node p.1 with
  | some .dir =>
    if IsNoise x then .ok p
    -- the root is its own parent
    else if x = "..".toList then .ok (p.1.dropLast, p.2)
    else
      match fs.node (p.1 ++ [x]) with
      | none => .error .noEntry
      | some (.link target) => follow p target
      | some _ => .ok (p.1 ++ [x], p.2)
  | _ => .error .notDir

/-- The pieces of a path. -/
def walk (fs : Filesystem) (follow : Place → Text → Except PathError Place) :
    List Text → Place → Except PathError Place
  | [], p => .ok p
  | x :: xs, p => (fs.stepPiece follow p x).bind (fs.walk follow xs)

/-- A link, met in the directory of a place. The first number is how deep links may
still be nested; there are no more of them than links that may be followed. -/
def follow (fs : Filesystem) : ℕ → Place → Text → Except PathError Place
  | 0, _, _ => .error .loop
  | depth + 1, p, target =>
    match p.2 with
    | 0 => .error .loop
    | links + 1 =>
      if target = [] then .error .noEntry
      else fs.walk (fs.follow depth) (pieces target)
        (if isAbsolute target then [] else p.1, links)

/-- `MAXSYMLINKS`. -/
def maxLinks : ℕ := 40

/-- Where the resolution of a path starts. -/
def start (cwd : Location) (p : Text) : Place := (if isAbsolute p then [] else cwd, maxLinks)

/-- **The resolution of a path**, with links followed. -/
def resolve (fs : Filesystem) (cwd : Location) (p : Text) : Except PathError Location :=
  if p = [] then .error .noEntry
  else (fs.walk (fs.follow maxLinks) (pieces p) (start cwd p)).map Prod.fst

/-! ## File systems given by their entries -/

/-- What stands at a location, from a list of everything below the root. -/
def entryNode (entries : List (Location × FsNode)) (loc : Location) : Option FsNode :=
  if loc = [] then some .dir else (entries.find? (fun e => e.1 = loc)).map Prod.snd

/-- Every entry has a name and is in a directory. -/
def WellFormed (entries : List (Location × FsNode)) : Prop :=
  ∀ e ∈ entries, e.1 ≠ [] ∧ entryNode entries e.1.dropLast = some .dir
    ∧ IsName (e.1.getLast?.getD [])

instance (entries : List (Location × FsNode)) : Decidable (WellFormed entries) :=
  inferInstanceAs (Decidable (∀ e ∈ entries, _))

theorem entryNode_concat {entries : List (Location × FsNode)} {loc : Location} {x : Text} :
    entryNode entries (loc ++ [x]) ≠ none ↔ ∃ node, (loc ++ [x], node) ∈ entries := by
  unfold entryNode
  rw [if_neg (by simp), ne_eq, Option.map_eq_none_iff, List.find?_eq_none]
  simp

/-- **The file system with some entries**, none of which is written at any time but 0. -/
def ofEntries (entries : List (Location × FsNode)) (h : WellFormed entries) : Filesystem where
  node := entryNode entries
  names loc := ((entries.filter (fun e => e.1.dropLast = loc)).map
    (fun e => e.1.getLast?.getD [])).dedup
  mtime _ := 0
  root := rfl
  parent {loc x} hne := by
    obtain ⟨node, hmem⟩ := entryNode_concat.mp hne
    have hdir := (h _ hmem).2.1
    rwa [List.dropLast_concat] at hdir
  isName {loc x} hne := by
    obtain ⟨node, hmem⟩ := entryNode_concat.mp hne
    have hname := (h _ hmem).2.2
    rwa [List.getLast?_concat, Option.getD_some] at hname
  mem_names loc x := by
    rw [entryNode_concat, List.mem_dedup, List.mem_map]
    constructor
    · rintro ⟨⟨l, node⟩, hmem, rfl⟩
      obtain ⟨hentry, hloc⟩ := List.mem_filter.mp hmem
      refine ⟨node, ?_⟩
      rw [← of_decide_eq_true hloc, List.getLast?_eq_some_getLast (h _ hentry).1, Option.getD_some,
        List.dropLast_concat_getLast]
      exact hentry
    · rintro ⟨node, hmem⟩
      refine ⟨_, List.mem_filter.mpr ⟨hmem, decide_eq_true List.dropLast_concat⟩, ?_⟩
      rw [List.getLast?_concat, Option.getD_some]
  nodup_names _ := List.nodup_dedup _

/-! ## Walking -/

section Walk

variable {fs : Filesystem} {f : Place → Text → Except PathError Place}

theorem walk_append (xs ys : List Text) (p : Place) :
    fs.walk f (xs ++ ys) p = (fs.walk f xs p).bind (fs.walk f ys) := by
  induction xs generalizing p with
  | nil => rfl
  | cons x xs ih =>
    show (fs.stepPiece f p x).bind (fs.walk f (xs ++ ys)) = _
    rw [show fs.walk f (x :: xs) p = (fs.stepPiece f p x).bind (fs.walk f xs) from rfl]
    cases fs.stepPiece f p x with
    | error e => rfl
    | ok q => exact ih q

/-- A walk that goes on has come somewhere. -/
theorem walk_append_ok {xs ys : List Text} {p r : Place} :
    fs.walk f (xs ++ ys) p = .ok r ↔ ∃ q, fs.walk f xs p = .ok q ∧ fs.walk f ys q = .ok r := by
  rw [walk_append]
  cases fs.walk f xs p with
  | error e =>
    constructor
    · exact fun h => nomatch h
    · rintro ⟨_, h, -⟩
      exact nomatch h
  | ok q =>
    constructor
    · exact fun h => ⟨q, rfl, h⟩
    · rintro ⟨_, h, hr⟩
      obtain rfl := Except.ok.inj h
      exact hr

theorem walk_singleton (x : Text) (p : Place) : fs.walk f [x] p = fs.stepPiece f p x := by
  show (fs.stepPiece f p x).bind _ = _
  cases fs.stepPiece f p x <;> rfl

/-- A step is taken in a directory. -/
theorem dir_of_stepPiece {x : Text} {p r : Place} (h : fs.stepPiece f p x = .ok r) :
    fs.node p.1 = some .dir := by
  unfold stepPiece at h
  split at h
  · assumption
  · exact nomatch h

theorem stepPiece_noise {x : Text} (hx : IsNoise x) {p : Place} (hp : fs.node p.1 = some .dir) :
    fs.stepPiece f p x = .ok p := by
  unfold stepPiece
  rw [hp]
  exact if_pos hx

theorem stepPiece_dotdot {p : Place} (hp : fs.node p.1 = some .dir) :
    fs.stepPiece f p "..".toList = .ok (p.1.dropLast, p.2) := by
  unfold stepPiece
  rw [hp]
  rfl

/-- Noise leads nowhere else. -/
theorem walk_noise {xs : List Text} (hxs : ∀ x ∈ xs, IsNoise x) {p : Place}
    (hp : fs.node p.1 = some .dir) : fs.walk f xs p = .ok p := by
  induction xs with
  | nil => rfl
  | cons x xs ih =>
    rw [List.forall_mem_cons] at hxs
    show (fs.stepPiece f p x).bind _ = _
    rw [stepPiece_noise hxs.1 hp]
    exact ih hxs.2

/-- A name that is no link leads to its place. -/
theorem stepPiece_name {x : Text} (hx : IsName x) {p r : Place}
    (hlink : ∀ t, fs.node (p.1 ++ [x]) ≠ some (.link t)) (h : fs.stepPiece f p x = .ok r) :
    r = (p.1 ++ [x], p.2) := by
  have hp := dir_of_stepPiece h
  unfold stepPiece at h
  rw [hp] at h
  dsimp only at h
  rw [if_neg hx.1, if_neg hx.2.1] at h
  split at h
  · exact nomatch h
  · rename_i t ht
    exact absurd ht (hlink t)
  · exact (Except.ok.inj h).symm

/-- The parent of a directory is a directory. -/
theorem dir_dropLast {loc : Location} (h : fs.node loc = some .dir) :
    fs.node loc.dropLast = some .dir := by
  induction loc using List.reverseRecOn with
  | nil => exact h
  | append_singleton loc x _ =>
    rw [List.dropLast_concat]
    exact fs.parent (by rw [h]; simp)

/-- A walk that ends in noise or in a dot-dot has come to a directory. -/
theorem dir_of_endsInDir {xs : List Text} {p r : Place} (hxs : endsInDir xs = true)
    (h : fs.walk f xs p = .ok r) : fs.node r.1 = some .dir := by
  induction xs using List.reverseRecOn with
  | nil => exact nomatch hxs
  | append_singleton xs x _ =>
    obtain ⟨q, -, hq⟩ := walk_append_ok.mp h
    rw [walk_singleton] at hq
    have hdir := dir_of_stepPiece hq
    unfold endsInDir at hxs
    rw [List.getLast?_concat] at hxs
    rcases of_decide_eq_true hxs with hx | rfl
    · rw [stepPiece_noise hx hdir] at hq
      exact Except.ok.inj hq ▸ hdir
    · rw [stepPiece_dotdot hdir] at hq
      exact Except.ok.inj hq ▸ dir_dropLast hdir

/-- No name that a dot-dot cancels is a link, where it stands. -/
def NoLinkCancelled (fs : Filesystem) (f : Place → Text → Except PathError Place)
    (rooted : Bool) (xs : List Text) (p : Place) : Prop :=
  ∀ pre post top rest q, xs = pre ++ "..".toList :: post → stack rooted pre = top :: rest →
    top ≠ "..".toList → fs.walk f rest.reverse p = .ok q →
    ∀ t, fs.node (q.1 ++ [top]) ≠ some (.link t)

/-- **Walking some pieces leads where the segments that are left of them lead.** The
induction is on the pieces, from the last one back; each dot-dot undoes the step of
the name it cancels. -/
theorem walk_stack {rooted : Bool} {p : Place} (hroot : rooted = true → p.1 = []) :
    ∀ {xs : List Text} {r : Place}, (∀ x ∈ xs, '/' ∉ x) → fs.NoLinkCancelled f rooted xs p →
      fs.walk f xs p = .ok r → fs.walk f (stack rooted xs).reverse p = .ok r := by
  intro xs
  induction xs using List.reverseRecOn with
  | nil => exact fun _ _ h => h
  | append_singleton xs x ih =>
    intro r hxs hlinks h
    obtain ⟨q, hq, hr⟩ := walk_append_ok.mp h
    rw [walk_singleton] at hr
    have hq' := ih (fun y hy => hxs y (List.mem_append_left _ hy))
      (fun pre post top rest q heq => hlinks pre (post ++ [x]) top rest q (by rw [heq]; simp)) hq
    have hdir := dir_of_stepPiece hr
    rw [stack_concat]
    rcases piece_cases (hxs x (List.mem_append_right _ (List.mem_singleton_self x))) with
      hx | rfl | hx
    · rw [push_noise hx]
      rw [stepPiece_noise hx hdir] at hr
      exact Except.ok.inj hr ▸ hq'
    · rw [push_dotdot]
      rw [stepPiece_dotdot hdir] at hr
      have hr' := Except.ok.inj hr
      split
      · rename_i hst
        rw [hst] at hq'
        obtain rfl : p = q := Except.ok.inj hq'
        cases rooted with
        | true =>
          have hp : (p.1.dropLast, p.2) = p := by rw [hroot rfl, List.dropLast_nil, ← hroot rfl]
          show Except.ok p = Except.ok r
          rw [← hr', hp]
        | false =>
          show fs.walk f ["..".toList] p = _
          rw [walk_singleton, stepPiece_dotdot hdir, hr']
      · rename_i top rest hst
        rw [hst, List.reverse_cons] at hq'
        split
        · rw [List.reverse_cons, hst, List.reverse_cons]
          refine walk_append_ok.mpr ⟨q, hq', ?_⟩
          rw [walk_singleton, stepPiece_dotdot hdir, hr']
        · rename_i htop
          obtain ⟨s, hs, hstep⟩ := walk_append_ok.mp hq'
          rw [walk_singleton] at hstep
          have hname : IsName top := by
            have hmem : top ∈ stack rooted xs := hst ▸ List.mem_cons_self
            rcases mem_stack (fun y hy => hxs y (List.mem_append_left _ hy)) top hmem with
              h | ⟨-, h⟩
            · exact h
            · exact absurd h htop
          have hlink := hlinks xs [] top rest s rfl hst htop hs
          rw [stepPiece_name hname hlink hstep, List.dropLast_concat] at hr'
          exact hr' ▸ hs
    · rw [push_name hx, List.reverse_cons]
      refine walk_append_ok.mpr ⟨q, hq', ?_⟩
      rw [walk_singleton]
      exact hr

end Walk

/-! ## Resolving a normal form -/

/-- **No name that a dot-dot of the path cancels is a symbolic link.** -/
def CancelsNoLink (fs : Filesystem) (cwd : Location) (p : Text) : Prop :=
  fs.NoLinkCancelled (fs.follow maxLinks) (isAbsolute p) (pieces p) (start cwd p)

theorem resolve_ok_iff {fs : Filesystem} {cwd : Location} {p : Text} {loc : Location} :
    fs.resolve cwd p = .ok loc ↔ p ≠ []
      ∧ ∃ links, fs.walk (fs.follow maxLinks) (pieces p) (start cwd p) = .ok (loc, links) := by
  unfold resolve
  by_cases hp : p = []
  · rw [if_pos hp]
    exact ⟨fun h => (nomatch h), fun h => absurd hp h.1⟩
  · rw [if_neg hp, and_iff_right hp]
    cases fs.walk (fs.follow maxLinks) (pieces p) (start cwd p) with
    | error e =>
      constructor
      · exact fun h => nomatch h
      · rintro ⟨_, h⟩
        exact nomatch h
    | ok r =>
      constructor
      · rintro ⟨⟩
        exact ⟨r.2, rfl⟩
      · rintro ⟨links, ⟨⟩⟩
        rfl

/-- **A path and its normal form lead to one place**, where no name that is cancelled
is a symbolic link. -/
theorem resolve_lexicallyNormal {fs : Filesystem} {cwd : Location} {p : Text} {loc : Location}
    (hlinks : fs.CancelsNoLink cwd p) (h : fs.resolve cwd p = .ok loc) :
    fs.resolve cwd (lexicallyNormal p) = .ok loc := by
  obtain ⟨hp, links, hwalk⟩ := resolve_ok_iff.mp h
  have hstart : fs.node (start cwd p).1 = some .dir := by
    obtain ⟨x, xs, hxs⟩ := List.exists_cons_of_ne_nil (pieces_ne_nil p)
    rw [hxs, ← List.singleton_append, walk_append_ok] at hwalk
    obtain ⟨q, hq, -⟩ := hwalk
    rw [walk_singleton] at hq
    exact dir_of_stepPiece hq
  have hsegs : fs.walk (fs.follow maxLinks) (normalSegments p) (start cwd p)
      = .ok (loc, links) := by
    refine walk_stack (fun habs => ?_) slash_not_mem_piece hlinks hwalk
    show (if isAbsolute p then [] else cwd) = []
    rw [if_pos habs]
  obtain ⟨before, after, hpieces, hbefore, hafter, hend⟩ := pieces_lexicallyNormal hp
  have hstart' : start cwd (lexicallyNormal p) = start cwd p := by
    unfold start
    rw [isAbsolute_lexicallyNormal]
  refine resolve_ok_iff.mpr ⟨lexicallyNormal_ne_nil hp, links, ?_⟩
  rw [hpieces, hstart']
  refine walk_append_ok.mpr ⟨_, walk_append_ok.mpr ⟨_, walk_noise hbefore hstart, hsegs⟩, ?_⟩
  cases after with
  | nil => rfl
  | cons x after =>
    exact walk_noise hafter (dir_of_endsInDir (hend (List.cons_ne_nil _ _)) hwalk)

/-! ## What a path leads to -/

/-- Something is there, and it is no link. -/
def Arrived (fs : Filesystem) (loc : Location) : Prop :=
  ∃ node, fs.node loc = some node ∧ ∀ t, node ≠ .link t

theorem arrived_of_dir {fs : Filesystem} {loc : Location} (h : fs.node loc = some .dir) :
    fs.Arrived loc :=
  ⟨.dir, h, fun _ => by simp⟩

section Arrived

variable {fs : Filesystem} {f : Place → Text → Except PathError Place}

theorem stepPiece_arrived (hf : ∀ p t r, f p t = .ok r → fs.Arrived r.1) {x : Text} {p r : Place}
    (h : fs.stepPiece f p x = .ok r) : fs.Arrived r.1 := by
  have hdir := dir_of_stepPiece h
  unfold stepPiece at h
  rw [hdir] at h
  dsimp only at h
  split at h
  · obtain rfl := Except.ok.inj h
    exact arrived_of_dir hdir
  · split at h
    · obtain rfl := Except.ok.inj h
      exact arrived_of_dir (dir_dropLast hdir)
    · split at h
      · exact nomatch h
      · exact hf _ _ _ h
      · rename_i node hlink hnode
        obtain rfl := Except.ok.inj h
        exact ⟨node, hnode, hlink⟩

/-- It is the last step that counts. -/
theorem walk_arrived (hf : ∀ p t r, f p t = .ok r → fs.Arrived r.1) {xs : List Text}
    (hxs : xs ≠ []) {p r : Place} (h : fs.walk f xs p = .ok r) : fs.Arrived r.1 := by
  rw [← List.dropLast_append_getLast hxs, walk_append_ok] at h
  obtain ⟨q, -, hlast⟩ := h
  rw [walk_singleton] at hlast
  exact stepPiece_arrived hf hlast

end Arrived

/-- A link leads to something that is no link. The induction is on how deep links are
nested. -/
theorem follow_arrived {fs : Filesystem} : ∀ (depth : ℕ) (p : Place) (target : Text) (r : Place),
    fs.follow depth p target = .ok r → fs.Arrived r.1 := by
  intro depth
  induction depth with
  | zero => exact fun _ _ _ h => nomatch h
  | succ depth ih =>
    intro p target r h
    unfold follow at h
    split at h
    · exact nomatch h
    · split at h
      · exact nomatch h
      · exact walk_arrived ih (pieces_ne_nil _) h

/-- **A path leads to something that is no link.** -/
theorem resolve_arrived {fs : Filesystem} {cwd : Location} {p : Text} {loc : Location}
    (h : fs.resolve cwd p = .ok loc) : fs.Arrived loc := by
  obtain ⟨-, links, hwalk⟩ := resolve_ok_iff.mp h
  exact walk_arrived (follow_arrived maxLinks) (pieces_ne_nil p) hwalk

end Filesystem
