import IrodsMicroservices.Handles
import IrodsMicroservices.RequestLog
import IrodsMicroservices.RoundTrip

/-!
# What becomes of the descriptors

iRODS hands out a descriptor for every object that is opened or created, and keeps it
until it is closed; a server process has a fixed number of them. The archive services
hold two at most, the archive's own and that of the object being copied, and the
second is closed before the next one is opened.

A descriptor is identified with the path it has been opened for, and what a service
does with its descriptors is read off the log of its requests (`Request.handling`).
An open that fails gives no descriptor. A close gives it back whatever its status is:
no service calls it again.

The same walk through the code shows what the services may change: an archive that is
created changes its own object only, and an extraction the target and the places of
the items (`Confined`).
-/

/-- What a request does with a descriptor. -/
def Request.handling : Request × Bool → Option (Handling Text)
  | (.objOpen path _ _, true) => some (.acquire path)
  | (.objCreate path _, true) => some (.acquire path)
  | (.objRead path, _) => some (.use path)
  | (.objWrite path _, _) => some (.use path)
  | (.objClose path, _) => some (.release path)
  | _ => none

/-- What the requests on record do with the descriptors. -/
def handlings (log : List (Request × Bool)) : List (Handling Text) :=
  log.filterMap Request.handling

namespace Session

/-! ## What changes -/

/-- **Nothing changes outside of some places.** -/
def Confined (D : Text → Prop) (s s' : Session) : Prop :=
  ∀ q, ¬ D q → s'.nodes q = s.nodes q ∧ s'.avus q = s.avus q

section Confined

variable {E : Irods} {D D' : Text → Prop} {path : Text} {s t u : Session}

theorem Confined.refl (D : Text → Prop) (s : Session) : Confined D s s := fun _ _ => ⟨rfl, rfl⟩

theorem Confined.trans (h : Confined D s t) (h' : Confined D t u) : Confined D s u :=
  fun q hq => ⟨(h' q hq).1.trans (h q hq).1, (h' q hq).2.trans (h q hq).2⟩

theorem Confined.mono (h : Confined D s t) (hD : ∀ q, D q → D' q) : Confined D' s t :=
  fun _ hq => h _ (fun hd => hq (hD _ hd))

theorem Confined.of_eq (hnodes : t.nodes = s.nodes) (havus : t.avus = s.avus) :
    Confined D s t :=
  fun q _ => ⟨congrFun hnodes q, congrFun havus q⟩

theorem confined_put (hpath : D path) (n : Node) : Confined D s (s.put path n) := by
  refine fun q hq => ⟨nodes_put_of_ne s n ?_, rfl⟩
  rintro rfl
  exact hq hpath

/-- What a request changes is what it answers with. -/
theorem confined_request {α : Type} {r : Request} {answer : Except Failure (α × Session)}
    (h : ∀ a t, answer = .ok (a, t) → Confined D s t) :
    Confined D s (s.request E r answer).2 := by
  cases hx : s.request E r answer with
  | mk x t =>
    cases x with
    | ok a =>
      obtain ⟨u, hu, rfl⟩ := request_ok hx
      exact h a u hu
    | error f =>
      rw [request_error hx]
      exact .refl D s

theorem confined_objOpen_read (resource : Option Text) :
    Confined D s (s.objOpen E path false resource).2 := by
  obtain ⟨hnodes, havus, -⟩ := objOpen_read_spec
    (rfl : s.objOpen E path false resource = ((s.objOpen E path false resource).1, _))
  exact .of_eq hnodes havus

theorem confined_objOpen_write (hpath : D path) (resource : Option Text) :
    Confined D s (s.objOpen E path true resource).2 := by
  refine confined_request (fun a t h => ?_)
  split at h
  · obtain ⟨-, rfl⟩ := Prod.mk.inj (Except.ok.inj h)
    exact confined_put hpath _
  · cases h

theorem confined_objCreate (hpath : D path) (resource : Option Text) :
    Confined D s (s.objCreate E path resource).2 := by
  refine confined_request (fun a t h => ?_)
  split at h
  · cases h
  · cases h
  · split at h
    · obtain ⟨-, rfl⟩ := Prod.mk.inj (Except.ok.inj h)
      exact confined_put hpath _
    · cases h

theorem confined_objRead (pos len : ℕ) : Confined D s (s.objRead E path pos len).2 := by
  refine confined_request (fun a t h => ?_)
  split at h
  · obtain ⟨-, rfl⟩ := Prod.mk.inj (Except.ok.inj h)
    exact .refl D s
  · cases h

theorem confined_objWrite (hpath : D path) (buf : Bytes) :
    Confined D s (s.objWrite E path buf).2 := by
  refine confined_request (fun a t h => ?_)
  split at h
  · obtain ⟨-, rfl⟩ := Prod.mk.inj (Except.ok.inj h)
    exact confined_put hpath _
  · cases h

theorem confined_objClose (D : Text → Prop) (E : Irods) (path : Text) (s : Session) :
    Confined D s (s.objClose E path).2 :=
  .of_eq (objClose_frame s E path).1 (objClose_frame s E path).2

theorem confined_modDataObjMeta (modified : ℤ) :
    Confined D s (s.modDataObjMeta E path modified).2 := by
  refine confined_request (fun a t h => ?_)
  obtain ⟨-, rfl⟩ := Prod.mk.inj (Except.ok.inj h)
  exact .refl D s

theorem confined_modAvuMetadata (hpath : D path) (op : AvuOp) (isColl : Bool)
    (name value unit : Option Text) :
    Confined D s (s.modAvuMetadata E op isColl path name value unit).2 := by
  refine confined_request (fun a t h => ?_)
  split at h
  · obtain ⟨-, rfl⟩ := Prod.mk.inj (Except.ok.inj h)
    refine fun q hq => ⟨rfl, Function.update_of_ne ?_ ..⟩
    rintro rfl
    exact hq hpath
  · cases h

theorem confined_foldl_put {paths : List Text} (hpaths : ∀ p ∈ paths, D p) :
    ∀ s : Session, Confined D s (paths.foldl (fun s p => s.put p .coll) s) := by
  induction paths with
  | nil => exact .refl D
  | cons p paths ih =>
    intro s
    rw [List.forall_mem_cons] at hpaths
    exact .trans (confined_put hpaths.1 _) (ih hpaths.2 (s.put p .coll))

/-- Making a collection, with the collections above it or without them. -/
theorem confined_collCreate (hpath : D path) {recursive : Bool}
    (habove : recursive = true → ∀ p ∈ ancestors path, D p) :
    Confined D s (s.collCreate E path recursive).2 := by
  refine confined_request (fun a t h => ?_)
  split at h
  · cases h
  · cases h
  · split at h
    · rename_i hrecursive
      split at h
      · cases h
      · obtain ⟨-, rfl⟩ := Prod.mk.inj (Except.ok.inj h)
        refine confined_foldl_put (fun p hp => ?_) s
        rcases List.mem_append.mp hp with hp | hp
        · exact habove hrecursive p hp
        · rwa [List.mem_singleton.mp hp]
    · split at h
      · obtain ⟨-, rfl⟩ := Prod.mk.inj (Except.ok.inj h)
        exact confined_put hpath _
      · cases h

end Confined

/-! ## What is held -/

/-- **What is asked of the server between two states leaves some descriptors where it
has found others**, never holds more than two, and changes nothing outside of some
places. -/
structure Handled (D : Text → Prop) (held held' : List Text) (s s' : Session) : Prop where
  run : ∃ log, s.Since s' log ∧ Handles.run 2 held (handlings log) = some held'
  confined : Confined D s s'

section Handled

variable {E : Irods} {D D' : Text → Prop} {held held' held'' : List Text} {path : Text}
  {s t u : Session}

theorem Handled.refl (D : Text → Prop) (held : List Text) (s : Session) :
    Handled D held held s s :=
  ⟨⟨[], .refl s, rfl⟩, .refl D s⟩

theorem Handled.trans (h : Handled D held held' s t) (h' : Handled D held' held'' t u) :
    Handled D held held'' s u := by
  obtain ⟨⟨log, hlog, hrun⟩, hconfined⟩ := h
  obtain ⟨⟨log', hlog', hrun'⟩, hconfined'⟩ := h'
  refine ⟨⟨log ++ log', hlog.trans hlog', ?_⟩, hconfined.trans hconfined'⟩
  show Handles.run 2 held ((log ++ log').filterMap Request.handling) = _
  rw [List.filterMap_append]
  exact (Handles.run_append hrun).trans hrun'

theorem Handled.mono (h : Handled D held held' s t) (hD : ∀ q, D q → D' q) :
    Handled D' held held' s t :=
  ⟨h.run, h.confined.mono hD⟩

/-- A request that is no concern of the descriptors. -/
theorem Handled.of_since {r : Request} (h : ∃ b, s.Since t [(r, b)])
    (hr : ∀ b, Request.handling (r, b) = none) (hconfined : Confined D s t) :
    Handled D held held s t := by
  obtain ⟨b, h⟩ := h
  refine ⟨⟨_, h, ?_⟩, hconfined⟩
  show Handles.run 2 held ([(r, b)].filterMap Request.handling) = _
  rw [List.filterMap_cons_none (hr b)]
  rfl

/-- A request that handles a descriptor, whatever comes of it. -/
theorem Handled.of_step {r : Request} {e : Handling Text} (h : ∃ b, s.Since t [(r, b)])
    (hr : ∀ b, Request.handling (r, b) = some e) (hstep : Handles.step 2 held e = some held')
    (hconfined : Confined D s t) : Handled D held held' s t := by
  obtain ⟨b, h⟩ := h
  refine ⟨⟨_, h, ?_⟩, hconfined⟩
  show Handles.run 2 held ([(r, b)].filterMap Request.handling) = _
  rw [List.filterMap_cons_some (hr b)]
  exact Handles.run_cons hstep []

/-- A request is on record as granted exactly where it has been answered. -/
theorem since_isOk {α : Type} {r : Request} {answer : Except Failure (α × Session)}
    {x : Except Failure α} (hx : s.request E r answer = (x, t)) (h : ∃ b, s.Since t [(r, b)]) :
    s.Since t [(r, x.isOk)] := by
  obtain ⟨b, h⟩ := h
  have hlast : ∀ b', (∃ u : Session, t = u.record r b') → b = b' := by
    rintro b' ⟨u, rfl⟩
    have hlog : u.log ++ [(r, b')] = s.log ++ [(r, b)] := h
    have hentry : [(r, b')] = [(r, b)] := List.append_inj_right' hlog rfl
    simpa using hentry.symm
  cases x with
  | ok a =>
    obtain ⟨u, -, ht⟩ := request_ok hx
    rwa [hlast true ⟨u, ht⟩] at h
  | error f => rwa [hlast false ⟨s, request_error hx⟩] at h

/-- A request that hands out a descriptor where it is granted. -/
theorem Handled.of_open {α : Type} {r : Request} {answer : Except Failure (α × Session)}
    {x : Except Failure α} (hx : s.request E r answer = (x, t)) (h : ∃ b, s.Since t [(r, b)])
    (hgranted : Request.handling (r, true) = some (.acquire path))
    (hrefused : Request.handling (r, false) = none) (hheld : held.length < 2)
    (hconfined : Confined D s t) :
    Handled D held (if x.isOk then path :: held else held) s t := by
  refine ⟨⟨_, since_isOk hx h, ?_⟩, hconfined⟩
  show Handles.run 2 held ([(r, x.isOk)].filterMap Request.handling) = _
  cases x.isOk with
  | true =>
    rw [List.filterMap_cons_some hgranted]
    exact Handles.run_cons (Handles.step_acquire_iff.mpr ⟨hheld, rfl⟩) []
  | false =>
    rw [List.filterMap_cons_none hrefused]
    rfl

theorem handled_objOpen_read {resource : Option Text} {x : Except Failure Unit}
    (hheld : held.length < 2) (h : s.objOpen E path false resource = (x, t)) :
    Handled D held (if x.isOk then path :: held else held) s t := by
  have hsince := since_objOpen E path false resource s
  have hconfined : Confined D s (s.objOpen E path false resource).2 :=
    confined_objOpen_read resource
  rw [h] at hsince hconfined
  exact .of_open h hsince rfl rfl hheld hconfined

theorem handled_objOpen_write {resource : Option Text} {x : Except Failure Unit} (hpath : D path)
    (hheld : held.length < 2) (h : s.objOpen E path true resource = (x, t)) :
    Handled D held (if x.isOk then path :: held else held) s t := by
  have hsince := since_objOpen E path true resource s
  have hconfined : Confined D s (s.objOpen E path true resource).2 :=
    confined_objOpen_write hpath resource
  rw [h] at hsince hconfined
  exact .of_open h hsince rfl rfl hheld hconfined

theorem handled_objCreate {resource : Option Text} {x : Except Failure Unit} (hpath : D path)
    (hheld : held.length < 2) (h : s.objCreate E path resource = (x, t)) :
    Handled D held (if x.isOk then path :: held else held) s t := by
  have hsince := since_objCreate E path resource s
  have hconfined : Confined D s (s.objCreate E path resource).2 := confined_objCreate hpath resource
  rw [h] at hsince hconfined
  exact .of_open h hsince rfl rfl hheld hconfined

theorem handled_objRead (hheld : path ∈ held) {pos len : ℕ} {x : Except Failure Bytes}
    (h : s.objRead E path pos len = (x, t)) : Handled D held held s t := by
  have hsince := since_objRead E path pos len s
  have hconfined : Confined D s (s.objRead E path pos len).2 := confined_objRead pos len
  rw [h] at hsince hconfined
  exact .of_step hsince (fun _ => rfl) (Handles.step_use_iff.mpr ⟨hheld, rfl⟩) hconfined

theorem handled_objWrite (hpath : D path) (hheld : path ∈ held) {buf : Bytes}
    {x : Except Failure ℕ} (h : s.objWrite E path buf = (x, t)) : Handled D held held s t := by
  have hsince := since_objWrite E path buf s
  have hconfined : Confined D s (s.objWrite E path buf).2 := confined_objWrite hpath buf
  rw [h] at hsince hconfined
  exact .of_step hsince (fun _ => rfl) (Handles.step_use_iff.mpr ⟨hheld, rfl⟩) hconfined

theorem handled_objClose (D : Text → Prop) (E : Irods) (path : Text) (held : List Text)
    (s : Session) : Handled D (path :: held) held s (s.objClose E path).2 :=
  .of_step (since_objClose E path s) (fun _ => rfl) (Handles.step_release 2 path held)
    (confined_objClose D E path s)

theorem handled_collCreate (hpath : D path) {recursive : Bool}
    (habove : recursive = true → ∀ p ∈ ancestors path, D p) (held : List Text) (s : Session) :
    Handled D held held s (s.collCreate E path recursive).2 :=
  .of_since (since_collCreate E path recursive s) (fun _ => rfl)
    (confined_collCreate hpath habove)

end Handled

end Session

open Session

/-! ## Writing an archive -/

section Write

variable {L : Libarchive} {E : Irods} {J : Jansson} {D : Text → Prop} {held : List Text}

theorem handled_creat {path : Text} {resource : Option Text} {s t : Session}
    {x : Except Failure Unit} (hpath : D (Text.rstrcpy path)) (hheld : held.length < 2)
    (h : creat E path resource s = (x, t)) :
    Handled D held (if x.isOk then Text.rstrcpy path :: held else held) s t := by
  unfold creat at h
  cases hopen : s.objOpen E (Text.rstrcpy path) true resource with
  | mk y u =>
    have hfirst := handled_objOpen_write hpath hheld hopen
    rw [hopen] at h
    cases y with
    | ok =>
      obtain ⟨rfl, rfl⟩ := Prod.mk.inj h
      exact hfirst
    | error f =>
      dsimp only at h
      split at h
      -- the first open has given no descriptor
      · exact hfirst.trans (handled_objCreate hpath hheld h)
      · obtain ⟨rfl, rfl⟩ := Prod.mk.inj h
        exact hfirst

/-- What is handed over goes to the archive, which is open. -/
theorem handled_drain {path : Text} (hpath : D path) (hheld : path ∈ held) :
    ∀ (fuel : ℕ) (buf : Bytes) (s : Session),
      Handled D held held s (drain E path fuel buf s).2 := by
  intro fuel
  induction fuel with
  | zero => exact fun _ s => .refl D held s
  | succ fuel ih =>
    intro buf s
    unfold drain aWrite
    split
    · exact .refl D held s
    · cases hwrite : s.objWrite E path buf with
      | mk x t =>
        have hone := handled_objWrite hpath hheld hwrite
        cases x with
        | error f => exact hone
        | ok n =>
          cases n with
          | zero => exact hone
          | succ n => exact hone.trans (ih (buf.drop (n + 1)) t)

theorem handled_call {c : WriteCall} {w w' : ArchiveWriter} {s s' : Session} {ok : Bool}
    (hpath : D w.path) (hheld : w.path ∈ held) (h : w.call L E c s = (ok, w', s')) :
    Handled D held held s s' ∧ w'.path = w.path := by
  unfold ArchiveWriter.call at h
  split at h
  · obtain ⟨-, h⟩ := Prod.mk.inj h
    obtain ⟨rfl, rfl⟩ := Prod.mk.inj h
    exact ⟨.refl D held s, rfl⟩
  · obtain ⟨-, h⟩ := Prod.mk.inj h
    obtain ⟨rfl, rfl⟩ := Prod.mk.inj h
    exact ⟨handled_drain hpath hheld _ _ s, rfl⟩

/-- What is left open of a writer that has been freed: its archive, where the library has
given up and does not close it then. -/
def ArchiveWriter.left (L : Libarchive) (w : ArchiveWriter) : List Text :=
  if w.dead && !L.closesDead then [w.path] else []

/-- Freeing a writer closes its archive, unless the library has given up. -/
theorem handled_free {w : ArchiveWriter} (hpath : D w.path) (s : Session) :
    Handled D [w.path] (w.left L) s (w.free L E s).2 := by
  unfold ArchiveWriter.free ArchiveWriter.left
  cases hdead : w.dead with
  | true =>
    cases L.closesDead with
    | true => exact handled_objClose D E w.path [] s
    | false => exact .refl D _ s
  | false =>
    have hdrain := handled_drain (E := E) hpath (List.mem_singleton_self w.path)
      (w.pending ++ L.trailer w.zip w.calls).length (w.pending ++ L.trailer w.zip w.calls) s
    have hclose := handled_objClose D E w.path []
      (drain E w.path (w.pending ++ L.trailer w.zip w.calls).length
        (w.pending ++ L.trailer w.zip w.calls) s).2
    show Handled D [w.path] [] s _
    refine hdrain.trans ?_
    dsimp only
    rw [if_neg Bool.false_ne_true]
    split
    · rename_i hresult
      rwa [hresult] at hclose
    · rename_i hresult
      rwa [hresult] at hclose

namespace WriteArchive

/-- **What a step of the construction leaves**: the archive open, and nothing else, and
no other place changed. -/
def LeavesArchive (w : ArchiveWriter) (s : Session)
    (r : Option Status × ArchiveWriter × Session) : Prop :=
  Handled (fun p => p = w.path) [w.path] [w.path] s r.2.2 ∧ r.2.1.path = w.path

theorem LeavesArchive.trans {w w' : ArchiveWriter} {s s' : Session} {x : Option Status}
    {r : Option Status × ArchiveWriter × Session} (h : LeavesArchive w s (x, w', s'))
    (h' : LeavesArchive w' s' r) : LeavesArchive w s r := by
  obtain ⟨hfirst, hpath⟩ := h
  obtain ⟨hrest, hpath'⟩ := h'
  dsimp only at hfirst hpath
  rw [hpath] at hrest hpath'
  exact ⟨hfirst.trans hrest, hpath'⟩

/-- A call of the library, whatever it returns. -/
theorem leavesArchive_call {c : WriteCall} {w w' : ArchiveWriter} {s s' : Session} {ok : Bool}
    (h : w.call L E c s = (ok, w', s')) (x : Option Status) :
    LeavesArchive w s (x, w', s') :=
  handled_call rfl (List.mem_singleton_self _) h

/-- The object being copied is closed, however the copy ends. -/
theorem handled_copyData {path : Text} : ∀ {fuel pos : ℕ} {w : ArchiveWriter} {s : Session}
    {r : Option Status × ArchiveWriter × Session}, copyData L E path fuel pos w s = .ok r →
    Handled (fun p => p = w.path) [path, w.path] [w.path] s r.2.2 ∧ r.2.1.path = w.path := by
  intro fuel
  induction fuel with
  | zero =>
    intro pos w s r h
    cases h
  | succ fuel ih =>
    intro pos w s r h
    unfold copyData at h
    cases hread : s.objRead E path pos aBufSize with
    | mk x t =>
      have hone : Handled (fun p => p = w.path) [path, w.path] [path, w.path] s t :=
        handled_objRead (List.mem_cons_self ..) hread
      have hclose := hone.trans (handled_objClose _ E path [w.path] t)
      rw [hread] at h
      cases x with
      | error f =>
        obtain rfl := Except.ok.inj h
        exact ⟨hclose, rfl⟩
      | ok buf =>
        cases buf with
        | nil =>
          obtain rfl := Except.ok.inj h
          exact ⟨hclose, rfl⟩
        | cons b buf =>
          dsimp only at h
          cases hcall : w.call L E (.data (b :: buf)) t with
          | mk ok r' =>
            obtain ⟨w', u⟩ := r'
            have hboth : Handled (fun p => p = w.path) [path, w.path] [path, w.path] t u
                ∧ w'.path = w.path :=
              handled_call rfl (List.mem_cons_of_mem _ (List.mem_singleton_self _)) hcall
            obtain ⟨htwo, hpath⟩ := hboth
            rw [hcall] at h
            cases ok with
            | true =>
              obtain ⟨hrest, hpath'⟩ := ih h
              rw [hpath] at hrest hpath'
              exact ⟨(hone.trans htwo).trans hrest, hpath'⟩
            | false =>
              obtain rfl := Except.ok.inj h
              exact ⟨(hone.trans htwo).trans (handled_objClose _ E path [w.path] u), hpath⟩

theorem leavesArchive_writeItem {origin : Text} {fuel : ℕ} {item : Json} {w : ArchiveWriter}
    {s : Session} {r : Option Status × ArchiveWriter × Session}
    (h : writeItem L E origin fuel item w s = .ok r) : LeavesArchive w s r := by
  unfold writeItem at h
  cases htype : item.stringMember "type".toList with
  | none =>
    rw [htype] at h
    cases h
  | some type =>
    rw [htype] at h
    dsimp only at h
    split at h
    · cases hcall : w.call L E (.header (collHeader item)) s with
      | mk ok r' =>
        rw [hcall] at h
        cases ok with
        | false =>
          obtain rfl := Except.ok.inj h
          exact leavesArchive_call hcall _
        | true =>
          obtain rfl := Except.ok.inj h
          exact leavesArchive_call hcall none
    · cases hcall : w.call L E (.header (dataObjHeader item)) s with
      | mk ok r' =>
        obtain ⟨w', t⟩ := r'
        rw [hcall] at h
        cases ok with
        | false =>
          obtain rfl := Except.ok.inj h
          exact leavesArchive_call hcall _
        | true =>
          have hheader := leavesArchive_call hcall none
          refine hheader.trans ?_
          cases hname : item.stringMember "name".toList with
          | none =>
            rw [hname] at h
            cases h
          | some filename =>
            rw [hname] at h
            dsimp only at h
            cases hopen : t.objOpen E (Text.rstrcpy (Text.join origin filename)) false none with
            | mk x u =>
              have hdescr : Handled (fun p => p = w'.path) [w'.path] _ t u :=
                handled_objOpen_read Nat.one_lt_two hopen
              rw [hopen] at h
              cases x with
              | error f =>
                obtain rfl := Except.ok.inj h
                exact ⟨hdescr, rfl⟩
              | ok =>
                obtain ⟨hcopy, hpath⟩ := handled_copyData h
                exact ⟨hdescr.trans hcopy, hpath⟩

theorem leavesArchive_writeItems {origin : Text} {fuel : ℕ} {items : List Json} :
    ∀ {w : ArchiveWriter} {s : Session} {r : Option Status × ArchiveWriter × Session},
      writeItems L E origin fuel items w s = .ok r → LeavesArchive w s r := by
  induction items with
  | nil =>
    intro w s r h
    obtain rfl := Except.ok.inj h
    exact ⟨.refl _ _ s, rfl⟩
  | cons item items ih =>
    intro w s r h
    unfold writeItems at h
    cases hitem : writeItem L E origin fuel item w s with
    | error e =>
      rw [hitem] at h
      cases h
    | ok r' =>
      have hone := leavesArchive_writeItem hitem
      obtain ⟨status, w', t⟩ := r'
      rw [hitem] at h
      cases status with
      | none => exact hone.trans (ih h)
      | some status =>
        obtain rfl := Except.ok.inj h
        exact hone

theorem leavesArchive_writeAll {a : WriteArchive} {fuel : ℕ} {w : ArchiveWriter} {s : Session}
    {r : Option Status × ArchiveWriter × Session}
    (h : writeAll L E J a fuel w s = .ok r) : LeavesArchive w s r := by
  unfold writeAll at h
  rw [dumps_indexJson] at h
  dsimp only at h
  cases hheader : w.call L E (.header (indexHeader (J.text 2 (a.indexJson J)))) s with
  | mk ok r' =>
    obtain ⟨w', t⟩ := r'
    rw [hheader] at h
    cases ok with
    | false =>
      obtain rfl := Except.ok.inj h
      exact leavesArchive_call hheader _
    | true =>
      refine (leavesArchive_call hheader none).trans ?_
      dsimp only at h
      cases hdata : w'.call L E (.data (J.text 2 (a.indexJson J))) t with
      | mk ok r' =>
        obtain ⟨w'', u⟩ := r'
        rw [hdata] at h
        cases ok with
        | false =>
          obtain rfl := Except.ok.inj h
          exact leavesArchive_call hdata _
        | true => exact (leavesArchive_call hdata none).trans (leavesArchive_writeItems h)

/-- **What the construction leaves**: the archive is open as long as its writer has
not been freed, and for good where the library has given up. -/
theorem handled_construct {a : WriteArchive} {fuel : ℕ} {w : ArchiveWriter} {s : Session}
    {c : Constructed} (h : construct L E J a fuel w s = .ok c) :
    Handled (fun p => p = w.path) [w.path]
        (if c.freed then c.writer.left L else [w.path]) s c.session
      ∧ c.writer.path = w.path := by
  unfold construct at h
  cases hall : writeAll L E J a fuel w s with
  | error e =>
    rw [hall] at h
    cases h
  | ok r =>
    obtain ⟨hleaves, hpath⟩ := leavesArchive_writeAll hall
    obtain ⟨status, w', t⟩ := r
    rw [hall] at h
    cases status with
    | some status =>
      obtain rfl := Except.ok.inj h
      exact ⟨hleaves, hpath⟩
    | none =>
      obtain rfl := Except.ok.inj h
      have hfree := handled_free (L := L) (E := E) (D := fun p => p = w.path) hpath t
      dsimp only at hleaves hpath
      rw [hpath] at hfree
      exact ⟨hleaves.trans hfree, hpath⟩

end WriteArchive

end Write

/-- The descriptors that are never closed: that of the archive, where libarchive has
given up before the archive is freed, and does not close it then. -/
def Created.leaked (L : Libarchive) (r : Created) : List Text :=
  match r.writer with
  | some w => w.left L
  | none => []

/-- The place an archive is created at. -/
def ArchivePlace (archiveIn : MsParam) (p : Text) : Prop :=
  ∃ archive, archiveIn.parseMspForStr = some archive ∧ p = Text.rstrcpy archive

theorem handled_create {L : Libarchive} {E : Irods} {J : Jansson} {Q : GenQuery} {fuel : ℕ}
    {archiveIn collectionIn resourceIn : MsParam} {s : Session} {r : Created}
    (h : msiArchiveCreate L E J Q fuel archiveIn collectionIn resourceIn s = .ok r) :
    Handled (ArchivePlace archiveIn) [] (r.leaked L) s r.session := by
  unfold msiArchiveCreate at h
  dsimp only at h
  split at h
  · obtain rfl := Except.ok.inj h
    exact .refl _ [] s
  split at h
  · obtain rfl := Except.ok.inj h
    exact .refl _ [] s
  split at h
  · rename_i archive collection harchive _
    have hplace : ArchivePlace archiveIn (Text.rstrcpy archive) := ⟨archive, harchive, rfl⟩
    split at h
    · obtain rfl := Except.ok.inj h
      exact .refl _ [] s
    unfold createArchive at h
    cases hcreat : creat E archive (if resourceIn.isStr then resourceIn.parseMspForStr else none)
        s with
    | mk x t =>
      have hopen : Handled (ArchivePlace archiveIn) [] _ s t :=
        handled_creat hplace Nat.two_pos hcreat
      rw [hcreat] at h
      cases x with
      | error f =>
        obtain rfl := Except.ok.inj h
        exact hopen
      | ok =>
        dsimp only at h
        split at h
        · cases h
        · split at h
          · cases h
          · rename_i c hconstruct
            obtain ⟨hconstructed, hpath⟩ := WriteArchive.handled_construct hconstruct
            have hhere : ∀ q, q = Text.rstrcpy archive → ArchivePlace archiveIn q := by
              rintro q rfl
              exact hplace
            obtain rfl := Except.ok.inj h
            refine (hopen.trans (hconstructed.mono hhere)).trans ?_
            show Handled _ (if c.freed then c.writer.left L else [Text.rstrcpy archive])
              (c.writer.left L) c.session
              (if c.freed then c.session else (c.writer.free L E c.session).2)
            have hfree := handled_free (L := L) (E := E) (hhere _ hpath) c.session
            rw [hpath] at hfree
            cases hfreed : c.freed with
            | false => exact hfree
            | true => exact .refl _ _ _
  · obtain rfl := Except.ok.inj h
    exact .refl _ [] s

/-! ## Extracting an archive -/

section Extract

variable {E : Irods} {headers : ℕ → HeaderResult} {resource extract : Option Text}
  {D : Text → Prop} {held : List Text}

/-- The object being written is closed, however the writing ends. -/
theorem handled_writeBlocks {path : Text} (hpath : D path) {fails : Bool} :
    ∀ (blocks : List Bytes) (s : Session),
      Handled D (path :: held) held s (writeBlocks E path fails blocks s).2 := by
  intro blocks
  induction blocks with
  | nil =>
    intro s
    unfold writeBlocks
    split
    · exact handled_objClose D E path held s
    · exact handled_objClose D E path held s
  | cons block blocks ih =>
    intro s
    cases block with
    | nil => exact handled_objClose D E path held s
    | cons b buf =>
      unfold writeBlocks
      cases hwrite : s.objWrite E path (b :: buf) with
      | mk x t =>
        have hone : Handled D (path :: held) (path :: held) s t :=
          handled_objWrite hpath (List.mem_cons_self ..) hwrite
        cases x with
        | error f => exact hone.trans (handled_objClose D E path held t)
        | ok n => exact hone.trans (ih t)

theorem handled_extractItem {filename : Text} (hpath : D (Text.rstrcpy filename))
    (hheld : held.length < 2) (e : ReadEntry) (s : Session) :
    Handled D held held s (extractItem E resource e filename s).2 := by
  unfold extractItem
  split
  · have hcreate := handled_collCreate (E := E) hpath
      (fun h => absurd h Bool.false_ne_true) held s
    split
    · rename_i f t h
      rw [h] at hcreate
      split <;> exact hcreate
    · exact hcreate
  · cases hcreat : creat E filename resource s with
    | mk x t =>
      have hdescr := handled_creat hpath hheld hcreat
      cases x with
      | error f => exact hdescr
      | ok => exact hdescr.trans (handled_writeBlocks hpath e.blocks t)

theorem handled_attributesLoop {file : Text} (hfile : D file) {isColl : Bool}
    (list : List Json) :
    ∀ {prev : Option Text} {s s' : Session}, attributesLoop E file isColl prev list s = .ok s' →
      Handled D held held s s' := by
  induction list with
  | nil =>
    intro prev s s' h
    obtain rfl := Except.ok.inj h
    exact .refl D held s
  | cons json list ih =>
    intro prev s s' h
    unfold attributesLoop at h
    dsimp only at h
    split at h
    · cases h
    · exact .trans (.of_since (since_modAvuMetadata ..) (fun _ => rfl)
        (confined_modAvuMetadata hfile _ _ _ _ _)) (ih h)

theorem handled_setMetadata {file : Text} (hfile : D file) {json : Json} {s s' : Session}
    (h : setMetadata E file json s = .ok s') : Handled D held held s s' := by
  unfold setMetadata at h
  split at h
  · cases h
  · rename_i type _
    dsimp only at h
    have hmodify : Handled D held held s
        (if decide (type = "coll".toList) = true then s else s.modify E file json) := by
      split
      · exact .refl D held s
      · exact .of_since (since_modDataObjMeta ..) (fun _ => rfl) (confined_modDataObjMeta _)
    split at h
    · obtain rfl := Except.ok.inj h
      exact hmodify
    · exact hmodify.trans (handled_attributesLoop hfile _ h)

theorem handled_extractEntry {file : Text} (hpath : D (Text.rstrcpy file)) (hfile : D file)
    (hheld : held.length < 2) {e : ReadEntry} {json : Json} {s s' : Session}
    {x : Except Failure Unit} (h : extractEntry E resource file e json s = .ok (x, s')) :
    Handled D held held s s' := by
  have hitem : Handled D held held s (extractItem E resource e file s).2 :=
    handled_extractItem hpath hheld e s
  obtain ⟨f, hextract, -⟩ | ⟨t, hextract, hset, -⟩ := extractEntry_cases h
  · rwa [hextract] at hitem
  · rw [hextract] at hitem
    exact hitem.trans (handled_setMetadata hfile hset)

/-- The collection of an item and those above it. -/
def AbovePlace (path name p : Text) : Prop :=
  '/' ∈ name ∧ (p = Text.rstrcpy (Text.join path (parentName name))
    ∨ p ∈ ancestors (Text.rstrcpy (Text.join path (parentName name))))

theorem handled_makeParent {path file : Text} (habove : ∀ p, AbovePlace path file p → D p)
    (s : Session) : Handled D held held s (makeParent E path file s) := by
  unfold makeParent
  split
  · rename_i hslash
    exact handled_collCreate (habove _ ⟨hslash, .inl rfl⟩)
      (fun _ p hp => habove p ⟨hslash, .inr hp⟩) held s
  · exact .refl D held s

/-- **The places of an extraction**: those of the items, and of an item that is extracted
alone the collections it is in. -/
def ExtractPlace (extract : Option Text) (path : Text) (items : List Json) (p : Text) : Prop :=
  ∃ item ∈ items, ∃ name, item.stringMember "name".toList = some name
    ∧ (p = Text.rstrcpy (Text.join path name) ∨ p = Text.join path name
      ∨ extract ≠ none ∧ AbovePlace path name p)

/-- The loop leaves the archive open, and nothing else. -/
theorem handled_extractLoop {path : Text} {space : ℤ} {items : List Json} {n : ℕ}
    {status : Status} {s : Session} {r : Extraction} (hheld : held.length < 2)
    (h : extractLoop E headers resource extract path space items n status s = .ok r) :
    Handled (ExtractPlace extract path items) held held s r.session := by
  refine extractLoop_keeps (R := Handled (ExtractPlace extract path items) held held)
    (.refl _ held) (.trans) (fun {k json file e u v x} hk _ hname hentry => ?_) h
  have hjson : json ∈ items := List.mem_of_getElem? hk
  have hplace : ∀ p, p = Text.rstrcpy (Text.join path file) ∨ p = Text.join path file
      ∨ extract ≠ none ∧ AbovePlace path file p → ExtractPlace extract path items p :=
    fun p hp => ⟨json, hjson, file, hname, hp⟩
  refine .trans ?_ (handled_extractEntry (hplace _ (.inl rfl)) (hplace _ (.inr (.inl rfl)))
    hheld hentry)
  split
  · exact .refl _ held u
  · rename_i hextract
    exact handled_makeParent (fun p hp => hplace p (.inr (.inr ⟨hextract, hp⟩))) u

end Extract

/-- An archive that opens is open, and no other object is. -/
theorem handled_openArchive {J : Jansson} {E : Irods} {headers : ℕ → HeaderResult} {path : Text}
    {a : ReadArchive} {s s₁ : Session} (h : openArchive J E headers path s = .ok (some a, s₁))
    (D : Text → Prop) : Handled D [] [a.path] s s₁ := by
  obtain ⟨hopen, hpath, -⟩ := openArchive_spec h
  have hheld : ([] : List Text).length < 2 := Nat.two_pos
  rw [hpath]
  exact handled_objOpen_read hheld hopen

/-- **What an extraction leaves** that has opened its archive: no descriptor, and nothing
changed but at its places. -/
theorem handled_extract {J : Jansson} {E : Irods} {rows : SpaceQuery}
    {headers : ℕ → HeaderResult} {archiveIn pathIn extractIn resourceIn : MsParam}
    {archive path : Text} {a : ReadArchive} {s s₁ : Session} {r : Extracted}
    (harchive : archiveIn.parseMspForStr = some archive)
    (hpath : pathIn.parseMspForStr = some path)
    (hopen : openArchive J E headers archive s = .ok (some a, s₁))
    (h : msiArchiveExtract J E rows headers archiveIn pathIn extractIn resourceIn s = .ok r) :
    Handled (fun p => p = Text.rstrcpy path ∨ ExtractPlace extractIn.parseMspForStr path a.items p)
      [] [] s r.session := by
  refine (handled_openArchive hopen _).trans ?_
  rw [msiArchiveExtract_eq harchive hpath hopen] at h
  dsimp only at h
  split at h
  · obtain rfl := Except.ok.inj h
    exact handled_objClose _ E a.path [] s₁
  · have htarget : Handled (fun p => p = Text.rstrcpy path
        ∨ ExtractPlace extractIn.parseMspForStr path a.items p) [a.path] [a.path] s₁
        (s₁.collCreate E (Text.rstrcpy path) false).2 :=
      handled_collCreate (.inl rfl) (fun h => absurd h Bool.false_ne_true) [a.path] s₁
    refine htarget.trans ?_
    cases hloop : extractLoop E headers resourceIn.parseMspForStr extractIn.parseMspForStr path
        (checkSpace rows resourceIn.parseMspForStr extractIn.parseMspForStr a.dataSize).2 a.items 1
        (checkSpace rows resourceIn.parseMspForStr extractIn.parseMspForStr a.dataSize).1
        (s₁.collCreate E (Text.rstrcpy path) false).2 with
    | error fault =>
      rw [hloop] at h
      cases h
    | ok r' =>
      rw [hloop] at h
      obtain rfl := Except.ok.inj h
      have hitems : Handled _ [a.path] [a.path] _ r'.session :=
        handled_extractLoop Nat.one_lt_two hloop
      exact (hitems.mono (fun _ => .inr)).trans (handled_objClose _ E a.path [] r'.session)

/-! ## The services -/

/-- **A service leaves some descriptors open**: it has used open ones only, closed the one
opened last first, held two at most, and every descriptor but these has been closed as
often as it was handed out. -/
structure LeavesOpen (left : List Text) (log : List (Request × Bool)) : Prop where
  run : Handles.run 2 [] (handlings log) = some left
  count : ∀ p, Handles.acquired p (handlings log)
    = Handles.holds p left + Handles.released p (handlings log)

theorem Session.Handled.leavesOpen {D : Text → Prop} {left : List Text} {s s' : Session}
    (h : Handled D [] left s s') : ∃ log, s.Since s' log ∧ LeavesOpen left log := by
  obtain ⟨log, hlog, hrun⟩ := h.run
  refine ⟨log, hlog, hrun, fun p => ?_⟩
  rw [← Handles.count_of_run p hrun]
  exact (Nat.zero_add _).symm

/-- **Whatever fails while an archive is created**, its descriptors are all closed, but
that of the archive where libarchive has given up and does not close it; and no place but
that of the archive has changed. -/
theorem create_descriptors {L : Libarchive} {E : Irods} {J : Jansson} {Q : GenQuery} {fuel : ℕ}
    {archiveIn collectionIn resourceIn : MsParam} {s : Session} {r : Created}
    (h : msiArchiveCreate L E J Q fuel archiveIn collectionIn resourceIn s = .ok r) :
    (∃ log, s.Since r.session log ∧ LeavesOpen (r.leaked L) log)
      ∧ s.Confined (ArchivePlace archiveIn) r.session :=
  ⟨(handled_create h).leavesOpen, (handled_create h).confined⟩

/-- The descriptors of a collection that is archived, on a server that refuses to open the
data object in it. -/
theorem create_descriptors_sample : ∃ r : Created,
    msiArchiveCreate ArchiveText.library (.refusing 2) JsonText.codec
        (Sample.server (Sample.catalog Sample.object)) 6 (.ofText "/z/x.tar".toList)
        (.ofText Sample.coll) Sample.noParam (.fresh Sample.nodes) = .ok r
      ∧ r.status = .named .sysRescQuotaExceeded
      ∧ (∃ log, (Session.fresh Sample.nodes).Since r.session log
        ∧ LeavesOpen (r.leaked ArchiveText.library) log)
      ∧ (Session.fresh Sample.nodes).Confined (ArchivePlace (.ofText "/z/x.tar".toList))
        r.session := by
  obtain ⟨r, hr, hstatus⟩ : ∃ r : Created,
      msiArchiveCreate ArchiveText.library (.refusing 2) JsonText.codec
          (Sample.server (Sample.catalog Sample.object)) 6 (.ofText "/z/x.tar".toList)
          (.ofText Sample.coll) Sample.noParam (.fresh Sample.nodes) = .ok r
        ∧ r.status = .named .sysRescQuotaExceeded := ⟨_, rfl, rfl⟩
  exact ⟨r, hr, hstatus, create_descriptors hr⟩

/-- **Whatever fails while an archive is extracted** that has been opened, its
descriptors are all closed, and no place has changed but the target and those of the
items. -/
theorem extract_descriptors {J : Jansson} {E : Irods} {rows : SpaceQuery}
    {headers : ℕ → HeaderResult} {archiveIn pathIn extractIn resourceIn : MsParam}
    {archive path : Text} {a : ReadArchive} {s s₁ : Session} {r : Extracted}
    (harchive : archiveIn.parseMspForStr = some archive)
    (hpath : pathIn.parseMspForStr = some path)
    (hopen : openArchive J E headers archive s = .ok (some a, s₁))
    (h : msiArchiveExtract J E rows headers archiveIn pathIn extractIn resourceIn s = .ok r) :
    (∃ log, s.Since r.session log ∧ LeavesOpen [] log)
      ∧ s.Confined (fun p => p = Text.rstrcpy path
        ∨ ExtractPlace extractIn.parseMspForStr path a.items p) r.session :=
  ⟨(handled_extract harchive hpath hopen h).leavesOpen,
    (handled_extract harchive hpath hopen h).confined⟩

namespace Sample

/-- The items of a collection and of a data object in it. -/
def twoItems : List Json :=
  [.object [("name".toList, .string "a".toList), ("type".toList, .string "coll".toList)],
    .object [("name".toList, .string "a/f".toList), ("type".toList, .string "dataObj".toList),
      ("size".toList, .integer 5)]]

/-- An index of them. -/
def twoIndex : Json :=
  .object [("collection".toList, .string "/z/c".toList), ("size".toList, .integer 5),
    ("items".toList, .array twoItems)]

theorem twoIndex_valid : twoIndex.Valid := by
  have hitems : (Json.array twoItems).Valid := by
    refine .array ?_
    simp only [twoItems, List.mem_cons, List.not_mem_nil, or_false, forall_eq_or_imp, forall_eq]
    refine ⟨.object (by decide) ?_, .object (by decide) ?_⟩
    · simp only [List.mem_cons, List.not_mem_nil, or_false, forall_eq_or_imp, forall_eq]
      exact ⟨.string _, .string _⟩
    · simp only [List.mem_cons, List.not_mem_nil, or_false, forall_eq_or_imp, forall_eq]
      exact ⟨.string _, .string _, .integer _⟩
  refine .object (by decide) ?_
  simp only [List.mem_cons, List.not_mem_nil, or_false, forall_eq_or_imp, forall_eq]
  exact ⟨.string _, .integer _, hitems⟩

/-- The archive of the two items. The data come in two blocks. -/
def twoHeaders : ℕ → HeaderResult
  | 0 => .ok (documentEntry twoIndex)
  | 1 => .ok ⟨some "a".toList, true, 0, [], false⟩
  | 2 => .ok ⟨some "a/f".toList, false, 5, ["he".toList, "llo".toList], false⟩
  | _ => .eof

/-- The extraction of the two items. -/
def extractTwo (E : Irods) : Except Fault Extracted :=
  msiArchiveExtract JsonText.codec E (fun _ => .ok []) twoHeaders (.ofText "/z/x.tar".toList)
    (.ofText "/z/t".toList) noParam noParam places

/-- The server refuses the second block: the collection has been made, and the data object
holds the first block. -/
theorem extractTwo_stopped : ∃ a s₁ r,
    openArchive JsonText.codec (.refusing 6) twoHeaders "/z/x.tar".toList places
        = .ok (some a, s₁)
      ∧ a.items = twoItems ∧ extractTwo (.refusing 6) = .ok r
      ∧ r.status = .named .sysRescQuotaExceeded ∧ r.extracted.length = 1
      ∧ r.session.nodes "/z/t/a/f".toList = some (.obj "he".toList) := by
  have hcollection : twoIndex.stringMember "collection".toList = some "/z/c".toList := rfl
  have hopen := openArchive_document twoIndex_valid rfl hcollection
    (show twoHeaders 0 = .ok (documentEntry twoIndex) from rfl)
    (show places.objOpen (.refusing 6) (Text.rstrcpy "/z/x.tar".toList) false none
      = (.ok (), places.record (.objOpen "/z/x.tar".toList false none) true) from rfl)
  have hrun : (extractTwo (.refusing 6)).toOption.any (fun r =>
      decide (r.status = .named .sysRescQuotaExceeded) && (decide (r.extracted.length = 1)
        && decide (r.session.nodes "/z/t/a/f".toList = some (.obj "he".toList)))) = true := by
    decide +kernel
  obtain ⟨r, hr, hrest⟩ := Except.ok_of_any hrun
  simp only [Bool.and_eq_true, decide_eq_true_eq] at hrest
  exact ⟨_, _, r, hopen, rfl, hr, hrest⟩

end Sample

/-- The descriptors of an extraction that is refused a write. -/
theorem extract_descriptors_sample : ∃ (a : ReadArchive) (r : Extracted),
    Sample.extractTwo (.refusing 6) = .ok r ∧ r.status = .named .sysRescQuotaExceeded
      ∧ (∃ log, Sample.places.Since r.session log ∧ LeavesOpen [] log)
      ∧ Sample.places.Confined (fun p => p = Text.rstrcpy "/z/t".toList
        ∨ ExtractPlace none "/z/t".toList a.items p) r.session := by
  obtain ⟨a, s₁, r, hopen, -, hr, hstatus, -⟩ := Sample.extractTwo_stopped
  exact ⟨a, r, hr, hstatus, extract_descriptors rfl rfl hopen hr⟩
