import IrodsMicroservices.ArchiveCreate

/-!
# Open queries

A statement is open from a page that is returned with an index until the page that is
returned without one, and an agent has few statements. `dirColl` reads its own statement to
the end before it descends, so that while a tree is walked there are never more than two
open: that of a level or of the data objects of a collection, and that of a list of one row
(`GenQuery.walk_nests`), whatever the depth.

`collID` asks for one page and does not come back to its statement. Where the server returns
an index with that page, the statement stays open over the whole run
(`open_queries_iff`).
-/

open Catalog

namespace Walk

/-- **Statements are opened and closed again**, no more than `n` at once beyond those that
are open before. -/
structure Nests (n : ℕ) (w w' : Walk) : Prop where
  opened : w'.opened = w.opened
  peak : w'.peak ≤ max w.peak (w.opened + n)

variable {m n : ℕ} {u v w : Walk}

theorem Nests.refl (n : ℕ) (w : Walk) : Nests n w w := ⟨rfl, le_max_left _ _⟩

theorem Nests.trans (h : Nests n u v) (h' : Nests n v w) : Nests n u w := by
  refine ⟨h'.opened.trans h.opened, h'.peak.trans (max_le h.peak ?_)⟩
  rw [h.opened]
  exact le_max_right _ _

theorem Nests.emit (h : Nests n u v) (c : ArchiveCall) : Nests n u (v.emit c) :=
  ⟨h.opened, h.peak⟩

end Walk

namespace GenQuery

variable {Q : GenQuery} {J : Jansson}

/-- **A loop whose rows open `n` statements opens `n + 1`.** The state of the loop holds the
walk at `walk`. -/
theorem readPages_nests {σ α : Type} (P : PageServer σ) (walk : σ → Walk) (body : σ → α → σ)
    {n : ℕ} (hanswered : ∀ a b s, walk (P.answered a b s) = (walk s).answered a b)
    (hbody : ∀ s r, Walk.Nests n (walk s) (walk (body s r))) (rows : List α) (s : σ) :
    Walk.Nests (n + 1) (walk s) (walk (readPages P body rows s)) := by
  -- the statement of the loop is one more that is open, or is not
  have hrule := readPages_closes P body (fun isOpen t =>
    (walk t).opened = (walk s).opened + isOpen.toNat
      ∧ (walk t).peak ≤ max (walk s).peak ((walk s).opened + (n + 1))) rows s ?_ ?_ ?_
  · exact ⟨hrule.1, hrule.2⟩
  · rintro a b t ⟨hopened, hpeak⟩
    have hnow : ((walk t).answered a b).opened = (walk s).opened + b.toNat := by
      show (walk t).opened - a.toNat + b.toNat = _
      rw [hopened, Nat.add_sub_cancel]
    rw [hanswered]
    refine ⟨hnow, max_le hpeak ?_⟩
    show ((walk t).answered a b).opened ≤ _
    rw [hnow]
    have hb : b.toNat ≤ 1 := Bool.toNat_le b
    omega
  · rintro b t r ⟨hopened, hpeak⟩
    obtain ⟨hopened', hpeak'⟩ := hbody t r
    refine ⟨hopened'.trans hopened, hpeak'.trans (max_le hpeak ?_)⟩
    rw [hopened]
    have hb : b.toNat ≤ 1 := Bool.toNat_le b
    omega
  · exact ⟨rfl, le_max_left _ _⟩

/-- A list is collected with one statement. -/
theorem collectList_nests {α : Type} (entry : α → Option Json) (rows : List α) (w : Walk) :
    Walk.Nests 1 w (Q.collectList entry rows w).2 :=
  readPages_nests (Q.server.withLocal (Option (List Json))) Prod.fst (collectRow entry)
    (fun _ _ _ => rfl) (fun s _ => .refl 0 s.1) rows (w, none)

/-- **`dirDataObj` opens its own statement, and one for a list at a time.** -/
theorem dirDataObj_nests (coll : Text) (collId : ℤ) (w : Walk) :
    Walk.Nests 2 w (Q.dirDataObj J coll collId w) :=
  readPages_nests Q.server id (Q.dataObjRow J coll) (fun _ _ _ => rfl)
    (fun v _ => ((collectList_nests _ _ v).trans (collectList_nests _ _ _)).emit _)
    (Q.dataObjs collId) w

/-- The query loop of `dirColl` does the same. -/
theorem listColl_nests (coll path : Text) (w : Walk) :
    Walk.Nests 2 w (Q.listColl J coll path w).1 :=
  readPages_nests (Q.server.withLocal (List (Text × ℤ))) Prod.fst (Q.collRow J coll)
    (fun _ _ _ => rfl)
    (fun s _ => ((collectList_nests _ _ s.1).trans (collectList_nests _ _ _)).emit _) _ (w, [])

/-- **`dirColl` opens no more at any depth**: it descends with its own statement closed. -/
theorem dirColl_nests (coll : Text) : ∀ (fuel : ℕ) (path : Text) (w w' : Walk),
    Q.dirColl J coll fuel path w = some w' → Walk.Nests 2 w w' := by
  intro fuel
  induction fuel with
  | zero => exact fun _ _ _ h => nomatch h
  | succ fuel ih =>
    have hrun : ∀ (dirs : List (Text × ℤ)) (v w' : Walk), dirs.foldlM (fun w dir =>
        (Q.dirColl J coll fuel dir.1 w).map
          (Q.dirDataObj J (dir.1.drop (coll.length + 1) ++ "/".toList) dir.2)) v = some w' →
        Walk.Nests 2 v w' := by
      intro dirs
      induction dirs with
      | nil => exact fun v w' h => Option.some.inj h ▸ .refl 2 v
      | cons dir dirs ihdirs =>
        intro v w' h
        rw [List.foldlM_cons] at h
        obtain ⟨x, hx, h⟩ := Option.bind_eq_some_iff.mp h
        obtain ⟨y, hy, rfl⟩ := Option.map_eq_some_iff.mp hx
        exact ((ih _ _ _ hy).trans (dirDataObj_nests _ _ y)).trans (ihdirs _ _ h)
    intro path w w' h
    unfold dirColl at h
    exact (listColl_nests coll path w).trans (hrun _ _ _ h)

/-- **A walk opens two statements at most**, and has closed all of its own at its end. -/
theorem walk_nests {fuel : ℕ} {coll : Text} {id : ℤ} {w w' : Walk}
    (h : Q.walk J fuel coll id w = some w') : Walk.Nests 2 w w' := by
  obtain ⟨v, hv, rfl⟩ := Option.map_eq_some_iff.mp h
  exact (dirColl_nests coll _ _ _ _ hv).trans (dirDataObj_nests _ _ v)

/-- **The page of `collID` is returned without an index**: it has the only row, and the
server closes the statement with it. -/
def ClosesCollID (Q : GenQuery) (coll : Text) : Prop :=
  (∃ extra, Q.outcome 0 = .page extra false) ∧ (Q.collIds (nameCond coll)).length = 1

/-- What `collID` leaves open where it finds the collection. -/
theorem collID_opened {coll : Text} (h : (Q.collID coll Walk.start).1.isNeg = false) :
    ((Q.collID coll Walk.start).2.opened = 0 ↔ Q.ClosesCollID coll)
      ∧ (Q.collID coll Walk.start).2.peak = (Q.collID coll Walk.start).2.opened := by
  unfold ClosesCollID
  unfold collID at h ⊢
  split
  · rename_i hfail
    rw [hfail] at h
    exact absurd ((Q.failure _).neg.symm.trans h) (by simp)
  · rename_i hpage hnone
    rw [hpage, hnone] at h
    exact nomatch h
  · rename_i extra more id rest hpage hrows
    have houtcome : Q.outcome 0 = .page extra more := hpage
    have hopened : (Walk.start.answered false (more || !rest.isEmpty)).opened
        = (more || !rest.isEmpty).toNat := Nat.zero_add _
    dsimp only
    refine ⟨?_, (congrArg (max 0) hopened).trans ((Nat.zero_max _).trans hopened.symm)⟩
    rw [hopened, houtcome, hrows, Bool.toNat_eq_zero, Bool.or_eq_false_iff, Bool.not_eq_false',
      List.isEmpty_iff, List.length_cons, Nat.add_eq_right, List.length_eq_zero_iff]
    refine and_congr_left fun _ => ⟨fun hmore => ⟨extra, by rw [hmore]⟩, ?_⟩
    rintro ⟨_, hsame⟩
    exact (PageOutcome.page.inj hsame).2

end GenQuery

section

variable {L : Libarchive} {E : Irods} {J : Jansson} {Q : GenQuery} {fuel : ℕ}
  {archiveIn collectionIn resourceIn : MsParam} {s : Session} {r : Created}

/-- **A creation that has come to its archive** has found the collection and walked it. -/
theorem msiArchiveCreate_walked {coll : Text} (hcoll : collectionIn.parseMspForStr = some coll)
    (h : msiArchiveCreate L E J Q fuel archiveIn collectionIn resourceIn s = .ok r)
    (hwriter : r.writer ≠ none) :
    (Q.collID coll Walk.start).1.isNeg = false
      ∧ ∃ id, Q.walk J fuel coll id (Q.collID coll Walk.start).2 = some r.walk := by
  unfold msiArchiveCreate at h
  dsimp only at h
  have hrefused : ∀ {status : Status} {out : Option Status} {walk : Walk} {t : Session},
      (.ok ⟨status, out, walk, none, t⟩ : Except Fault Created) = .ok r → False := by
    rintro status out walk t ⟨⟩
    exact hwriter rfl
  split at h
  · exact (hrefused h).elim
  · split at h
    · exact (hrefused h).elim
    · split at h
      · rename_i archive coll' harchive hcoll'
        obtain rfl := Option.some.inj (hcoll'.symm.trans hcoll)
        split at h
        · exact (hrefused h).elim
        · rename_i hneg
          split at h
          · exact (hrefused h).elim
          · split at h
            · exact nomatch h
            · rename_i walk hwalk
              split at h
              · exact nomatch h
              · obtain rfl := Except.ok.inj h
                exact ⟨Bool.eq_false_of_not_eq_true hneg, _, hwalk⟩
      · exact (hrefused h).elim

/-- **Two statements are open at most, and none when the archive is constructed**, exactly
where the page of `collID` is returned without an index. -/
theorem open_queries_iff {coll : Text} {id : ℤ} {w : Walk}
    (hfound : (Q.collID coll Walk.start).1.isNeg = false)
    (hwalk : Q.walk J fuel coll id (Q.collID coll Walk.start).2 = some w) :
    w.peak ≤ 2 ∧ w.opened = 0 ↔ Q.ClosesCollID coll := by
  obtain ⟨hopened, hpeak⟩ := GenQuery.walk_nests hwalk
  obtain ⟨hcloses, hfirst⟩ := GenQuery.collID_opened hfound
  rw [hopened, hcloses]
  refine and_iff_right_of_imp fun hc => ?_
  rw [hfirst, hcloses.mpr hc] at hpeak
  exact hpeak

end

namespace Sample

/-- A server that keeps every statement open, and closes it on a page without rows. -/
def lingering (K : Catalog) : GenQuery :=
  { server K with outcome := fun _ => .page 511 true }

end Sample

theorem open_queries_sample : ∃ w,
    (Sample.server (Sample.catalog Sample.object)).walk JsonText.codec 3 Sample.coll 1
        ((Sample.server (Sample.catalog Sample.object)).collID Sample.coll Walk.start).2 = some w
      ∧ (w.peak ≤ 2 ∧ w.opened = 0
        ↔ (Sample.server (Sample.catalog Sample.object)).ClosesCollID Sample.coll) := by
  obtain ⟨w, hw⟩ : ∃ w, (Sample.server (Sample.catalog Sample.object)).walk JsonText.codec 3
      Sample.coll 1 ((Sample.server (Sample.catalog Sample.object)).collID Sample.coll
        Walk.start).2 = some w := ⟨_, rfl⟩
  exact ⟨w, hw, open_queries_iff rfl hw⟩

/-- **The statement of `collID` stays open**: three are open at once, and one is open when
the archive is constructed. -/
theorem collID_stays_open : ∃ w,
    ((Sample.lingering (Sample.catalog Sample.object)).collID Sample.coll Walk.start).1 = .num 1
      ∧ (Sample.lingering (Sample.catalog Sample.object)).walk JsonText.codec 3 Sample.coll 1
        ((Sample.lingering (Sample.catalog Sample.object)).collID Sample.coll Walk.start).2 = some w
      ∧ (Sample.lingering (Sample.catalog Sample.object)).Reliable
      ∧ w.peak = 3 ∧ w.opened = 1 :=
  ⟨_, rfl, rfl, fun _ h => PageOutcome.noConfusion h, rfl, rfl⟩
