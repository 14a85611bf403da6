import IrodsMicroservices.RoundTrip
import IrodsMicroservices.RequestLog

/-!
# The free-space guard

An extraction into a resource with a free-space value keeps a tenth of that value back.
There are two checks: the size in the index is compared with what may be used before
all is extracted, and the size of an item before that item is extracted alone. The first
comparison is one of unsigned 64-bit words, the second one of signed numbers, and the size
in the index is a sum of sizes rounded up to whole blocks by a mask.

For an archive that has been produced, and whose size does not overflow, both checks are
what they are meant to be (`free_space_guard`): no extraction writes more than may be used,
and where the first check passes the second one never fails.
-/

open Libarchive

/-! ## Rounding up to whole blocks -/

namespace BitVec

/-- Clearing the low bits is shifting them out and shifting back. -/
theorem and_not_low {w : ℕ} (x : BitVec w) (k : ℕ) :
    x &&& ~~~(BitVec.ofNat w (2 ^ k - 1)) = (x >>> k) <<< k := by
  refine eq_of_getLsbD_eq (fun i hi => ?_)
  rw [getLsbD_and, getLsbD_not, getLsbD_ofNat, Nat.testBit_two_pow_sub_one, getLsbD_shiftLeft,
    getLsbD_ushiftRight]
  by_cases h : i < k
  · simp [h]
  · rw [show k + (i - k) = i by omega]
    simp [h, hi]

/-- **Clearing the low bits rounds down.** -/
theorem toNat_and_not_low {w : ℕ} (x : BitVec w) (k : ℕ) :
    (x &&& ~~~(BitVec.ofNat w (2 ^ k - 1))).toNat = x.toNat / 2 ^ k * 2 ^ k := by
  rw [and_not_low, toNat_shiftLeft, toNat_ushiftRight, Nat.shiftRight_eq_div_pow,
    Nat.shiftLeft_eq]
  exact Nat.mod_eq_of_lt (lt_of_le_of_lt (Nat.div_mul_le_self _ _) x.isLt)

/-- A sum of words that does not overflow. -/
theorem toNat_list_sum {w : ℕ} {xs : List (BitVec w)} (h : (xs.map BitVec.toNat).sum < 2 ^ w) :
    xs.sum.toNat = (xs.map BitVec.toNat).sum := by
  induction xs with
  | nil => simp
  | cons x xs ih =>
    rw [List.map_cons, List.sum_cons] at h ⊢
    rw [List.sum_cons, toNat_add, ih (by omega), Nat.mod_eq_of_lt h]

end BitVec

/-- A word that is not negative as a signed number. -/
theorem BitVec.toInt_of_nonneg {x : BitVec 64} (h : 0 ≤ x.toInt) :
    x.toInt = x.toNat ∧ x.toNat < 2 ^ 63 := by
  have hlt := x.isLt
  rw [BitVec.toInt_eq_toNat_cond] at h ⊢
  split at h
  · rename_i hsmall
    rw [if_pos hsmall]
    omega
  · omega

/-- **A size is not larger than its blocks.** -/
theorem WriteArchive.le_blockRounded {size : BitVec 64} (h : 0 ≤ size.toInt) :
    size.toNat ≤ (WriteArchive.blockRounded size).toNat := by
  obtain ⟨-, hsmall⟩ := BitVec.toInt_of_nonneg h
  have hsum : (size + WriteArchive.aBlockSize - 1#64).toNat = size.toNat + 8191 := by
    unfold WriteArchive.aBlockSize
    bv_omega
  unfold WriteArchive.blockRounded
  rw [show WriteArchive.aBlockSize - 1#64 = BitVec.ofNat 64 (2 ^ 13 - 1) from rfl,
    BitVec.toNat_and_not_low, hsum]
  omega

/-! ## The checks -/

theorem Text.strtoll_lt (s : Text) : Text.strtoll s < 2 ^ 63 := by
  unfold Text.strtoll
  dsimp only
  split
  · exact max_lt (by omega) (by decide)
  · exact lt_of_le_of_lt (min_le_right _ _) (by decide)

/-- A free-space value that is set is a `long long`. -/
theorem freeSpace_lt {rows : SpaceQuery} {resource : Text} {space : ℤ}
    (h : freeSpace rows resource = .num space) (hpos : 0 < space) : space < 2 ^ 63 := by
  unfold freeSpace at h
  split at h
  · rename_i f _
    have hneg := f.neg
    rw [h] at hneg
    exact absurd (of_decide_eq_true hneg) (by omega)
  · obtain rfl := Status.num.inj h
    exact Text.strtoll_lt _
  · exact nomatch h

/-- What may be used of a free-space value is part of it. -/
theorem usable_bounds {space : ℤ} (hpos : 0 < space) : 0 ≤ usable space ∧ usable space ≤ space := by
  unfold usable
  rw [Int.tdiv_eq_ediv_of_nonneg hpos.le]
  omega

/-- **The check before an extraction**, where a free-space value is set. -/
theorem checkSpace_of_pos {rows : SpaceQuery} {resource : Text} {space : ℤ}
    (h : freeSpace rows resource = .num space) (hpos : 0 < space) (extract : Option Text)
    (size : BitVec 64) :
    checkSpace rows (some resource) extract size
      = if extract = none ∧ usable space < (size.toNat : ℤ) then
          (.named .sysRescQuotaExceeded, space)
        else (.num 0, space) := by
  have hlt := freeSpace_lt h hpos
  obtain ⟨hzero, hle⟩ := usable_bounds hpos
  have hword : size > BitVec.ofInt 64 (usable space) ↔ usable space < (size.toNat : ℤ) := by
    have hnat : (BitVec.ofInt 64 (usable space)).toNat = (usable space).toNat := by
      rw [BitVec.toNat_ofInt, Int.emod_eq_of_lt hzero (by omega)]
    rw [gt_iff_lt, BitVec.lt_def, hnat]
    omega
  unfold checkSpace
  dsimp only
  rw [h]
  dsimp only
  rw [if_neg (by omega)]
  exact if_congr (and_iff_right hpos.ne' |>.trans (and_congr_right fun _ => hword)) rfl rfl

/-- Where no free-space value is set, nothing is checked. -/
theorem checkSpace_unset {rows : SpaceQuery} {resource : Option Text}
    (h : ∀ r, resource = some r → freeSpace rows r = .num 0) (extract : Option Text)
    (size : BitVec 64) : checkSpace rows resource extract size = (.num 0, 0) := by
  unfold checkSpace
  cases resource with
  | none => rfl
  | some r =>
    dsimp only
    rw [h r rfl]
    dsimp only
    rw [if_neg (by omega), if_neg (fun hne => hne.1 rfl)]

/-- A free-space value of zero is none. -/
theorem freeSpace_zero (resource : Text) :
    freeSpace (fun _ => .ok ["0".toList]) resource = .num 0 := by
  show Status.num (Text.strtoll "0".toList) = .num 0
  rw [show Text.strtoll "0".toList = 0 by decide]

/-- Where no item is too large, the loop does not depend on the free space. -/
theorem extractLoop_space {E : Irods} {headers : ℕ → HeaderResult} {resource extract : Option Text}
    {path : Text} {space : ℤ} : ∀ {items : List Json},
    (∀ item ∈ items, item.integerMember "size".toList ≤ usable space) →
    ∀ (n : ℕ) (status : Status) (s : Session),
      extractLoop E headers resource extract path space items n status s
        = extractLoop E headers resource extract path 0 items n status s := by
  intro items
  induction items with
  | nil => exact fun _ _ _ _ => rfl
  | cons json items ih =>
    intro hitems n status s
    rw [List.forall_mem_cons] at hitems
    have hno : ∀ space', space' = space ∨ space' = 0 → ¬ (extract ≠ none ∧ space' ≠ 0
        ∧ usable space' < json.integerMember "size".toList) := by
      rintro _ (rfl | rfl) ⟨-, hne, hlarge⟩
      · exact absurd hlarge (not_lt.mpr hitems.1)
      · exact hne rfl
    rw [extractLoop, extractLoop]
    simp only [if_neg (hno space (.inl rfl)), if_neg (hno 0 (.inr rfl)), ih hitems.2]

/-! ## The guard -/

/-- The size in an index item, as a number of bytes. -/
def itemBytes (item : Json) : ℕ := (item.integerMember "size".toList).toNat

/-- The blocks of a call are not fewer than the bytes in its item. -/
theorem ArchiveCall.itemBytes_le {J : Jansson} {coll : Text} {nodes : Text → Option Node}
    {c : ArchiveCall} (h : c.Sized coll nodes) : itemBytes (c.item J) ≤ c.blocks.toNat := by
  unfold itemBytes
  cases c with
  | addColl => rw [item_size_coll]; exact Nat.zero_le _
  | addDataObj name size =>
    obtain ⟨-, data, -, hsize⟩ := h
    have hpos : 0 ≤ size.toInt := hsize ▸ Int.natCast_nonneg _
    rw [item_size, (BitVec.toInt_of_nonneg hpos).1, Int.toNat_natCast]
    exact WriteArchive.le_blockRounded hpos

namespace Produced

variable {L : Libarchive} {J : Jansson} {archive coll : Text} {calls : List ArchiveCall}
  {nodes : Text → Option Node} {data : Bytes} {E : Irods} {path : Text} {b : ReadArchive}
  {s s₁ : Session}

/-- **The entries of a produced archive hold what the sizes in its items say.** -/
theorem covers (hL : L.ReadsBack) (hJ : J.Lawful) (h : Produced L J archive coll calls nodes data)
    (hopen : openArchive J E (L.entryAt data) path s = .ok (some b, s₁)) :
    Covers (L.entryAt data) itemBytes b.items 1 := by
  obtain ⟨-, -, -, -, hcalls⟩ := h.entries hJ
  intro k item e hk hheader
  obtain ⟨c, hc, -, hsize⟩ := h.call_of_item hL hJ hopen hk
  obtain ⟨e', hheader', -, -, hdata, -, -⟩ := h.header hL hJ hc
  obtain rfl := HeaderResult.ok.inj (hheader'.symm.trans hheader)
  unfold itemBytes
  rw [hdata, hsize, ← (hcalls c (List.mem_of_getElem? hc)).2.1]
  exact le_rfl

/-- **The sizes in the items add up to no more than the size in the index**, where that
does not overflow. -/
theorem sum_itemBytes_le (hL : L.ReadsBack) (hJ : J.Lawful)
    (h : Produced L J archive coll calls nodes data)
    (hblocks : ((indexed archive coll calls).map (fun c => c.blocks.toNat)).sum < 2 ^ 63)
    (hopen : openArchive J E (L.entryAt data) path s = .ok (some b, s₁)) :
    (b.items.map itemBytes).sum ≤ b.dataSize.toNat := by
  obtain ⟨hitems, hsize⟩ := h.opened hL hJ hopen
  have hsame : b.items.map itemBytes
      = (indexed archive coll calls).map (fun c => itemBytes (c.item J)) := by
    rw [← List.forall₂_eq_eq_eq, List.forall₂_map_left_iff, List.forall₂_map_right_iff]
    refine List.Forall₂.imp (fun item c hc => ?_) hitems.flip
    exact congrArg Int.toNat (hc.2 "size".toList)
  have hsum : ((indexed archive coll calls).map ArchiveCall.blocks).sum.toNat
      = ((indexed archive coll calls).map (fun c => c.blocks.toNat)).sum := by
    rw [BitVec.toNat_list_sum, List.map_map]
    · rfl
    · rw [List.map_map]
      exact lt_trans hblocks (by decide)
  rw [hsize, hsum, hsame]
  exact List.sum_le_sum (fun c hc => ArchiveCall.itemBytes_le (h.sized c hc))

section Guard

variable {rows : SpaceQuery} {resource : Text} {space : ℤ}
  {archiveIn pathIn extractIn resourceIn : MsParam}

/-- **No extraction writes more than may be used**, of all items or of a single one. -/
theorem written_le (hL : L.ReadsBack) (hJ : J.Lawful)
    (hproduced : Produced L J archive coll calls nodes data)
    (hblocks : ((indexed archive coll calls).map (fun c => c.blocks.toNat)).sum < 2 ^ 63)
    (hresource : resourceIn.parseMspForStr = some resource)
    (hspace : freeSpace rows resource = .num space) (hpos : 0 < space) {r : Extracted}
    (hrun : msiArchiveExtract J E rows (L.entryAt data) archiveIn pathIn extractIn resourceIn s
      = .ok r) :
    ∃ log, s.Since r.session log ∧ (written log : ℤ) ≤ usable space := by
  obtain ⟨hzero, -⟩ := usable_bounds hpos
  rcases extraction_opened hrun with ⟨log, hlog, -, hwritten⟩ | ⟨path, target, b, s₁, harchive,
    hpath, hopen⟩
  · exact ⟨log, hlog, by omega⟩
  · obtain ⟨taken, ⟨hsub, htakes, hone⟩, hrefused, log, hlog, -, hwritten⟩ :=
      extraction_asks harchive hpath hopen (hproduced.covers hL hJ hopen) hrun
    have hcheck := checkSpace_of_pos hspace hpos extractIn.parseMspForStr b.dataSize
    have hvalue : (checkSpace rows (some resource) extractIn.parseMspForStr b.dataSize).2
        = space := by
      rw [hcheck]
      split <;> rfl
    rw [hresource] at htakes hrefused
    rw [hvalue] at htakes
    refine ⟨log, hlog, le_trans (Int.ofNat_le.mpr hwritten) ?_⟩
    cases hextract : extractIn.parseMspForStr with
    | none =>
      -- all items: together they are within what the check of the index has compared
      by_cases hlarge : usable space < (b.dataSize.toNat : ℤ)
      · rw [hcheck, if_pos ⟨hextract, hlarge⟩] at hrefused
        rw [hrefused rfl]
        exact hzero
      · have hsum := hproduced.sum_itemBytes_le hL hJ hblocks hopen
        have htaken : (taken.map itemBytes).sum ≤ (b.items.map itemBytes).sum :=
          (hsub.map itemBytes).sum_le_sum (fun _ _ => Nat.zero_le _)
        omega
    | some name =>
      -- a single item, which its own check has compared
      have hlen := hone (by rw [hextract]; exact Option.some_ne_none _)
      match taken, hlen, htakes with
      | [], _, _ => exact hzero
      | [item], _, htakes =>
        obtain ⟨-, hsmall⟩ := htakes item List.mem_cons_self name hextract
        have hle : item.integerMember "size".toList ≤ usable space :=
          not_lt.mp (fun hlarge => hsmall ⟨hpos.ne', hlarge⟩)
        simp only [List.map_cons, List.map_nil, List.sum_cons, List.sum_nil, itemBytes]
        omega

/-- **A single item is not stopped for the free space** where all of them would not be. -/
theorem single_not_stopped (hL : L.ReadsBack) (hJ : J.Lawful)
    (hproduced : Produced L J archive coll calls nodes data)
    (hblocks : ((indexed archive coll calls).map (fun c => c.blocks.toNat)).sum < 2 ^ 63)
    (hresource : resourceIn.parseMspForStr = some resource)
    (hspace : freeSpace rows resource = .num space) (hpos : 0 < space)
    (harchive : archiveIn.parseMspForStr = some path)
    (hopen : openArchive J E (L.entryAt data) path s = .ok (some b, s₁))
    (hpassed : (checkSpace rows resourceIn.parseMspForStr none b.dataSize).1.isNeg = false)
    (hextract : extractIn.parseMspForStr ≠ none) :
    msiArchiveExtract J E rows (L.entryAt data) archiveIn pathIn extractIn resourceIn s
      = msiArchiveExtract J E (fun _ => .ok ["0".toList]) (L.entryAt data) archiveIn pathIn
        extractIn resourceIn s := by
  obtain ⟨name, hextract⟩ := Option.ne_none_iff_exists'.mp hextract
  rw [hresource, checkSpace_of_pos hspace hpos] at hpassed
  have hle : (b.dataSize.toNat : ℤ) ≤ usable space := by
    by_contra hlarge
    rw [if_pos ⟨rfl, not_le.mp hlarge⟩] at hpassed
    exact nomatch hpassed
  -- no item alone is larger than all of them together
  have hsum := hproduced.sum_itemBytes_le hL hJ hblocks hopen
  have hitems : ∀ item ∈ b.items, item.integerMember "size".toList ≤ usable space := by
    intro item hitem
    have hitem : itemBytes item ≤ (b.items.map itemBytes).sum :=
      List.single_le_sum (fun _ _ => Nat.zero_le _) _ (List.mem_map_of_mem hitem)
    have hself : item.integerMember "size".toList ≤ itemBytes item := Int.self_le_toNat _
    omega
  cases hpath : pathIn.parseMspForStr with
  | none =>
    unfold msiArchiveExtract
    dsimp only
    rw [harchive, hpath]
  | some target =>
    have hset : checkSpace rows (some resource) (some name) b.dataSize = (.num 0, space) := by
      rw [checkSpace_of_pos hspace hpos]
      exact if_neg (fun h => nomatch h.1)
    rw [msiArchiveExtract_eq harchive hpath hopen, msiArchiveExtract_eq harchive hpath hopen,
      hresource, hextract]
    dsimp only
    rw [hset, checkSpace_unset (fun r _ => freeSpace_zero r), extractLoop_space hitems]

end Guard

end Produced

/-- **The free-space guard.** Of an archive that has been produced and whose size in blocks
does not overflow, no extraction into a resource with a free-space value writes more than
may be used of it; and where the check of the whole archive passes, an extraction of a
single item is not stopped for the free space. -/
theorem free_space_guard {L : Libarchive} {J : Jansson} {archive coll : Text}
    {calls : List ArchiveCall} {nodes : Text → Option Node} {data : Bytes} {E : Irods}
    {rows : SpaceQuery} {resource : Text} {space : ℤ} {archiveIn pathIn resourceIn : MsParam}
    {s : Session} (hL : L.ReadsBack) (hJ : J.Lawful)
    (hproduced : Produced L J archive coll calls nodes data)
    (hblocks : ((indexed archive coll calls).map (fun c => c.blocks.toNat)).sum < 2 ^ 63)
    (hresource : resourceIn.parseMspForStr = some resource)
    (hspace : freeSpace rows resource = .num space) (hpos : 0 < space) :
    (∀ extractIn r, msiArchiveExtract J E rows (L.entryAt data) archiveIn pathIn extractIn
        resourceIn s = .ok r →
      ∃ log, s.Since r.session log ∧ (written log : ℤ) ≤ usable space)
    ∧ ∀ path b s₁, archiveIn.parseMspForStr = some path →
      openArchive J E (L.entryAt data) path s = .ok (some b, s₁) →
      (checkSpace rows resourceIn.parseMspForStr none b.dataSize).1.isNeg = false →
      ∀ extractIn, extractIn.parseMspForStr ≠ none →
        msiArchiveExtract J E rows (L.entryAt data) archiveIn pathIn extractIn resourceIn s
          = msiArchiveExtract J E (fun _ => .ok ["0".toList]) (L.entryAt data) archiveIn pathIn
            extractIn resourceIn s := by
  constructor
  · exact fun extractIn r hrun =>
      hproduced.written_le hL hJ hblocks hresource hspace hpos hrun
  · exact fun path b s₁ harchive hopen hpassed extractIn hextract =>
      hproduced.single_not_stopped hL hJ hblocks hresource hspace hpos harchive hopen hpassed hextract

/-- The archive of the sample tree, extracted into a resource with 100000 bytes left. -/
theorem free_space_guard_sample : ∃ data : Bytes,
    (∀ extractIn r, msiArchiveExtract JsonText.codec .obliging (fun _ => .ok ["100000".toList])
        (ArchiveText.library.entryAt data) (.ofText "/z/x.tar".toList) (.ofText "/z/t".toList)
        extractIn (.ofText "demoResc".toList) (Sample.before data) = .ok r →
      ∃ log, (Sample.before data).Since r.session log ∧ (written log : ℤ) ≤ usable 100000)
    ∧ ∀ path b s₁, (MsParam.ofText "/z/x.tar".toList).parseMspForStr = some path →
      openArchive JsonText.codec .obliging (ArchiveText.library.entryAt data) path
        (Sample.before data) = .ok (some b, s₁) →
      (checkSpace (fun _ => .ok ["100000".toList])
        (MsParam.ofText "demoResc".toList).parseMspForStr none b.dataSize).1.isNeg = false →
      ∀ extractIn, extractIn.parseMspForStr ≠ none →
        msiArchiveExtract JsonText.codec .obliging (fun _ => .ok ["100000".toList])
            (ArchiveText.library.entryAt data) (.ofText "/z/x.tar".toList)
            (.ofText "/z/t".toList) extractIn (.ofText "demoResc".toList) (Sample.before data)
          = msiArchiveExtract JsonText.codec .obliging (fun _ => .ok ["0".toList])
            (ArchiveText.library.entryAt data) (.ofText "/z/x.tar".toList)
            (.ofText "/z/t".toList) extractIn (.ofText "demoResc".toList) (Sample.before data) := by
  obtain ⟨r, hr, hstatus⟩ := Sample.create_succeeds
  have hfine : (Sample.server (Sample.catalog Sample.object)).Fine r.walk :=
    (Sample.server_reliable _).fine r.walk
  obtain ⟨data, -, hproduced, -⟩ :=
    Sample.created_opens Sample.source_tree (by decide) hr hstatus hfine
  have hspace : freeSpace (fun _ => .ok ["100000".toList]) "demoResc".toList = .num 100000 := by
    show Status.num (Text.strtoll "100000".toList) = .num 100000
    rw [show Text.strtoll "100000".toList = 100000 by decide]
  exact ⟨data, free_space_guard ArchiveText.library_readsBack JsonText.codec_lawful hproduced
    (by decide) (by decide) hspace (by decide)⟩
