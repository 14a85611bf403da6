import IrodsMicroservices.CBuffers
import IrodsMicroservices.KeyedFold
import IrodsMicroservices.VaultReports

/-!
# The buffers for the attributes of a resource

Three services keep what the catalog says of a resource in buffers on the stack.
`msiDirList` asks for one column at a time and has it copied by
`get_resource_attribute_by_name`, with `strncpy` and one bound for every buffer;
`msiStatVault` and `msiFileChecksum` copy the columns of each row with `strcpy`.

The bound is `MAX_NAME_LEN + 1`. The buffer for the ID has one byte less, so that the
zeros `strncpy` fills up with go past its end whatever the ID is. The other two have
the byte, but then the bound has no room for a zero: a text of more than
`MAX_NAME_LEN` bytes is cut off without one. And `strcpy` has no bound at all.
`attributes_stored_iff` says for which attributes all of this goes well.

The model of the services goes on with the attributes themselves. It may: a row it
goes on with is what the buffers hold (`resourceInfo_held`, `vaultInfo_held`), and so
is an attribute of `msiDirList` (`attribute_held`) – but for the ID, which is not looked
at again, and whose one byte too many comes before every listing (`listed_overruns`).
-/

/-- The buffers, each under one name in all three services. -/
inductive Slot
  | resourceIdStr
  | resourceType
  | resourceVaultPath
  | resourceLoc
  deriving DecidableEq

/-- What a buffer is declared with, the same in all three services. -/
def Slot.capacity : Slot → ℕ
  | resourceIdStr => Text.maxNameLen
  | resourceType => Text.maxNameLen
  | resourceVaultPath => Text.maxNameLen + 1
  | resourceLoc => Text.maxNameLen + 1

/-- The buffer `msiDirList` has for a column. -/
def RescColumn.slot : RescColumn → Slot
  | id => .resourceIdStr
  | vaultPath => .resourceVaultPath
  | location => .resourceLoc

/-- What is copied of a row in `msiFileChecksum`, in order. -/
def ResourceRow.attributes (row : ResourceRow) : List (Slot × Text) :=
  [(.resourceIdStr, row.id), (.resourceVaultPath, row.vaultPath), (.resourceLoc, row.location)]

/-- What is copied of a row in `msiStatVault`, in order. -/
def VaultRow.attributes (row : VaultRow) : List (Slot × Text) :=
  [(.resourceIdStr, row.id), (.resourceType, row.type), (.resourceVaultPath, row.vaultPath)]

namespace Slot

/-- The buffers of a service after `memset`. -/
def declared : Frame Char capacity := fun _ => .memset '\x00'

/-- What the loop over the rows comes to: jansson has no string for bytes that are not
UTF-8, and the loop ends at the NULL pointer there is in its place. -/
def reached (J : Jansson) (attributes : List (Slot × Text)) : List (Slot × Text) :=
  attributes.takeWhile (fun a => (J.string a.2).isSome)

/-- `strcpy` of an attribute. -/
def strcpy (a : Slot × Text) : StringCopy Slot Char := ⟨a.1, a.2, none⟩

/-- The copies of a loop over the rows of a query. There is no loop where it fails. -/
def loopCopies {R : Type} (J : Jansson) (attributes : R → List (Slot × Text))
    (rows : Except Failure (List R)) : List (StringCopy Slot Char) :=
  match rows with
  | .error _ => []
  | .ok rows => (reached J (rows.flatMap attributes)).map strcpy

/-- Whatever the loop comes to is shorter than its buffer. -/
def RowsFit {R : Type} (J : Jansson) (attributes : R → List (Slot × Text))
    (rows : Except Failure (List R)) : Prop :=
  ∀ r, rows = .ok r → ∀ a ∈ reached J (r.flatMap attributes),
    CString.strlen '\x00' a.2 < a.1.capacity

/-- The loop gets through strings. -/
theorem reached_append {J : Jansson} {attributes : List (Slot × Text)}
    (h : ∀ a ∈ attributes, (J.string a.2).isSome = true) (rest : List (Slot × Text)) :
    reached J (attributes ++ rest) = attributes ++ reached J rest :=
  List.takeWhile_append_of_pos h

/-- The buffers hold these attributes. -/
def Hold (f : Frame Char capacity) (attributes : List (Slot × Text)) : Prop :=
  ∀ a ∈ attributes, f.strings '\x00' a.1 = Text.ofBuffer a.2

theorem strings_declared (k : Slot) : declared.strings '\x00' k = [] :=
  Buffer.string_memset '\x00'

end Slot

/-- The code that copies attributes: `get_resource_attribute_by_name` as `msiDirList`
calls it for a column, and the loops of the two other services. -/
inductive CopySite
  | byName (column : RescColumn)
  | statVault
  | fileChecksum

namespace Host

/-- What the query of `get_resource_attribute_by_name` finds, none where it fails,
does not return one row, or lacks the column. -/
def attributeValue (H : Host) (column : RescColumn) (resourceName : Text) : Option Text :=
  let cond := ("='".toList ++ resourceName ++ "'".toList).take Text.maxNameLen
  match H.attributeRows column cond with
  | .error _ => none
  | .ok rows => if rows.rowCnt ≠ 1 then none else rows.value

/-- **The copies that are made of the attributes of a resource.** -/
def copies (H : Host) (vaultRows : Text → Except Failure (List VaultRow)) (resourceName : Text) :
    CopySite → List (StringCopy Slot Char)
  | .byName column =>
    match H.attributeValue column resourceName with
    | none => []
    | some value => [⟨column.slot, value, some (Text.maxNameLen + 1)⟩]
  | .statVault => Slot.loopCopies H.jansson VaultRow.attributes (vaultRows resourceName)
  | .fileChecksum => Slot.loopCopies H.jansson ResourceRow.attributes (H.resourceRows resourceName)

/-- **Every copy stays inside its buffer and leaves a zero there.** -/
def AttributesStored (H : Host) (vaultRows : Text → Except Failure (List VaultRow))
    (resourceName : Text) (site : CopySite) : Prop :=
  Slot.declared.Sound '\x00' (H.copies vaultRows resourceName site)

/-- **The attributes for which it does**: no ID of `msiDirList`, a vault path and a
location of at most `MAX_NAME_LEN` bytes; in the loops, whatever is shorter than its
buffer. -/
def AttributesFit (H : Host) (vaultRows : Text → Except Failure (List VaultRow))
    (resourceName : Text) : CopySite → Prop
  | .byName .id => H.attributeValue .id resourceName = none
  | .byName column => ∀ value, H.attributeValue column resourceName = some value →
    CString.strlen '\x00' value ≤ Text.maxNameLen
  | .statVault => Slot.RowsFit H.jansson VaultRow.attributes (vaultRows resourceName)
  | .fileChecksum => Slot.RowsFit H.jansson ResourceRow.attributes (H.resourceRows resourceName)

end Host

/-! ## What fits -/

namespace Slot

theorem covers_strcpy (attributes : List (Slot × Text)) :
    ∀ c ∈ attributes.map strcpy, c.Covers capacity := by
  intro c hc n hn
  obtain ⟨a, -, rfl⟩ := List.mem_map.mp hc
  exact nomatch hn

/-- The bound of `get_resource_attribute_by_name` covers each buffer. -/
theorem covers_strncpy (slot : Slot) (value : Text) :
    ∀ c ∈ [(⟨slot, value, some (Text.maxNameLen + 1)⟩ : StringCopy Slot Char)],
      c.Covers capacity := by
  rw [List.forall_mem_singleton]
  intro n hn
  obtain rfl := Option.some.inj hn
  cases slot with
  | resourceIdStr => exact Nat.le_succ _
  | resourceType => exact Nat.le_succ _
  | resourceVaultPath => exact Nat.le_refl _
  | resourceLoc => exact Nat.le_refl _

/-- `strcpy` of attributes goes well where each is shorter than its buffer. -/
theorem sound_strcpy_iff (f : Frame Char capacity) (attributes : List (Slot × Text)) :
    f.Sound '\x00' (attributes.map strcpy)
      ↔ ∀ a ∈ attributes, CString.strlen '\x00' a.2 < a.1.capacity := by
  rw [Frame.sound_iff (covers_strcpy attributes), List.forall_mem_map]
  rfl

/-- **A loop over rows goes well** where it does for all it comes to. -/
theorem sound_loopCopies_iff {R : Type} {J : Jansson} {attributes : R → List (Slot × Text)}
    {rows : Except Failure (List R)} :
    declared.Sound '\x00' (loopCopies J attributes rows) ↔ RowsFit J attributes rows := by
  cases rows with
  | error f => exact iff_of_true trivial (fun r h => by cases h)
  | ok rows =>
    refine (sound_strcpy_iff declared _).trans ⟨fun h r hr => ?_, fun h => h rows rfl⟩
    obtain rfl := Except.ok.inj hr
    exact h

/-- The copy of `get_resource_attribute_by_name` goes well where its bound is not too
much for the buffer, and more than the text has. -/
theorem sound_strncpy_iff (f : Frame Char capacity) (slot : Slot) (value : Text) :
    f.Sound '\x00' [⟨slot, value, some (Text.maxNameLen + 1)⟩]
      ↔ Text.maxNameLen + 1 ≤ slot.capacity
        ∧ CString.strlen '\x00' value < Text.maxNameLen + 1 := by
  rw [Frame.sound_iff (covers_strncpy slot value), List.forall_mem_singleton]
  rfl

end Slot

/-- The bound is not too much for any buffer but that of the ID. -/
theorem RescColumn.room_iff (column : RescColumn) :
    Text.maxNameLen + 1 ≤ column.slot.capacity ↔ column ≠ .id := by
  cases column with
  | id => exact iff_of_false (Nat.not_succ_le_self _) (by simp)
  | vaultPath => exact iff_of_true (Nat.le_refl _) (by simp)
  | location => exact iff_of_true (Nat.le_refl _) (by simp)

namespace Host

variable {H : Host} {vaultRows : Text → Except Failure (List VaultRow)} {resourceName : Text}

/-- A call copies what its query has found. -/
theorem attributesStored_byName_iff {column : RescColumn} :
    H.AttributesStored vaultRows resourceName (.byName column)
      ↔ ∀ value, H.attributeValue column resourceName = some value →
        column ≠ .id ∧ CString.strlen '\x00' value ≤ Text.maxNameLen := by
  unfold AttributesStored copies
  dsimp only
  cases hvalue : H.attributeValue column resourceName with
  | none => exact iff_of_true trivial (fun value h => nomatch h)
  | some found =>
    show Slot.declared.Sound '\x00' [⟨column.slot, found, some (Text.maxNameLen + 1)⟩] ↔ _
    rw [Slot.sound_strncpy_iff, column.room_iff, Nat.lt_succ_iff]
    constructor
    · rintro h value hv
      exact Option.some.inj hv ▸ h
    · exact fun h => h found rfl

end Host

/-- **Which attributes fit their buffers**: for every host, every query and every
place that copies. -/
theorem attributes_stored_iff (H : Host) (vaultRows : Text → Except Failure (List VaultRow))
    (resourceName : Text) (site : CopySite) :
    H.AttributesStored vaultRows resourceName site
      ↔ H.AttributesFit vaultRows resourceName site := by
  cases site with
  | byName column =>
    rw [Host.attributesStored_byName_iff]
    cases column with
    | id =>
      show _ ↔ H.attributeValue .id resourceName = none
      rw [Option.eq_none_iff_forall_ne_some]
      exact ⟨fun h value hv => (h value hv).1 rfl, fun h value hv => absurd hv (h value)⟩
    | vaultPath => exact ⟨fun h value hv => (h value hv).2, fun h value hv => ⟨nofun, h value hv⟩⟩
    | location => exact ⟨fun h value hv => (h value hv).2, fun h value hv => ⟨nofun, h value hv⟩⟩
  | statVault => exact Slot.sound_loopCopies_iff
  | fileChecksum => exact Slot.sound_loopCopies_iff

namespace Sample

/-- The host whose vault path has one byte more than `MAX_NAME_LEN`. -/
def deepHost : Host := .withVault linkFs ('/' :: List.replicate Text.maxNameLen 'v')

/-- A row whose type has `MAX_NAME_LEN` bytes. -/
def longTypeRows (_ : Text) : Except Failure (List VaultRow) :=
  .ok [⟨"10".toList, List.replicate Text.maxNameLen 't', "/vault".toList⟩]

end Sample

/-- The ID `10` is copied past the end of its buffer; a vault path that is one byte too
long is left without a zero; the zero after a type is written past the end. -/
theorem attributes_overrun :
    ¬ Sample.linkHost.AttributesStored Sample.vaultRows "resc".toList (.byName .id)
      ∧ ¬ Sample.deepHost.AttributesStored Sample.vaultRows "resc".toList (.byName .vaultPath)
      ∧ ¬ Sample.linkHost.AttributesStored Sample.longTypeRows "resc".toList .statVault := by
  refine ⟨fun h => ?_, fun h => ?_, fun h => ?_⟩
  · exact (Host.attributesStored_byName_iff.mp h _ rfl).1 rfl
  · have hlen := (Host.attributesStored_byName_iff.mp h _ rfl).2
    rw [CString.strlen, CString.text_of_notMem _ (by simp)] at hlen
    simp at hlen
  · have hutf8 : JsonText.codec.utf8 (List.replicate Text.maxNameLen 't') = true :=
      JsonText.codec_lawful.utf8_ascii _ (by simp)
    have hstrings : ∀ a ∈ [(Slot.resourceIdStr, "10".toList),
        (.resourceType, List.replicate Text.maxNameLen 't')],
        (JsonText.codec.string a.2).isSome = true := by
      rw [List.forall_mem_cons, List.forall_mem_singleton, Jansson.string_of_utf8 hutf8]
      exact ⟨rfl, rfl⟩
    have hlen := (Slot.sound_strcpy_iff _ _).mp h
      (.resourceType, List.replicate Text.maxNameLen 't')
      ((Slot.reached_append hstrings [(.resourceVaultPath, "/vault".toList)]).symm ▸ by simp)
    rw [CString.strlen, CString.text_of_notMem _ (by simp)] at hlen
    simp [Slot.capacity] at hlen

/-! ## The buffers hold what the model goes on with -/

namespace Slot

/-- What a slot holds after attributes with distinct slots have been assigned. -/
theorem keyedStep_assign : KeyedStep (fun (s : Slot → Text) k => s k)
    (fun s a => StringCopy.assign '\x00' s (strcpy a)) (fun a _ => Text.ofBuffer a.2)
    (fun _ => True) where
  keeps _ _ := trivial
  self _ _ := Function.update_self _ _ _
  other _ _ _ hk := Function.update_of_ne hk _ _

/-- The copies of one row. -/
theorem run_row {attributes : List (Slot × Text)} (hslots : (attributes.map Prod.fst).Nodup)
    (hfits : ∀ a ∈ attributes, CString.strlen '\x00' a.2 < a.1.capacity)
    (f : Frame Char capacity) :
    ∃ g, f.run '\x00' (attributes.map strcpy) = some g ∧ Hold g attributes := by
  obtain ⟨g, hrun, hg⟩ :=
    Frame.run_of_fits (covers_strcpy attributes) (List.forall_mem_map.mpr hfits) f
  refine ⟨g, hrun, fun a ha => ?_⟩
  rw [hg, List.foldl_map]
  exact keyedStep_assign.get_foldl_of_mem hslots ha trivial

/-- **The loop over the rows leaves the attributes of the last one**, whatever the
service makes of a row, as long as it accepts only rows that fit. -/
theorem run_loopCopies {R : Type} {J : Jansson} {attributes : R → List (Slot × Text)}
    {copy : R → Except Fault R} (hslots : ∀ row, ((attributes row).map Prod.fst).Nodup)
    (hcopy : ∀ {row r}, copy row = .ok r → r = row ∧ ∀ a ∈ attributes row,
      (J.string a.2).isSome = true ∧ a.2.length < a.1.capacity)
    {rows : List R} {r₀ row : R} (h : rows.foldlM (fun _ row => copy row) r₀ = .ok row)
    {f : Frame Char capacity} (hf : Hold f (attributes r₀)) :
    ∃ g, f.run '\x00' (loopCopies J attributes (.ok rows)) = some g
      ∧ Hold g (attributes row) := by
  induction rows generalizing r₀ f with
  | nil =>
    obtain rfl := Except.ok.inj h
    exact ⟨f, rfl, hf⟩
  | cons first rows ih =>
    rw [List.foldlM_cons] at h
    cases hfirst : copy first with
    | error fault =>
      rw [hfirst] at h
      exact nomatch h
    | ok r =>
      rw [hfirst] at h
      obtain ⟨rfl, hattributes⟩ := hcopy hfirst
      obtain ⟨g, hrun, hg⟩ := run_row (hslots _) (fun a ha =>
        (CString.strlen_le '\x00' a.2).trans_lt (hattributes a ha).2) f
      obtain ⟨g', hrun', hg'⟩ := ih h hg
      refine ⟨g', ?_, hg'⟩
      rw [loopCopies, List.flatMap_cons, reached_append (fun a ha => (hattributes a ha).1), List.map_append,
        Frame.run_append, hrun]
      exact hrun'

end Slot

namespace Host

variable {H : Host} {vaultRows : Text → Except Failure (List VaultRow)} {resourceName : Text}

/-- **The row `msiFileChecksum` goes on with is in its buffers.** -/
theorem resourceInfo_held {row : ResourceRow} (h : H.resourceInfo resourceName = .ok row) :
    ∃ f, Slot.declared.run '\x00' (H.copies vaultRows resourceName .fileChecksum) = some f
      ∧ Slot.Hold f row.attributes := by
  have hcopy : ∀ {row r : ResourceRow}, H.copyRow row = .ok r →
      r = row ∧ ∀ a ∈ row.attributes,
        (H.jansson.string a.2).isSome = true ∧ a.2.length < a.1.capacity := by
    intro row r h
    obtain ⟨hrow, hid, hvault, hloc⟩ := copyRow_ok h
    simp only [ResourceRow.attributes, List.forall_mem_cons]
    exact ⟨hrow, hid, ⟨hvault.1, Nat.lt_succ_of_le hvault.2⟩,
      ⟨hloc.1, Nat.lt_succ_of_le hloc.2⟩, nofun⟩
  unfold resourceInfo at h
  unfold copies
  split at h
  · exact nomatch h
  · exact nomatch h
  · rename_i rows hne hrows
    rw [hrows]
    have hslots : ∀ row : ResourceRow, (row.attributes.map Prod.fst).Nodup := by
      intro row
      show [Slot.resourceIdStr, .resourceVaultPath, .resourceLoc].Nodup
      decide
    refine Slot.run_loopCopies hslots hcopy h ?_
    simp [Slot.Hold, ResourceRow.attributes, Slot.strings_declared, Text.ofBuffer]

/-- **The row `msiStatVault` goes on with is in its buffers.** -/
theorem vaultInfo_held {row : VaultRow}
    (h : FileState.vaultInfo H (vaultRows resourceName) = .ok row) :
    ∃ f, Slot.declared.run '\x00' (H.copies vaultRows resourceName .statVault) = some f
      ∧ Slot.Hold f row.attributes := by
  have hcopy : ∀ {row r : VaultRow}, FileState.copyVaultRow H row = .ok r →
      r = row ∧ ∀ a ∈ row.attributes,
        (H.jansson.string a.2).isSome = true ∧ a.2.length < a.1.capacity := by
    intro row r h
    obtain ⟨hrow, hid, htype, hvault⟩ := FileState.copyVaultRow_ok h
    simp only [VaultRow.attributes, List.forall_mem_cons]
    exact ⟨hrow, hid, htype, ⟨hvault.1, Nat.lt_succ_of_le hvault.2⟩, nofun⟩
  unfold FileState.vaultInfo at h
  unfold copies
  split at h
  · exact nomatch h
  · exact nomatch h
  · rename_i rows hne hrows
    rw [hrows]
    have hslots : ∀ row : VaultRow, (row.attributes.map Prod.fst).Nodup := by
      intro row
      show [Slot.resourceIdStr, .resourceType, .resourceVaultPath].Nodup
      decide
    refine Slot.run_loopCopies hslots hcopy h ?_
    simp [Slot.Hold, VaultRow.attributes, Slot.strings_declared, Text.ofBuffer]

/-- What a call returns is what its query has found. -/
theorem attributeValue_of_ok {column : RescColumn} {value : Text}
    (h : H.getResourceAttribute column resourceName = .ok (.ok value)) :
    H.attributeValue column resourceName = some value ∧ value.length ≤ Text.maxNameLen := by
  unfold getResourceAttribute at h
  unfold attributeValue
  dsimp only at h ⊢
  generalize H.attributeRows column _ = found at h ⊢
  cases found with
  | error f => exact nomatch Except.ok.inj h
  | ok rows =>
    dsimp only at h ⊢
    by_cases hcnt : rows.rowCnt ≠ 1
    · rw [if_pos hcnt] at h
      exact nomatch Except.ok.inj h
    · rw [if_neg hcnt] at h ⊢
      cases hvalue : rows.value with
      | none =>
        rw [hvalue] at h
        exact nomatch Except.ok.inj h
      | some found =>
        rw [hvalue] at h
        dsimp only at h
        split at h
        · rename_i hlen
          obtain rfl := Except.ok.inj (Except.ok.inj h)
          exact ⟨rfl, hlen⟩
        · exact nomatch h

/-- **The attribute `msiDirList` goes on with is in its buffer**, but for the ID, which
it does not look at again. -/
theorem attribute_held {column : RescColumn} {value : Text} (hcolumn : column ≠ .id)
    (h : H.getResourceAttribute column resourceName = .ok (.ok value)) :
    ∃ f, Slot.declared.run '\x00' (H.copies vaultRows resourceName (.byName column)) = some f
      ∧ Slot.Hold f [(column.slot, value)] := by
  obtain ⟨hvalue, hlen⟩ := attributeValue_of_ok h
  have hroom : Text.maxNameLen + 1 ≤ column.slot.capacity := column.room_iff.mpr hcolumn
  have hfits : CString.strlen '\x00' value < Text.maxNameLen + 1 :=
    (CString.strlen_le '\x00' value).trans_lt (Nat.lt_succ_of_le hlen)
  obtain ⟨g, hrun, hg⟩ := Frame.run_of_fits (Slot.covers_strncpy column.slot value)
    (List.forall_mem_singleton.mpr ⟨hroom, hfits⟩) Slot.declared
  refine ⟨g, ?_, ?_⟩
  · unfold copies
    dsimp only
    rw [hvalue]
    exact hrun
  · refine List.forall_mem_singleton.mpr ?_
    rw [hg]
    exact Function.update_self _ _ _

end Host

/-- **Every listing comes after a write past the end of a buffer**: `msiDirList` lists
nothing before it has found the ID of the resource. -/
theorem FileState.listed_overruns {F : FileState} {H : Host} {path rescName list : MsParam}
    {r : DirList} (vaultRows : Text → Except Failure (List VaultRow))
    (h : F.msiDirList H path rescName list = .ok r) (hr : r.list ≠ none) :
    ∃ resourceName, rescName.parseMspForStr = some resourceName
      ∧ ¬ H.AttributesStored vaultRows resourceName (.byName .id) := by
  have hfound : ∀ {found : Text}, F.dirListChecks H path rescName list = .ok (.ok found) →
      ∃ resourceName id, rescName.parseMspForStr = some resourceName
        ∧ H.getResourceAttribute .id resourceName = .ok (.ok id) := by
    intro found h
    unfold dirListChecks at h
    split at h
    · rename_i resourceName _ _ hname _
      split at h
      · exact nomatch Except.ok.inj h
      · split at h
        · exact nomatch h
        · split at h
          · exact nomatch Except.ok.inj h
          · exact nomatch Except.ok.inj h
        · rename_i id hid
          exact ⟨resourceName, id, hname, hid⟩
    · exact nomatch Except.ok.inj h
  unfold msiDirList at h
  split at h
  · exact nomatch h
  · exact absurd (Except.ok.inj h ▸ rfl) hr
  · rename_i found hchecks
    obtain ⟨resourceName, id, hname, hid⟩ := hfound hchecks
    refine ⟨resourceName, hname, fun hstored => ?_⟩
    exact (Host.attributesStored_byName_iff.mp hstored id (Host.attributeValue_of_ok hid).1).1 rfl
