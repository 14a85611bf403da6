import IrodsMicroservices.LexicalPath

/-!
# Inside the vault

Three services work on a physical path, and all of them test first whether its
normal form lies in the vault of the resource. The test compares bytes: the
normal form has to start with the vault path, and the next byte has to be a
slash. `vault_containment` says what that means for the segments.
-/

open LexicalPath

/-- **The test the services share.** -/
def insideVault (normalized vault : Text) : Bool :=
  Text.strncmpEq normalized vault vault.length && normalized[vault.length]? == some '/'

/-- What the test asks for is the vault path with a slash after it. -/
theorem insideVault_iff (normalized vault : Text) :
    insideVault normalized vault = true ↔ vault ++ ['/'] <+: normalized := by
  rw [insideVault, Bool.and_eq_true, Text.strncmpEq_length_iff, beq_iff_eq]
  constructor
  · rintro ⟨⟨rest, rfl⟩, hnext⟩
    rw [List.getElem?_append_right le_rfl, Nat.sub_self] at hnext
    cases rest with
    | nil => exact nomatch hnext
    | cons c rest =>
      obtain rfl : c = '/' := Option.some.inj hnext
      exact ⟨rest, by rw [List.append_assoc]; rfl⟩
  · rintro ⟨rest, rfl⟩
    rw [List.append_assoc]
    refine ⟨List.prefix_append _ _, ?_⟩
    rw [List.getElem?_append_right le_rfl, Nat.sub_self]
    rfl

/-- A path that goes on after a slash has the segments of its start. -/
theorem prefix_segments {p q : Text} (hp : isAbsolute p = true) (h : p ++ ['/'] <+: q) :
    segments p <+: segments q := by
  obtain ⟨rest, rfl⟩ := h
  obtain ⟨p, rfl, -⟩ := pieces_absolute hp
  rw [List.append_assoc, List.singleton_append]
  unfold segments
  rw [pieces_append, List.filter_append, ← List.append_assoc]
  exact List.prefix_append _ _

/-- No segment but the first is a slash. -/
theorem isAbsolute_of_segments {p : Text} {segs : List Text} (h : segments p = ['/'] :: segs) :
    isAbsolute p = true := by
  by_contra hp
  unfold segments at h
  rw [if_neg hp, List.nil_append] at h
  have hmem : ['/'] ∈ pieces p := List.mem_of_mem_filter (h ▸ List.mem_cons_self)
  exact slash_not_mem_piece _ hmem (List.mem_singleton_self _)

/-- Two runs of segments, with a slash between. -/
theorem intercalate_append {xs ys : List Text} (hxs : xs ≠ []) (hys : ys ≠ []) :
    ['/'].intercalate (xs ++ ys) = ['/'].intercalate xs ++ '/' :: ['/'].intercalate ys := by
  induction xs with
  | nil => exact absurd rfl hxs
  | cons x xs ih =>
    cases xs with
    | nil =>
      rw [List.singleton_append, List.intercalate_cons_of_ne_nil hys, List.intercalate_singleton,
        List.append_assoc]
      rfl
    | cons y xs =>
      rw [List.cons_append, List.intercalate_cons_of_ne_nil (by simp), ih (List.cons_ne_nil _ _),
        List.intercalate_cons_of_ne_nil (List.cons_ne_nil y xs)]
      simp only [List.append_assoc]

/-- An absolute path in normal form without a slash at its end is its segments. -/
theorem eq_of_normal {v : Text} (hv : isAbsolute v = true) (hnormal : lexicallyNormal v = v)
    (hroot : v ≠ ['/']) (hslash : v.getLast? ≠ some '/') :
    normalSegments v ≠ [] ∧ v = '/' :: ['/'].intercalate (normalSegments v) := by
  have hend : endsInSlash v = false := by
    by_contra h
    rw [Bool.not_eq_false] at h
    rw [← hnormal, lexicallyNormal_of_absolute hv, h] at hslash
    exact hslash List.getLast?_concat
  have heq : v = '/' :: ['/'].intercalate (normalSegments v) := by
    conv_lhs => rw [← hnormal, lexicallyNormal_of_absolute hv, hend, normalText_rooted]
    exact congrArg _ (List.append_nil _)
  refine ⟨fun hnil => hroot ?_, heq⟩
  rw [heq, hnil]
  rfl

/-- **The test accepts what lies in the vault.** For an absolute vault path, a
path whose normal form is accepted has a normal form without dot-dots whose
segments start with those of the vault. And where the vault path is itself in
normal form, is not the root and has no slash at its end, every path whose
normal form has its segments and more is accepted. -/
theorem vault_containment {vault : Text} (hv : isAbsolute vault = true) (path : Text) :
    (insideVault (lexicallyNormal path) vault = true →
        segments vault <+: segments (lexicallyNormal path)
          ∧ "..".toList ∉ segments (lexicallyNormal path))
      ∧ (lexicallyNormal vault = vault → vault ≠ ['/'] → vault.getLast? ≠ some '/' →
          segments vault <+: segments (lexicallyNormal path) →
          segments vault ≠ segments (lexicallyNormal path) →
          insideVault (lexicallyNormal path) vault = true) := by
  rw [insideVault_iff]
  constructor
  · intro h
    have habs : isAbsolute (lexicallyNormal path) = true := by
      obtain ⟨v, rfl, -⟩ := pieces_absolute hv
      obtain ⟨rest, hrest⟩ := h
      rw [← hrest]
      rfl
    rw [isAbsolute_lexicallyNormal] at habs
    refine ⟨prefix_segments hv h, ?_⟩
    rw [segments_lexicallyNormal habs, List.mem_cons, not_or]
    refine ⟨by decide, fun hdot => ?_⟩
    rcases mem_normalSegments hdot with hname | ⟨hrel, -⟩
    · exact hname.2.1 rfl
    · exact absurd (habs.symm.trans hrel) (by simp)
  · intro hnormal hroot hslash hprefix hne
    obtain ⟨hsegs, heq⟩ := eq_of_normal hv hnormal hroot hslash
    have hsegments : segments vault = ['/'] :: normalSegments vault := by
      conv_lhs => rw [← hnormal]
      exact segments_lexicallyNormal hv
    rw [hsegments] at hprefix hne
    obtain ⟨more, hcons⟩ := hprefix
    have habs : isAbsolute path = true := by
      rw [← isAbsolute_lexicallyNormal]
      exact isAbsolute_of_segments hcons.symm
    rw [segments_lexicallyNormal habs] at hcons hne
    have hmore : normalSegments vault ++ more = normalSegments path := (List.cons.inj hcons).2
    have hmore_ne : more ≠ [] := by
      rintro rfl
      rw [List.append_nil] at hmore
      exact hne (congrArg _ hmore)
    rw [lexicallyNormal_of_absolute habs, normalText_rooted, ← hmore,
      intercalate_append hsegs hmore_ne]
    conv_lhs => rw [heq]
    refine ⟨['/'].intercalate more ++ if endsInSlash path then ['/'] else [], ?_⟩
    simp only [List.cons_append, List.append_assoc, List.nil_append]

/-- A path that climbs above the root and comes back into the vault. -/
theorem vault_containment_sample :
    let path := "/../vault/home//f".toList
    (insideVault (lexicallyNormal path) "/vault".toList = true →
        segments "/vault".toList <+: segments (lexicallyNormal path)
          ∧ "..".toList ∉ segments (lexicallyNormal path))
      ∧ (lexicallyNormal "/vault".toList = "/vault".toList → "/vault".toList ≠ ['/'] →
          "/vault".toList.getLast? ≠ some '/' →
          segments "/vault".toList <+: segments (lexicallyNormal path) →
          segments "/vault".toList ≠ segments (lexicallyNormal path) →
          insideVault (lexicallyNormal path) "/vault".toList = true) :=
  vault_containment (by decide) _
