import IrodsMicroservices.JsonArraySearch

/-!
# The value of a text

`msi_json_arrayops` and `msi_json_objops` each decode a text by themselves: a keyword, a
document, or else a string. The one knows the keywords `true` and `false`, the other does
not, although it writes them for the booleans of an object. jansson reads no boolean that
is not in a document, so the two differ on these texts and on no other
(`values_alike_iff`).
-/

/-- **The services agree on a text**: they read equal values from it, or none. -/
def ReadAlike (J : Jansson) (v : Text) : Prop :=
  Json.EqualMember (decodeVal J v) (decodeText J v)

/-- What `msi_json_arrayops` has added to an array, or found there, `msi_json_objops`
removes from it where it stands first. -/
def RemovedInMember (J : Jansson) (v : Text) : Prop :=
  ∀ (es : List Json) (x : Json), (∀ e ∈ es, e.Valid) → es.length + 1 < 2 ^ 31 →
    decodeVal J v = some x →
    ∃ k : ℕ, FindsLeast ((afterAdd es (some x)).map (equalVal (some x))) k
      ∧ removeMatch (afterAdd es (some x)) (decodeText J v) = (afterAdd es (some x)).eraseIdx k

/-- What `msi_json_objops` has added to an array, `msi_json_arrayops` finds and removes
where it stands first. -/
def RemovedInArray (J : Jansson) (v : Text) : Prop :=
  ∀ (es : List Json) (x : Json), (∀ e ∈ es, e.Valid) → es.length + 1 < 2 ^ 31 →
    decodeText J v = some x →
    ∃ k : ℕ, FindsLeast ((Json.appendNew es (some x)).map (equalVal (some x))) k
      ∧ found (Json.appendNew es (some x)) (decodeVal J v) = some k
      ∧ afterRm (Json.appendNew es (some x)) (decodeVal J v)
        = (Json.appendNew es (some x)).eraseIdx k

section Values

variable {J : Jansson} {v : Text} {es : List Json} {jval : Option Json}

/-- The decoders are one but for two texts. -/
theorem decodeVal_eq_decodeText (htrue : v ≠ "true".toList) (hfalse : v ≠ "false".toList) :
    decodeVal J v = decodeText J v := by
  have hval : decodeVal J v
      = if v = "null".toList then some .null else (J.loads v).or (J.string v) := by
    unfold decodeVal
    rw [if_neg htrue, if_neg hfalse]
    cases J.loads v <;> rfl
  have htext : decodeText J v
      = if v = "null".toList then some .null else (J.loads v).or (J.string v) := by
    unfold decodeText
    cases J.loads v <;> rfl
  rw [hval, htext]

/-- **No text is read as a boolean** by `msi_json_objops`. -/
theorem not_boolean_of_decodeText (hJ : J.Lawful) {x : Json} (h : decodeText J v = some x) :
    x.isBoolean = false := by
  unfold decodeText at h
  split at h
  · exact Option.some.inj h ▸ rfl
  · split at h
    · rename_i w hloads
      obtain rfl := Option.some.inj h
      have hc := hJ.loads_container hloads
      cases w with
      | bool b => exact nomatch hc
      | _ => rfl
    · rw [Jansson.string_eq_some h]
      rfl

/-- In an array whose size is an `int` the services remove the same element. -/
theorem removeMatch_of_found {k : ℕ} (hlen : es.length < 2 ^ 31)
    (h : found es jval = some k) : removeMatch es jval = es.eraseIdx k := by
  unfold found at h
  rw [searched_of_lt hlen] at h
  obtain ⟨hlt, hidx⟩ := List.findIdx?_eq_some_iff_findIdx_eq.mp h
  unfold removeMatch
  dsimp only
  rw [List.take_of_length_le hlen.le, hidx, if_pos hlt]

/-- A value is found in an array that holds it. -/
theorem found_of_mem {x : Json} (hlen : es.length < 2 ^ 31) (hx : x.Valid) (hmem : x ∈ es) :
    ∃ k, found es (some x) = some k := by
  refine Option.ne_none_iff_exists'.mp (found_ne_none_iff.mpr ⟨x, ?_, Json.equal_refl hx⟩)
  rwa [searched_of_lt hlen]

/-- A value is found in what `add` leaves. -/
theorem found_after_add {x : Json} (hlen : es.length + 1 < 2 ^ 31) (hx : x.Valid) :
    (afterAdd es (some x)).length < 2 ^ 31
      ∧ ∃ k, found (afterAdd es (some x)) (some x) = some k := by
  unfold afterAdd
  split
  · have hlen' : (Json.appendNew es (some x)).length < 2 ^ 31 := by
      rwa [show Json.appendNew es (some x) = es ++ [x] from rfl, List.length_append]
    exact ⟨hlen', found_of_mem hlen' hx (List.mem_append_right _ (List.mem_singleton_self x))⟩
  · rename_i hcond
    exact ⟨by omega, Option.ne_none_iff_exists'.mp (not_or.mp hcond).2⟩

end Values

/-- **On which texts the services agree.** They read equal values, and each finds and
removes what the other has added, exactly where the text is neither `true` nor `false`. -/
theorem values_alike_iff {J : Jansson} (hJ : J.Lawful) {v : Text} (hv : v ≠ "null".toList) :
    (ReadAlike J v ∧ RemovedInMember J v ∧ RemovedInArray J v)
      ↔ v ≠ "true".toList ∧ v ≠ "false".toList := by
  constructor
  · rintro ⟨halike, -, -⟩
    have hbool : ∀ b, decodeVal J v ≠ some (.bool b) := by
      intro b hb
      unfold ReadAlike at halike
      rw [hb] at halike
      generalize hx : decodeText J v = jval at halike
      cases halike with
      | some hequal =>
        have hnot := not_boolean_of_decodeText hJ hx
        rw [← Json.isBoolean_of_equal hequal] at hnot
        exact nomatch hnot
    constructor
    · rintro rfl
      exact hbool true rfl
    · rintro rfl
      exact hbool false rfl
  · rintro ⟨htrue, hfalse⟩
    have hsame := decodeVal_eq_decodeText (J := J) htrue hfalse
    have hvalid : ∀ {x}, decodeVal J v = some x → x.Valid := fun hx => (decodeVal_spec hJ hv hx).1
    refine ⟨?_, fun es x hes hlen hx => ?_, fun es x hes hlen hx => ?_⟩
    · unfold ReadAlike
      rw [← hsame]
      exact .refl (fun x hx => hvalid hx)
    · obtain ⟨hlen', k, hk⟩ := found_after_add hlen (hvalid hx)
      rw [← hsame, hx]
      exact ⟨k, findsLeast_of_found hk, removeMatch_of_found hlen' hk⟩
    · rw [← hsame] at hx
      have hlen' : (Json.appendNew es (some x)).length < 2 ^ 31 := by
        rwa [show Json.appendNew es (some x) = es ++ [x] from rfl, List.length_append]
      obtain ⟨k, hk⟩ := found_of_mem hlen' (hvalid hx)
        (List.mem_append_right _ (List.mem_singleton_self x))
      rw [hx]
      exact ⟨k, findsLeast_of_found hk, hk, by rw [afterRm, hk]⟩

/-- On a word the services agree, on a boolean they do not. -/
theorem values_alike_sample :
    (ReadAlike JsonText.codec "word".toList ∧ RemovedInMember JsonText.codec "word".toList
        ∧ RemovedInArray JsonText.codec "word".toList)
      ∧ ¬ (ReadAlike JsonText.codec "true".toList ∧ RemovedInMember JsonText.codec "true".toList
        ∧ RemovedInArray JsonText.codec "true".toList) :=
  ⟨(values_alike_iff JsonText.codec_lawful (by decide)).mpr ⟨by decide, by decide⟩,
    fun h => ((values_alike_iff JsonText.codec_lawful (by decide)).mp h).1 rfl⟩

/-- **The text `true`** is a boolean for the one service and a string for the other: a
`true` added to an array is not removed when the array is a member. -/
theorem keyword_read_differently :
    decodeVal JsonText.codec "true".toList = some (.bool true)
      ∧ decodeText JsonText.codec "true".toList = some (.string "true".toList)
      ∧ removeMatch [.bool true] (decodeText JsonText.codec "true".toList) = [.bool true]
      ∧ ¬ ReadAlike JsonText.codec "true".toList := by
  have htext : decodeText JsonText.codec "true".toList = some (.string "true".toList) := by
    unfold decodeText
    rw [if_neg (by decide), JsonText.codec_keywords.loads_true]
    rfl
  refine ⟨rfl, htext, by rw [htext]; rfl, fun h => ?_⟩
  unfold ReadAlike at h
  rw [htext] at h
  cases h with
  | some hequal => exact nomatch hequal
