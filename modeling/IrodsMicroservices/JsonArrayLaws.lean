import IrodsMicroservices.JsonArraySearch

/-!
# Laws of the operations on a JSON array

Four laws of `msi_json_arrayops`, each for a document of its own: which texts of `get` lead
back to their elements (`element_read_back_iff`), when a value that has been added is found
(`add_found_iff`), what `rm` leaves after `add` (`rm_after_add`), and what a call that
fails, or only reads, leaves (`arrayops_refuses_iff`).

`add` does not look at what jansson returns, so a value that is not valid UTF-8 is reported
as added and is not there (`refused_value_added`). The search counts with an `int`: an
array of `2^31` elements is not searched at all (`ManyElems.found_none`).
-/

/-! ## Getting an element and looking for it -/

/-- The text `get` stores for an element. -/
def elementText (J : Jansson) : Json → Text
  | .string s => s
  | e => J.dumpsAny e

/-- **The elements whose text is read back as them**: a string is stored as it is, so it
must not be the text of something else, and a number is not read at all. -/
def LeadsBack (J : Jansson) : Json → Prop
  | .bool _ | .array _ | .object _ => True
  | .string s => J.utf8 s = true ∧ s ≠ "null".toList ∧ s ≠ "true".toList ∧ s ≠ "false".toList
      ∧ J.loads s = none
  | _ => False

section LeadsBack

variable {J : Jansson} {e : Json} {es : List Json} {v : Text}

theorem decodeVal_of_loads {w : Json} (hkeywords : J.Keywords) (hnull : v ≠ "null".toList)
    (h : J.loads v = some w) : decodeVal J v = some w := by
  have htrue : v ≠ "true".toList := by
    rintro rfl
    exact nomatch hkeywords.loads_true.symm.trans h
  have hfalse : v ≠ "false".toList := by
    rintro rfl
    exact nomatch hkeywords.loads_false.symm.trans h
  unfold decodeVal
  rw [if_neg hnull, if_neg htrue, if_neg hfalse, h]

/-- The text of a document is read back as it. -/
theorem decodeVal_text (hJ : J.Lawful) (hstrict : J.Strict) (hkeywords : J.Keywords)
    (he : e.Valid) (hc : e.isContainer = true) :
    J.text 0 e ≠ "null".toList ∧ ∃ x, decodeVal J (J.text 0 e) = some x ∧ e.equal x = true := by
  obtain ⟨w, hw, hequal⟩ := hJ.loads_text 0 he hc
  have hnull := (Jansson.Strict.text_ne hJ hstrict 0 he hc).2
  exact ⟨hnull, w, decodeVal_of_loads hkeywords hnull hw, hequal⟩

/-- **A text that leads back** is read as a value that is equal to its element. -/
theorem decodeVal_elementText (hJ : J.Lawful) (hstrict : J.Strict) (hkeywords : J.Keywords)
    (he : e.Valid) (h : LeadsBack J e) :
    elementText J e ≠ "null".toList
      ∧ ∃ x, decodeVal J (elementText J e) = some x ∧ e.equal x = true := by
  cases e with
  | null => exact h.elim
  | integer i => exact h.elim
  | real r => exact h.elim
  | bool b =>
    cases b with
    | true =>
      rw [show elementText J (.bool true) = "true".toList from hkeywords.text_true]
      exact ⟨by decide, .bool true, rfl, rfl⟩
    | false =>
      rw [show elementText J (.bool false) = "false".toList from hkeywords.text_false]
      exact ⟨by decide, .bool false, rfl, rfl⟩
  | string s =>
    obtain ⟨hutf8, hnull, htrue, hfalse, hloads⟩ := h
    refine ⟨hnull, .string s, ?_, Json.equal_refl he⟩
    show decodeVal J s = _
    unfold decodeVal
    rw [if_neg hnull, if_neg htrue, if_neg hfalse, hloads]
    exact Jansson.string_of_utf8 hutf8
  | array es => exact decodeVal_text hJ hstrict hkeywords he rfl
  | object ms => exact decodeVal_text hJ hstrict hkeywords he rfl

/-- **A text that does not lead back** is refused, or is read as another value. -/
theorem not_equal_of_not_leadsBack (hJ : J.Lawful) (hkeywords : J.Keywords)
    (h : ¬ LeadsBack J e) (hnull : elementText J e ≠ "null".toList) {x : Json}
    (hx : decodeVal J (elementText J e) = some x) : e.equal x = false := by
  cases e with
  | null => exact absurd hkeywords.text_null hnull
  | bool b => exact absurd trivial h
  | array es => exact absurd trivial h
  | object ms => exact absurd trivial h
  | integer i =>
    -- no text is read as a number
    refine Bool.eq_false_of_not_eq_true (fun hequal => ?_)
    have hnumber := (decodeVal_spec hJ hnull hx).2.2
    rw [← Json.isNumber_of_equal hequal] at hnumber
    exact nomatch hnumber
  | real r =>
    refine Bool.eq_false_of_not_eq_true (fun hequal => ?_)
    have hnumber := (decodeVal_spec hJ hnull hx).2.2
    rw [← Json.isNumber_of_equal hequal] at hnumber
    exact nomatch hnumber
  | string s =>
    change decodeVal J s = some x at hx
    change s ≠ _ at hnull
    unfold decodeVal at hx
    rw [if_neg hnull] at hx
    split at hx
    · exact Option.some.inj hx ▸ rfl
    · rename_i htrue
      split at hx
      · exact Option.some.inj hx ▸ rfl
      · rename_i hfalse
        split at hx
        · rename_i w hloads
          obtain rfl := Option.some.inj hx
          have hc := hJ.loads_container hloads
          cases w with
          | array es => rfl
          | object ms => rfl
          | _ => exact nomatch hc
        · rename_i hloads
          unfold Jansson.string at hx
          split at hx
          · rename_i hutf8
            exact absurd ⟨hutf8, hnull, htrue, hfalse, hloads⟩ h
          · exact nomatch hx

/-- Values that are equal are hit by the same elements. -/
theorem found_of_equal {jval : Option Json} {x : Json} (he : e.Valid)
    (hx : x.Valid) (h : jval = some x) (hequal : e.equal x = true) :
    found es jval = found es (some e) := by
  subst h
  have hback := Json.equal_symm he hx hequal
  have hsame : ∀ f ∈ es, equalVal (some x) f = equalVal (some e) f := fun f hf =>
    Bool.eq_iff_iff.mpr ⟨fun h => Json.equal_trans h hback, fun h => Json.equal_trans h hequal⟩
  rw [found_eq_findIdx_hits, found_eq_findIdx_hits, List.map_congr_left hsame]

end LeadsBack

/-- **Looking for a text finds an element**: in every document with these elements,
`find` returns the first position of an equal one, and `rm` removes it there. -/
def FoundByText (J : Jansson) (es : List Json) (e : Json) (t : Text) : Prop :=
  ∀ (doc : Text) (fs : List Json) (inIdx : ℤ), HoldsArray J doc fs → EqualElems es fs →
    ∃ k : ℕ, FindsLeast (es.map (equalVal (some e))) k
      ∧ (∃ new, callArray J doc t "find".toList inIdx = ⟨.num 0, some new, none, some k⟩)
      ∧ ∃ new gs, callArray J doc t "rm".toList inIdx
          = ⟨.num 0, some new, none, some (es.length - 1 : ℕ)⟩
        ∧ HoldsArray J new gs ∧ EqualElems (es.eraseIdx k) gs

section FoundByText

variable {J : Jansson} {doc v t : Text} {es : List Json} {e : Json} {i : ℕ}

/-- `get` stores the text of the element, and its position. -/
theorem callArray_get (h : HoldsArray J doc es) (hlen : es.length < 2 ^ 31)
    (hv : v ≠ "null".toList) (hi : es[i]? = some e) :
    callArray J doc v "get".toList i
      = ⟨.num 0, some (J.text 0 (.array es)), some (elementText J e), some i⟩ := by
  have hlt : i < 2 ^ 31 := (List.getElem?_eq_some_iff.mp hi).1.trans hlen
  rw [callArray_eq h hv (by decide)]
  unfold applyOp
  dsimp only
  rw [if_neg (by decide), if_neg (by decide), if_neg (by decide), if_pos rfl,
    sizeOfInt_of_lt hlt, hi]
  cases e <;> rfl

/-- **What is read as an equal value is found and removed.** -/
theorem foundByText_of_decode (hJ : J.Lawful) (hstrict : J.Strict) (hes : ∀ e ∈ es, e.Valid)
    (hlen : es.length < 2 ^ 31) (he : e ∈ es) (ht : t ≠ "null".toList) {x : Json}
    (hx : decodeVal J t = some x) (hequal : e.equal x = true) : FoundByText J es e t := by
  intro doc fs inIdx hdoc hfs
  have hvalid := hes e he
  have hfsValid := hdoc.valid hJ
  have hsearch : found fs (decodeVal J t) = found es (some e) := by
    rw [← found_equal _ hfs hes hfsValid]
    exact found_of_equal hvalid (decodeVal_spec hJ ht hx).1 hx hequal
  obtain ⟨k, hk⟩ : ∃ k, found es (some e) = some k := by
    refine Option.ne_none_iff_exists'.mp (found_ne_none_iff.mpr ⟨e, ?_, Json.equal_refl hvalid⟩)
    rw [searched_of_lt hlen]
    exact he
  refine ⟨k, findsLeast_of_found hk, ⟨_, by rw [callArray_find hdoc ht, hsearch, hk]; rfl⟩, ?_⟩
  have hrm : afterRm fs (decodeVal J t) = fs.eraseIdx k := by
    unfold afterRm
    rw [hsearch, hk]
  have hsize : (fs.eraseIdx k).length = es.length - 1 := by
    rw [List.length_eraseIdx_of_lt (hfs.length_eq ▸ found_lt hk), hfs.length_eq]
  obtain ⟨gs, hgs, hequals⟩ := holdsArray_text hJ hstrict
    (valid_afterRm (decodeVal J t) hfsValid)
  refine ⟨_, gs, ?_, hgs, ?_⟩
  · rw [callArray_rm hdoc ht, hrm, hsize, intOfSize_of_lt (by omega)]
  · have hsame := (afterRm_equal (decodeVal J t) hfs hes hfsValid).trans hequals
    rwa [show afterRm es (decodeVal J t) = es.eraseIdx k by
      unfold afterRm
      rw [found_equal _ hfs hes hfsValid, hsearch, hk]] at hsame

/-- What is found by a text is equal to what the text is read as. -/
theorem equal_of_foundByText (hJ : J.Lawful) (hdoc : HoldsArray J doc es)
    (h : FoundByText J es e t) (he : e ∈ es) :
    t ≠ "null".toList ∧ ∃ x, decodeVal J t = some x ∧ e.equal x = true := by
  have hes := hdoc.valid hJ
  obtain ⟨k, hleast, ⟨new, hfind⟩, -⟩ := h doc es 0 hdoc
    (List.forall₂_same.mpr (fun e he => Json.equal_refl (hes e he)))
  have ht : t ≠ "null".toList := by
    rintro rfl
    rw [callArray_null] at hfind
    exact nomatch congrArg ArrayopsResult.status hfind
  refine ⟨ht, ?_⟩
  rw [callArray_find hdoc ht] at hfind
  have hout := Option.some.inj (congrArg ArrayopsResult.sizeOrIndex hfind)
  cases hfound : found es (decodeVal J t) with
  | none =>
    rw [hfound] at hout
    exact absurd hout (by simp)
  | some i =>
    rw [hfound] at hout
    obtain rfl : i = k := Int.ofNat.inj hout
    -- the element found is equal to the value, and to the element
    obtain ⟨-, ⟨f, hf, hhit⟩, -⟩ := found_eq_some_iff.mp hfound
    have hfe : f.equal e = true := by
      rcases hleast with ⟨j, hj, hget, -⟩ | ⟨hneg, -⟩
      · obtain rfl := Int.ofNat.inj hj
        rw [List.getElem?_map, hf] at hget
        exact Option.some.inj hget
      · exact absurd hneg (by simp)
    cases hx : decodeVal J t with
    | none =>
      rw [hx] at hhit
      exact nomatch hhit
    | some x =>
      rw [hx] at hhit
      refine ⟨x, rfl, Json.equal_trans (Json.equal_symm ?_ (hes e he) hfe) hhit⟩
      exact hes f (List.mem_of_getElem? hf)

/-- The element is found by its text exactly where that leads back to it. -/
theorem foundByText_iff (hJ : J.Lawful) (hstrict : J.Strict) (hkeywords : J.Keywords)
    (hdoc : HoldsArray J doc es) (hlen : es.length < 2 ^ 31) (he : e ∈ es) :
    FoundByText J es e (elementText J e) ↔ LeadsBack J e := by
  have hes := hdoc.valid hJ
  constructor
  · intro h
    by_contra hnot
    obtain ⟨hnull, x, hx, hequal⟩ := equal_of_foundByText hJ hdoc h he
    exact absurd (hequal.symm.trans (not_equal_of_not_leadsBack hJ hkeywords hnot hnull hx))
      (by simp)
  · intro h
    obtain ⟨hnull, x, hx, hequal⟩ := decodeVal_elementText hJ hstrict hkeywords (hes e he) h
    exact foundByText_of_decode hJ hstrict hes hlen he hnull hx hequal

end FoundByText

/-- **Which elements are found by what `get` returns of them.** In an array whose size is
an `int`, `get` stores the text of the element at a position; `find` and `rm` lead from
that text to the first equal element exactly where the text leads back to the element. -/
theorem element_read_back_iff {J : Jansson} (hJ : J.Lawful) (hstrict : J.Strict)
    (hkeywords : J.Keywords) {doc v : Text} {es : List Json} (hdoc : HoldsArray J doc es)
    (hlen : es.length < 2 ^ 31) (hv : v ≠ "null".toList) {i : ℕ} {e : Json}
    (hi : es[i]? = some e) :
    ∃ t new, callArray J doc v "get".toList i = ⟨.num 0, some new, some t, some i⟩
      ∧ (FoundByText J es e t ↔ LeadsBack J e) :=
  ⟨_, _, callArray_get hdoc hlen hv hi,
    foundByText_iff hJ hstrict hkeywords hdoc hlen (List.mem_of_getElem? hi)⟩

namespace Sample

open JsonText (codec)

/-- The text of an array is a document that holds it. -/
theorem holdsArray_codec {es : List Json} (hes : ∀ e ∈ es, e.Valid) :
    HoldsArray codec (codec.text 0 (.array es)) es := by
  obtain ⟨hempty, hnull⟩ := Jansson.Strict.text_ne JsonText.codec_lawful JsonText.codec_strict 0
    (.array hes) rfl
  exact ⟨hnull, by rw [if_neg hempty]; exact JsonText.codec_loads_text 0 (.array hes) rfl⟩

end Sample

/-- The second element of an array of a null and a text. -/
theorem element_read_back_sample :
    ∃ t new, callArray JsonText.codec
        (JsonText.codec.text 0 (.array [.null, .string "a".toList])) [] "get".toList (1 : ℕ)
          = ⟨.num 0, some new, some t, some (1 : ℕ)⟩
      ∧ (FoundByText JsonText.codec [.null, .string "a".toList] (.string "a".toList) t
        ↔ LeadsBack JsonText.codec (.string "a".toList)) :=
  element_read_back_iff JsonText.codec_lawful JsonText.codec_strict JsonText.codec_keywords
    (Sample.holdsArray_codec (by
      refine List.forall_mem_cons.mpr ⟨.null, List.forall_mem_singleton.mpr (.string _)⟩))
    (by decide) (by decide) rfl

namespace ManyElems

open JsonText (codec)

theorem holdsArray_doc (n : ℕ) : HoldsArray codec (doc n) (elems n) :=
  ⟨doc_ne_null n, loads_doc n⟩

/-- Nothing is found in an array with `2^31` elements. -/
theorem found_none (jval : Option Json) : found (elems (2 ^ 31)) jval = none := by
  have hsearched : searched (elems (2 ^ 31)) = [] := by
    refine List.length_eq_zero_iff.mp ?_
    rw [length_searched, length_elems]
    decide
  rw [found, hsearched]
  rfl

end ManyElems

/-- **Elements that are not found by their text**: `get` returns the text `null` for null,
which is refused; the text of a number and the string `true` are read as a string and as
a boolean; and in an array of `2^31` elements nothing is found. -/
theorem element_not_read_back :
    (∀ e ∈ [Json.null, .integer 5, .string "true".toList],
      HoldsArray JsonText.codec (JsonText.codec.text 0 (.array [e])) [e]
        ∧ ¬ ∃ t new, callArray JsonText.codec (JsonText.codec.text 0 (.array [e])) []
            "get".toList (0 : ℕ) = ⟨.num 0, some new, some t, some (0 : ℕ)⟩
          ∧ FoundByText JsonText.codec [e] e t)
    ∧ HoldsArray JsonText.codec (ManyElems.doc (2 ^ 31)) (ManyElems.elems (2 ^ 31))
      ∧ (ManyElems.elems (2 ^ 31))[0]? = some (.array [.integer 0])
      ∧ ¬ ∃ t new, callArray JsonText.codec (ManyElems.doc (2 ^ 31)) [] "get".toList (0 : ℕ)
            = ⟨.num 0, some new, some t, some (0 : ℕ)⟩
          ∧ FoundByText JsonText.codec (ManyElems.elems (2 ^ 31)) (.array [.integer 0]) t := by
  refine ⟨fun e he => ?_, ManyElems.holdsArray_doc _, by simp [ManyElems.elems], ?_⟩
  · have hbad : e.Valid ∧ ¬ LeadsBack JsonText.codec e := by
      simp only [List.mem_cons, List.not_mem_nil, or_false] at he
      rcases he with rfl | rfl | rfl
      · exact ⟨.null, id⟩
      · exact ⟨.integer 5, id⟩
      · exact ⟨.string _, fun h => h.2.2.1 rfl⟩
    have hdoc := Sample.holdsArray_codec (List.forall_mem_singleton.mpr hbad.1)
    refine ⟨hdoc, ?_⟩
    rintro ⟨t, new, hget, hfound⟩
    rw [callArray_get hdoc (by simp) (by decide) (e := e) rfl] at hget
    obtain rfl := Option.some.inj (congrArg ArrayopsResult.val hget)
    exact hbad.2 ((foundByText_iff JsonText.codec_lawful JsonText.codec_strict
      JsonText.codec_keywords hdoc (by simp) (List.mem_singleton_self e)).mp hfound)
  · rintro ⟨t, new, -, hfound⟩
    have hdoc := ManyElems.holdsArray_doc (2 ^ 31)
    obtain ⟨k, -, ⟨new', hfind⟩, -⟩ := hfound _ _ 0 hdoc
      (List.forall₂_same.mpr (fun e he => Json.equal_refl (hdoc.valid JsonText.codec_lawful e he)))
    have ht : t ≠ "null".toList := by
      rintro rfl
      rw [callArray_null] at hfind
      exact absurd (congrArg ArrayopsResult.status hfind) (by simp)
    rw [callArray_find hdoc ht, ManyElems.found_none] at hfind
    exact absurd (Option.some.inj (congrArg ArrayopsResult.sizeOrIndex hfind)) (by simp)

/-! ## Finding what has been added -/

/-- **A value that is added is found**: where `add` returns 0, `find` returns on the
document it has written the position of an element equal to the value, and the elements
that were there have kept their places. -/
def AddIsFound (J : Jansson) (doc v : Text) (es : List Json) : Prop :=
  ∀ inIdx inIdx' : ℤ, (callArray J doc v "add".toList inIdx).status = .num 0 →
    ∃ new fs x f, ∃ k : ℕ, (callArray J doc v "add".toList inIdx).jsonStr = some new
      ∧ HoldsArray J new fs ∧ EqualElems es (fs.take es.length)
      ∧ (callArray J new v "find".toList inIdx').status = .num 0
      ∧ (callArray J new v "find".toList inIdx').sizeOrIndex = some k
      ∧ decodeVal J v = some x ∧ fs[k]? = some f ∧ f.equal x = true

section AddFound

variable {J : Jansson} {doc v : Text} {es : List Json} {x : Json}

theorem afterAdd_some : afterAdd es (some x)
    = if x.isBoolean = true ∨ found es (some x) = none then es ++ [x] else es := rfl

/-- The elements that were there are the first ones. -/
theorem take_afterAdd (es : List Json) (jval : Option Json) :
    (afterAdd es jval).take es.length = es := by
  unfold afterAdd
  split
  · exact List.take_left
  · exact List.take_length

/-- **When a value is found in what `add` leaves**: it is found already and is no boolean,
or it is found among the elements with the value after them. -/
theorem found_afterAdd_iff : found (afterAdd es (some x)) (some x) ≠ none
    ↔ x.isBoolean = false ∧ (∃ e ∈ searched es, e.equal x = true)
      ∨ ∃ e ∈ searched (es ++ [x]), e.equal x = true := by
  have hfound : ∀ fs : List Json, found fs (some x) ≠ none
      ↔ ∃ e ∈ searched fs, e.equal x = true := fun _ => found_ne_none_iff
  rw [← hfound, ← hfound, afterAdd_some]
  split
  · rename_i hcond
    refine ⟨.inr, fun h => h.elim (fun h => ?_) id⟩
    rcases hcond with hbool | hnone
    · exact absurd (hbool.symm.trans h.1) (by simp)
    · exact absurd hnone h.2
  · rename_i hcond
    obtain ⟨hbool, hsome⟩ := not_or.mp hcond
    exact iff_of_true hsome (.inl ⟨Bool.eq_false_of_not_eq_true hbool, hsome⟩)

/-- **When a value that is added is found**: the call is refused, or the text is one of a
value, and the value is reached by the search. -/
theorem addIsFound_iff (hJ : J.Lawful) (hstrict : J.Strict) (hdoc : HoldsArray J doc es) :
    AddIsFound J doc v es ↔ v = "null".toList
      ∨ ∃ x, decodeVal J v = some x ∧ found (afterAdd es (some x)) (some x) ≠ none := by
  by_cases hv : v = "null".toList
  · subst hv
    refine iff_of_true (fun inIdx _ h => ?_) (.inl rfl)
    rw [callArray_null] at h
    exact nomatch h
  have hes := hdoc.valid hJ
  have hvalid : ∀ e ∈ afterAdd es (decodeVal J v), e.Valid :=
    valid_afterAdd hes (fun x hx => (decodeVal_spec hJ hv hx).1)
  obtain ⟨fs, hfs, hequals⟩ := holdsArray_text hJ hstrict hvalid
  have hsearch := found_equal (decodeVal J v) hequals hvalid (hfs.valid hJ)
  constructor
  · intro h
    obtain ⟨new, fs', x, f, k, hnew, hfs', -, -, hout, hx, -, -⟩ := h 0 0 (by rw [callArray_add hdoc hv])
    refine .inr ⟨x, hx, fun hnone => ?_⟩
    rw [callArray_add hdoc hv] at hnew
    obtain rfl := Option.some.inj hnew
    obtain rfl := Json.array.inj (Option.some.inj (hfs.loads.symm.trans hfs'.loads))
    rw [callArray_find hfs hv, ← hsearch, hx, hnone] at hout
    exact absurd (Option.some.inj hout) (by simp)
  · rintro (hnull | ⟨x, hx, hfound⟩) inIdx inIdx' -
    · exact absurd hnull hv
    obtain ⟨k, hk⟩ := Option.ne_none_iff_exists'.mp hfound
    rw [← hx, hsearch, hx] at hk
    obtain ⟨-, ⟨f, hf, hhit⟩, -⟩ := found_eq_some_iff.mp hk
    refine ⟨_, fs, x, f, k, by rw [callArray_add hdoc hv], hfs, ?_, ?_, ?_, hx, hf, hhit⟩
    · have hkept := List.forall₂_take es.length hequals
      rwa [take_afterAdd] at hkept
    · rw [callArray_find hfs hv]
    · rw [callArray_find hfs hv, hx, hk]
      rfl

end AddFound

/-- **When a value that has been added is found**: where the text is one of a value, and
the search, which counts with an `int`, gets to an equal element – of the array, for a
value that is no boolean, or of the array with the value at its end. -/
theorem add_found_iff {J : Jansson} (hJ : J.Lawful) (hstrict : J.Strict) {doc : Text}
    {es : List Json} (hdoc : HoldsArray J doc es) (v : Text) :
    AddIsFound J doc v es ↔ v = "null".toList
      ∨ ∃ x, decodeVal J v = some x
        ∧ (x.isBoolean = false ∧ (∃ e ∈ searched es, e.equal x = true)
          ∨ ∃ e ∈ searched (es ++ [x]), e.equal x = true) := by
  rw [addIsFound_iff hJ hstrict hdoc]
  refine or_congr_right (exists_congr fun x => and_congr_right fun _ => ?_)
  exact found_afterAdd_iff

/-- A text that is in the array, and a boolean that is not. -/
theorem add_found_sample :
    AddIsFound JsonText.codec (JsonText.codec.text 0 (.array [.null, .string "a".toList]))
        "a".toList [.null, .string "a".toList]
      ∧ AddIsFound JsonText.codec (JsonText.codec.text 0 (.array [.null, .string "a".toList]))
        "true".toList [.null, .string "a".toList] := by
  have hdoc : HoldsArray JsonText.codec
      (JsonText.codec.text 0 (.array [.null, .string "a".toList])) [.null, .string "a".toList] :=
    Sample.holdsArray_codec
      (List.forall_mem_cons.mpr ⟨.null, List.forall_mem_singleton.mpr (.string _)⟩)
  constructor
  · refine (add_found_iff JsonText.codec_lawful JsonText.codec_strict hdoc _).mpr
      (.inr ⟨.string "a".toList, rfl, .inl ⟨rfl, .string "a".toList, ?_, rfl⟩⟩)
    exact List.mem_cons_of_mem _ List.mem_cons_self
  · refine (add_found_iff JsonText.codec_lawful JsonText.codec_strict hdoc _).mpr
      (.inr ⟨.bool true, rfl, .inr ⟨.bool true, ?_, rfl⟩⟩)
    exact List.mem_cons_of_mem _ (List.mem_cons_of_mem _ List.mem_cons_self)

/-- **A value that is reported as added and is not there**: a byte that is no UTF-8. The
call returns 0 and the size, and writes the array as it was. -/
theorem refused_value_added :
    (callArray JsonText.codec [] ['\xff'] "add".toList 0)
        = ⟨.num 0, some "[]".toList, none, some 0⟩
      ∧ (callArray JsonText.codec "[]".toList ['\xff'] "find".toList 0).sizeOrIndex = some (-1)
      ∧ ¬ AddIsFound JsonText.codec [] ['\xff'] [] := by
  have hdecode : decodeVal JsonText.codec ['\xff'] = none := by
    have hloads : JsonText.codec.loads ['\xff'] = none := by
      show JsonText.loads ['\xff'] = none
      rw [JsonText.loads, JsonText.readValue, show JsonText.skip ['\xff'] = ['\xff'] by decide]
      rfl
    unfold decodeVal
    rw [if_neg (by decide), if_neg (by decide), if_neg (by decide), hloads]
    rfl
  have hdoc : HoldsArray JsonText.codec [] [] := ManyElems.holdsArray_doc 0
  have hdoc' : HoldsArray JsonText.codec "[]".toList [] :=
    Sample.holdsArray_codec (List.forall_mem_nil _)
  refine ⟨?_, ?_, fun h => ?_⟩
  · rw [callArray_add hdoc (by decide), hdecode]
    rfl
  · rw [callArray_find hdoc' (by decide), hdecode]
    rfl
  · obtain hnull | ⟨x, hx, -⟩ :=
      (addIsFound_iff JsonText.codec_lawful JsonText.codec_strict hdoc).mp h
    · exact absurd hnull (by decide)
    · cases hdecode.symm.trans hx

/-! ## Removing what has been added -/

/-- **A value is added to a document and removed again**: the elements between and
afterwards, and the number `rm` returns. -/
def AddThenRm (J : Jansson) (doc v : Text) (fs gs : List Json) (size : ℤ) : Prop :=
  ∃ new new' size', (∀ inIdx, callArray J doc v "add".toList inIdx
      = ⟨.num 0, some new, none, some size'⟩) ∧ HoldsArray J new fs
    ∧ (∀ inIdx, callArray J new v "rm".toList inIdx = ⟨.num 0, some new', none, some size⟩)
    ∧ HoldsArray J new' gs

/-- The same elements, of which only booleans have changed their places. -/
def PermutesBooleans (es gs : List Json) : Prop :=
  ∃ hs : List Json, hs.Perm es ∧ EqualElems hs gs
    ∧ hs.filter (fun e => !e.isBoolean) = es.filter (fun e => !e.isBoolean)

section AddThenRm

variable {J : Jansson} {doc v : Text} {es : List Json} {jval : Option Json} {x : Json}

/-- A value that is in the array already, and is no boolean, is not added. -/
theorem afterAdd_of_found (hbool : isBooleanVal jval = false) (h : found es jval ≠ none) :
    afterAdd es jval = es :=
  if_neg (not_or.mpr ⟨by rw [hbool]; exact Bool.false_ne_true, h⟩)

/-- The search ends at a value that has been added, at the latest. -/
theorem found_concat (hx : x.Valid) (hlen : es.length + 1 < 2 ^ 31) :
    ∃ k ≤ es.length, found (es ++ [x]) (some x) = some k := by
  obtain ⟨k, hk⟩ : ∃ k, found (es ++ [x]) (some x) = some k := by
    refine Option.ne_none_iff_exists'.mp (found_ne_none_iff.mpr ⟨x, ?_, Json.equal_refl hx⟩)
    rw [searched_of_lt (by rwa [List.length_append])]
    exact List.mem_append_right _ (List.mem_singleton_self x)
  refine ⟨k, ?_, hk⟩
  have hlt := found_lt hk
  rw [List.length_append] at hlt
  exact Nat.le_of_lt_succ hlt

/-- **What was not there is removed again.** -/
theorem afterRm_afterAdd_of_new (hjval : ∀ x, jval = some x → x.Valid)
    (hnew : ∀ e ∈ es, equalVal jval e = false) (hlen : es.length + 1 < 2 ^ 31) :
    afterRm (afterAdd es jval) jval = es := by
  have hnone : found es jval = none :=
    found_eq_none_iff.mpr (fun e he => hnew e (mem_of_mem_searched he))
  cases jval with
  | none =>
    have hadd : afterAdd es none = es := by
      unfold afterAdd
      rw [show Json.appendNew es none = es from List.append_nil es, ite_self]
    rw [hadd, afterRm, hnone]
  | some x =>
    obtain ⟨k, hk, hfound⟩ := found_concat (hjval x rfl) hlen
    rw [show afterAdd es (some x) = es ++ [x] from if_pos (.inr hnone), afterRm, hfound]
    -- no element before the last one is equal to the value
    have hlast : k = es.length := by
      refine hk.lt_or_eq.resolve_left (fun hlt => ?_)
      obtain ⟨-, ⟨e, he, hhit⟩, -⟩ := found_eq_some_iff.mp hfound
      rw [List.getElem?_append_left hlt] at he
      exact absurd (hhit.symm.trans (hnew e (List.mem_of_getElem? he))) (by simp)
    rw [hlast]
    dsimp only
    rw [List.eraseIdx_append_of_length_le le_rfl, Nat.sub_self]
    exact List.append_nil es

theorem eq_of_equal_boolean {a b : Json} (h : a.equal b = true) (hb : b.isBoolean = true) :
    a = b := by
  cases b with
  | bool b =>
    cases a with
    | bool a => exact congrArg Json.bool (beq_iff_eq.mp h)
    | _ => exact nomatch h
  | _ => exact nomatch hb

/-- Taking out an element that is not counted changes nothing of the others. -/
theorem filter_eraseIdx {p : Json → Bool} {i : ℕ} {e : Json} (hi : es[i]? = some e)
    (hp : p e = false) : (es.eraseIdx i).filter p = es.filter p := by
  obtain ⟨hlt, rfl⟩ := List.getElem?_eq_some_iff.mp hi
  conv_rhs => rw [← List.take_append_drop i es, List.drop_eq_getElem_cons hlt]
  rw [List.eraseIdx_eq_take_drop_succ, List.filter_append, List.filter_append, List.filter_cons,
    if_neg (by rw [hp]; exact Bool.false_ne_true)]

/-- **A boolean takes the place of the first one like it**, at the end. -/
theorem afterRm_afterAdd_of_boolean (hx : x.Valid) (hbool : x.isBoolean = true)
    (hlen : es.length + 1 < 2 ^ 31) :
    (afterRm (afterAdd es (some x)) (some x)).Perm es
      ∧ (afterRm (afterAdd es (some x)) (some x)).filter (fun e => !e.isBoolean)
        = es.filter (fun e => !e.isBoolean) := by
  obtain ⟨k, hk, hfound⟩ := found_concat hx hlen
  rw [show afterAdd es (some x) = es ++ [x] from if_pos (.inl hbool), afterRm, hfound]
  dsimp only
  obtain ⟨-, ⟨e, he, hhit⟩, -⟩ := found_eq_some_iff.mp hfound
  obtain rfl : e = x := eq_of_equal_boolean hhit hbool
  have hfilter : ([e] : List Json).filter (fun e => !e.isBoolean) = [] := by simp [hbool]
  rcases hk.lt_or_eq with hlt | rfl
  · rw [List.getElem?_append_left hlt] at he
    rw [List.eraseIdx_append_of_lt_length hlt, List.filter_append, hfilter, List.append_nil]
    obtain ⟨_, rfl⟩ := List.getElem?_eq_some_iff.mp he
    exact ⟨(List.perm_append_singleton _ _).trans (List.getElem_cons_eraseIdx_perm hlt),
      filter_eraseIdx he (by rw [hbool]; rfl)⟩
  · rw [List.eraseIdx_append_of_length_le le_rfl, Nat.sub_self, show [e].eraseIdx 0 = [] from rfl,
      List.append_nil]
    exact ⟨.refl _, rfl⟩

/-- The two calls, where the text is not `null`. -/
theorem addThenRm (hJ : J.Lawful) (hstrict : J.Strict) (hdoc : HoldsArray J doc es)
    (hv : v ≠ "null".toList) : ∃ fs gs,
      AddThenRm J doc v fs gs
        (intOfSize (afterRm (afterAdd es (decodeVal J v)) (decodeVal J v)).length)
      ∧ EqualElems (afterAdd es (decodeVal J v)) fs
      ∧ EqualElems (afterRm (afterAdd es (decodeVal J v)) (decodeVal J v)) gs := by
  have hvalid : ∀ e ∈ afterAdd es (decodeVal J v), e.Valid :=
    valid_afterAdd (hdoc.valid hJ) (fun x hx => (decodeVal_spec hJ hv hx).1)
  obtain ⟨fs, hfs, hequals⟩ := holdsArray_text hJ hstrict hvalid
  have hrm := afterRm_equal (decodeVal J v) hequals hvalid (hfs.valid hJ)
  obtain ⟨gs, hgs, hequals'⟩ := holdsArray_text hJ hstrict
    (valid_afterRm (decodeVal J v) (hfs.valid hJ))
  refine ⟨fs, gs, ⟨_, _, _, fun _ => callArray_add hdoc hv, hfs, fun _ => ?_, hgs⟩, hequals,
    hrm.trans hequals'⟩
  rw [callArray_rm hfs hv, hrm.length_eq]

end AddThenRm

/-- **Removing undoes adding**, in an array whose size stays an `int`: what was not there
is removed again, a boolean has changed its place at most, and a value that was there is
not added and then removed where it stands first. -/
theorem rm_after_add {J : Jansson} (hJ : J.Lawful) (hstrict : J.Strict) {doc v : Text}
    {es : List Json} (hdoc : HoldsArray J doc es) (hv : v ≠ "null".toList) :
    ∃ fs gs size, AddThenRm J doc v fs gs size
      ∧ ((∀ e ∈ es, equalVal (decodeVal J v) e = false) → es.length + 1 < 2 ^ 31 →
        EqualElems es gs ∧ size = es.length)
      ∧ (isBooleanVal (decodeVal J v) = true → es.length + 1 < 2 ^ 31 → PermutesBooleans es gs)
      ∧ (isBooleanVal (decodeVal J v) = false → (∃ e ∈ es, equalVal (decodeVal J v) e = true) →
        es.length < 2 ^ 31 → EqualElems es fs
          ∧ ∃ k : ℕ, FindsLeast (es.map (equalVal (decodeVal J v))) k
            ∧ EqualElems (es.eraseIdx k) gs) := by
  have hjval : ∀ x, decodeVal J v = some x → x.Valid := fun x hx => (decodeVal_spec hJ hv hx).1
  obtain ⟨fs, gs, hcalls, hfs, hgs⟩ := addThenRm hJ hstrict hdoc hv
  refine ⟨fs, gs, _, hcalls, fun hnew hlen => ?_, fun hbool hlen => ?_,
    fun hbool hthere hlen => ?_⟩
  · rw [afterRm_afterAdd_of_new hjval hnew hlen] at hgs ⊢
    exact ⟨hgs, intOfSize_of_lt (by omega)⟩
  · cases hx : decodeVal J v with
    | none =>
      rw [hx] at hbool
      exact nomatch hbool
    | some x =>
      rw [hx] at hgs hbool
      obtain ⟨hperm, hfilter⟩ := afterRm_afterAdd_of_boolean (hjval x hx) hbool hlen
      exact ⟨_, hperm, hgs, hfilter⟩
  · have hne : found es (decodeVal J v) ≠ none := by
      refine found_ne_none_iff.mpr ?_
      rwa [searched_of_lt hlen]
    obtain ⟨k, hk⟩ := Option.ne_none_iff_exists'.mp hne
    rw [afterAdd_of_found hbool hne] at hfs hgs
    rw [afterRm, hk] at hgs
    exact ⟨hfs, k, findsLeast_of_found hk, hgs⟩

/-- A second `true`. -/
theorem rm_after_add_sample :
    ∃ fs gs size, AddThenRm JsonText.codec
        (JsonText.codec.text 0 (.array [.bool true, .string "a".toList])) "true".toList fs gs size
      ∧ ((∀ e ∈ [Json.bool true, .string "a".toList],
          equalVal (decodeVal JsonText.codec "true".toList) e = false) → 2 + 1 < 2 ^ 31 →
        EqualElems [.bool true, .string "a".toList] gs ∧ size = 2)
      ∧ (isBooleanVal (decodeVal JsonText.codec "true".toList) = true → 2 + 1 < 2 ^ 31 →
        PermutesBooleans [.bool true, .string "a".toList] gs)
      ∧ (isBooleanVal (decodeVal JsonText.codec "true".toList) = false →
        (∃ e ∈ [Json.bool true, .string "a".toList],
          equalVal (decodeVal JsonText.codec "true".toList) e = true) → 2 < 2 ^ 31 →
        EqualElems [.bool true, .string "a".toList] fs
          ∧ ∃ k : ℕ, FindsLeast ([Json.bool true, .string "a".toList].map
              (equalVal (decodeVal JsonText.codec "true".toList))) k
            ∧ EqualElems ([Json.bool true, .string "a".toList].eraseIdx k) gs) :=
  rm_after_add JsonText.codec_lawful JsonText.codec_strict
    (Sample.holdsArray_codec (List.forall_mem_cons.mpr
      ⟨.bool _, List.forall_mem_singleton.mpr (.string _)⟩)) (by decide)

/-- **The element number `2^31` is not removed**: `rm` counts no element of an array of
that size. -/
theorem add_not_removed :
    ¬ ∀ (J : Jansson) (doc v : Text) (es : List Json), J.Lawful → J.Strict →
      HoldsArray J doc es → v ≠ "null".toList →
      ∃ fs gs size, AddThenRm J doc v fs gs size
        ∧ ((∀ e ∈ es, equalVal (decodeVal J v) e = false) →
          EqualElems es gs ∧ size = es.length)
        ∧ (isBooleanVal (decodeVal J v) = true → PermutesBooleans es gs)
        ∧ (isBooleanVal (decodeVal J v) = false → (∃ e ∈ es, equalVal (decodeVal J v) e = true) →
          EqualElems es fs ∧ ∃ k : ℕ, FindsLeast (es.map (equalVal (decodeVal J v))) k
            ∧ EqualElems (es.eraseIdx k) gs) := by
  intro h
  obtain ⟨n, hn⟩ : ∃ n, n + 1 = 2 ^ 31 := ⟨2 ^ 31 - 1, rfl⟩
  have hv : JsonText.codec.text 0 (.array [.integer n]) ≠ "null".toList :=
    ManyElems.ne_of_bracket (by decide)
  obtain ⟨fs, gs, size, ⟨new, new', size', hadd, hfs, hrm, hgs⟩, hnew, -, -⟩ :=
    h JsonText.codec (ManyElems.doc n) _ (ManyElems.elems n)
      JsonText.codec_lawful JsonText.codec_strict (ManyElems.holdsArray_doc _) hv
  have hon := ManyElems.add_on (n := n) (by omega)
  obtain rfl := Option.some.inj (congrArg ArrayopsResult.jsonStr ((hadd 0).symm.trans hon))
  have hdoc := ManyElems.holdsArray_doc (n + 1)
  -- nothing is found, so the document is written as it is
  have hsame : afterRm (ManyElems.elems (n + 1))
      (decodeVal JsonText.codec (JsonText.codec.text 0 (.array [.integer n])))
      = ManyElems.elems (n + 1) := by
    unfold afterRm
    rw [hn, ManyElems.found_none]
  have hrm' := (hrm 0).symm.trans (callArray_rm hdoc hv)
  rw [hsame] at hrm'
  obtain rfl := Option.some.inj (congrArg ArrayopsResult.jsonStr hrm')
  obtain rfl := Json.array.inj (Option.some.inj (hgs.loads.symm.trans
    (Sample.holdsArray_codec (ManyElems.elems_valid _).elems).loads))
  have hequals := (hnew (by
    rw [ManyElems.decodeVal_add]
    exact ManyElems.not_equal_add _)).1.length_eq
  rw [ManyElems.length_elems, Json.elems, ManyElems.length_elems] at hequals
  omega

/-! ## Calls that fail, and calls that read -/

/-- **What makes a call fail**: a parameter that holds no text, a document that is neither
empty nor an array, and a position for `get` that is none of the array, as the unsigned
number it becomes. -/
def Refused (J : Jansson) (jsonStr val ops : MsParam) (inIdx : ℤ) : Prop :=
  jsonStr.parseMspForStr = none ∨ val.parseMspForStr = none ∨ ops.parseMspForStr = none
    ∨ ∃ doc, jsonStr.parseMspForStr = some doc
      ∧ ((doc ≠ [] ∧ ∀ es, J.loads doc ≠ some (.array es))
        ∨ ops.parseMspForStr = some "get".toList
          ∧ ∃ es, HoldsArray J doc es ∧ es.length ≤ sizeOfInt inIdx)

section Refused

variable {J : Jansson} {ops : Text} {inIdx : ℤ} {es : List Json} {jval : Option Json}

/-- Only getting an element that is not there fails. -/
theorem applyOp_eq_none_iff (J : Jansson) (jval : Option Json) :
    applyOp J ops inIdx es jval = none
      ↔ ops = "get".toList ∧ es.length ≤ sizeOfInt inIdx := by
  by_cases hget : ops = "get".toList
  · subst hget
    rw [and_iff_right rfl, ← List.getElem?_eq_none_iff]
    unfold applyOp
    dsimp only
    rw [if_neg (by decide), if_neg (by decide), if_neg (by decide), if_pos rfl]
    cases es[sizeOfInt inIdx]? with
    | none => exact iff_of_true rfl rfl
    | some e =>
      refine iff_of_false (fun h => ?_) (fun h => nomatch h)
      cases e <;> exact nomatch h
  · refine iff_of_false (fun h => ?_) (fun h => hget h.1)
    unfold applyOp at h
    dsimp only at h
    split at h
    · split at h <;> exact nomatch h
    · split at h
      · split at h
        · split at h <;> exact nomatch h
        · split at h <;> exact nomatch h
      · split at h <;> exact nomatch h

/-- **An operation that neither adds nor removes leaves the elements.** -/
theorem applyOp_reads (hadd : ops ≠ "add".toList) (hrm : ops ≠ "rm".toList) {r : OpResult}
    (h : applyOp J ops inIdx es jval = some r) : r.elems = es := by
  unfold applyOp at h
  dsimp only at h
  rw [if_neg hadd, if_neg hrm] at h
  split at h
  · split at h
    · exact Option.some.inj h ▸ rfl
    · split at h <;> exact Option.some.inj h ▸ rfl
  · split at h
    · exact Option.some.inj h ▸ rfl
    · split at h
      · split at h
        · exact nomatch h
        · exact Option.some.inj h ▸ rfl
        · exact Option.some.inj h ▸ rfl
      · exact Option.some.inj h ▸ rfl

/-- What is read from a document parameter: a document, or nothing. -/
theorem holdsArray_or (hJ : J.Lawful) {jsonStr : MsParam} {doc : Text}
    (hdoc : jsonStr.parseMspForStr = some doc) :
    (∃ es, HoldsArray J doc es) ∨ (doc ≠ [] ∧ ∀ es, J.loads doc ≠ some (.array es)) := by
  have hnull : doc ≠ "null".toList := by
    rintro rfl
    exact MsParam.parse_ne_null hdoc
  by_cases hempty : doc = []
  · exact .inl ⟨[], hnull, by rw [if_pos hempty]; exact hJ.loads_array⟩
  · by_cases hes : ∃ es, J.loads doc = some (.array es)
    · obtain ⟨es, hes⟩ := hes
      exact .inl ⟨es, hnull, by rwa [if_neg hempty]⟩
    · exact .inr ⟨hempty, fun es h => hes ⟨es, h⟩⟩

/-- A call without a text for each parameter, or without a document, is refused. -/
theorem msiJsonArrayops_refused {jsonStr val ops : MsParam}
    (h : jsonStr.parseMspForStr = none ∨ val.parseMspForStr = none ∨ ops.parseMspForStr = none
      ∨ ∃ doc, jsonStr.parseMspForStr = some doc
        ∧ doc ≠ [] ∧ ∀ es, J.loads doc ≠ some (.array es)) :
    msiJsonArrayops J jsonStr val ops inIdx = ⟨.named .sysInvalidInputParam, none, none, none⟩ := by
  unfold msiJsonArrayops
  dsimp only
  split
  · rename_i doc o v hdoc hops hval
    rw [hdoc, hops, hval] at h
    obtain h | h | h | ⟨doc', hdoc', hempty, hloads⟩ := h
    · exact nomatch h
    · exact nomatch h
    · exact nomatch h
    · obtain rfl := Option.some.inj hdoc'
      rw [if_neg hempty]
      split
      · rename_i es hes
        exact absurd hes (hloads es)
      · rfl
  · rfl

end Refused

/-- **Which calls fail, and what they leave**: nothing is stored. A call that does not
fail, and neither adds nor removes, writes a document that is equal to the one it has
read. -/
theorem arrayops_refuses_iff {J : Jansson} (hJ : J.Lawful) (jsonStr val ops : MsParam) (inIdx : ℤ) :
    ((msiJsonArrayops J jsonStr val ops inIdx).status ≠ .num 0 ↔ Refused J jsonStr val ops inIdx)
      ∧ ((msiJsonArrayops J jsonStr val ops inIdx).status ≠ .num 0 →
        msiJsonArrayops J jsonStr val ops inIdx
          = ⟨(msiJsonArrayops J jsonStr val ops inIdx).status, none, none, none⟩)
      ∧ ((msiJsonArrayops J jsonStr val ops inIdx).status = .num 0 →
        ops.parseMspForStr ≠ some "add".toList → ops.parseMspForStr ≠ some "rm".toList →
        ∃ doc es new w, jsonStr.parseMspForStr = some doc ∧ HoldsArray J doc es
          ∧ (msiJsonArrayops J jsonStr val ops inIdx).jsonStr = some new
          ∧ J.loads new = some w ∧ (Json.array es).equal w = true) := by
  by_cases hbad : jsonStr.parseMspForStr = none ∨ val.parseMspForStr = none
      ∨ ops.parseMspForStr = none ∨ ∃ doc, jsonStr.parseMspForStr = some doc
        ∧ doc ≠ [] ∧ ∀ es, J.loads doc ≠ some (.array es)
  · rw [msiJsonArrayops_refused hbad]
    refine ⟨iff_of_true (by simp) ?_, fun _ => rfl, fun h => nomatch h⟩
    exact hbad.imp_right (Or.imp_right (Or.imp_right fun ⟨doc, hdoc, h⟩ => ⟨doc, hdoc, .inl h⟩))
  · obtain ⟨hjson, hval, hops, hnone⟩ : jsonStr.parseMspForStr ≠ none ∧ val.parseMspForStr ≠ none
        ∧ ops.parseMspForStr ≠ none ∧ ¬ ∃ doc, jsonStr.parseMspForStr = some doc
          ∧ doc ≠ [] ∧ ∀ es, J.loads doc ≠ some (.array es) := by
      simpa only [not_or, ne_eq] using hbad
    obtain ⟨doc, hdoc⟩ := Option.ne_none_iff_exists'.mp hjson
    obtain ⟨v, hv⟩ := Option.ne_none_iff_exists'.mp hval
    obtain ⟨o, ho⟩ := Option.ne_none_iff_exists'.mp hops
    obtain ⟨es, hes⟩ := (holdsArray_or hJ hdoc).resolve_right (fun h => hnone ⟨doc, hdoc, h⟩)
    have hcall := msiJsonArrayops_eq inIdx hdoc hes ho hv
    have hrefused : Refused J jsonStr val ops inIdx
        ↔ o = "get".toList ∧ es.length ≤ sizeOfInt inIdx := by
      constructor
      · rintro (h | h | h | ⟨doc', hdoc', h | ⟨hget, es', hes', hle⟩⟩)
        · exact absurd h hjson
        · exact absurd h hval
        · exact absurd h hops
        · exact absurd ⟨doc', hdoc', h⟩ hnone
        · obtain rfl := Option.some.inj (hdoc.symm.trans hdoc')
          obtain rfl := Json.array.inj (Option.some.inj (hes.loads.symm.trans hes'.loads))
          exact ⟨Option.some.inj (ho.symm.trans hget), hle⟩
      · rintro ⟨rfl, hle⟩
        exact .inr (.inr (.inr ⟨doc, hdoc, .inr ⟨ho, es, hes, hle⟩⟩))
    rw [hrefused, ← applyOp_eq_none_iff J (decodeVal J v), hcall]
    cases hop : applyOp J o inIdx es (decodeVal J v) with
    | none => exact ⟨iff_of_true (by simp) rfl, fun _ => rfl, fun h => nomatch h⟩
    | some r =>
      refine ⟨iff_of_false (fun h => h rfl) (fun h => nomatch h), fun h => absurd rfl h,
        fun _ hadd hrm => ?_⟩
      rw [ho, ne_eq, Option.some_inj] at hadd hrm
      obtain ⟨w, hw, hequal⟩ := hJ.loads_text 0 (.array (hes.valid hJ)) rfl
      refine ⟨doc, es, _, w, hdoc, hes, rfl, ?_, hequal⟩
      rwa [applyOp_reads hadd hrm hop]

/-- Getting the element at a negative position. -/
theorem arrayops_refuses_sample :
    let r := msiJsonArrayops JsonText.codec (.ofText "[]".toList) (.ofText []) (.ofText "get".toList)
      (-1)
    (r.status ≠ .num 0 ↔ Refused JsonText.codec (.ofText "[]".toList) (.ofText [])
        (.ofText "get".toList) (-1))
      ∧ (r.status ≠ .num 0 → r = ⟨r.status, none, none, none⟩)
      ∧ (r.status = .num 0 →
        (MsParam.ofText "get".toList).parseMspForStr ≠ some "add".toList →
        (MsParam.ofText "get".toList).parseMspForStr ≠ some "rm".toList →
        ∃ doc es new w, (MsParam.ofText "[]".toList).parseMspForStr = some doc
          ∧ HoldsArray JsonText.codec doc es ∧ r.jsonStr = some new
          ∧ JsonText.codec.loads new = some w ∧ (Json.array es).equal w = true) :=
  arrayops_refuses_iff JsonText.codec_lawful _ _ _ _
