import IrodsMicroservices.Json

/-!
# The jansson library

What the services use of jansson beyond its values: making a string, reading a
document, writing one. The library is not part of the repository, so it is a
parameter (`Jansson`), and what the services rely on is stated once, as the
laws of that parameter (`Jansson.Lawful`).

`json_loads` is called without flags, which makes it accept nothing but an
array or an object. `json_dumps` without `JSON_ENCODE_ANY` returns NULL for
anything else.
-/

/-- **The jansson library.** -/
structure Jansson where
  /-- Whether the bytes are valid UTF-8. -/
  utf8 : Text → Bool
  /-- `json_loads(t, 0, &error)`. -/
  loads : Text → Option Json
  /-- The text of a value, indented by `indent` columns per level. -/
  text : ℕ → Json → Text

namespace Jansson

variable (J : Jansson)

/-- `json_string`: NULL for bytes that are not UTF-8. -/
def string (s : Text) : Option Json := if J.utf8 s then some (Json.string s) else none

/-- `json_dumps(v, 0)`, and `json_dumps(v, JSON_INDENT(indent))`. -/
def dumps (indent : ℕ) (v : Json) : Option Text :=
  if v.isContainer then some (J.text indent v) else none

/-- `json_dumps(v, JSON_ENCODE_ANY)`. -/
def dumpsAny (v : Json) : Text := J.text 0 v

/-- **What the services rely on.** -/
structure Lawful : Prop where
  /-- ASCII is UTF-8. -/
  utf8_ascii : ∀ s : Text, s.all (fun c => c.toNat < 128) = true → J.utf8 s = true
  /-- The empty array is read as such. -/
  loads_array : J.loads "[]".toList = some (Json.array [])
  /-- The empty object is read as such. -/
  loads_object : J.loads "{}".toList = some (Json.object [])
  /-- Only an array or an object is accepted. -/
  loads_container : ∀ {t v}, J.loads t = some v → v.isContainer = true
  /-- No key occurs twice in a value that has been read. -/
  loads_valid : ∀ {t v}, J.loads t = some v → v.Valid
  /-- Reading undoes writing, up to `json_equal`. -/
  loads_text : ∀ (indent : ℕ) {v : Json}, v.Valid → v.isContainer = true →
    ∃ w, J.loads (J.text indent v) = some w ∧ v.equal w = true
  /-- A NUL is written as an escape. -/
  text_nul : ∀ (indent : ℕ) (v : Json), '\x00' ∉ J.text indent v

/-- **A text that holds neither an array nor an object is refused**: nothing at all, and
a keyword. -/
structure Strict : Prop where
  loads_empty : J.loads [] = none
  loads_null : J.loads "null".toList = none

/-- **The keywords**: how they are written without a document around them, and that the
text of a boolean holds none. -/
structure Keywords : Prop where
  text_null : J.text 0 .null = "null".toList
  text_true : J.text 0 (.bool true) = "true".toList
  text_false : J.text 0 (.bool false) = "false".toList
  loads_true : J.loads "true".toList = none
  loads_false : J.loads "false".toList = none

variable {J}

/-- A string jansson makes holds the bytes it was made from. -/
theorem string_eq_some {s : Text} {v : Json} (h : J.string s = some v) :
    v = Json.string s := by
  unfold string at h
  split at h
  · exact (Option.some.inj h).symm
  · exact absurd h (by simp)

/-- What is written of a document is a text that is read as one. -/
theorem Strict.text_ne (hJ : J.Lawful) (hstrict : J.Strict) (indent : ℕ) {v : Json}
    (hv : v.Valid) (hc : v.isContainer = true) :
    J.text indent v ≠ [] ∧ J.text indent v ≠ "null".toList := by
  obtain ⟨w, hw, -⟩ := hJ.loads_text indent hv hc
  constructor
  · intro h
    rw [h, hstrict.loads_empty] at hw
    exact nomatch hw
  · intro h
    rw [h, hstrict.loads_null] at hw
    exact nomatch hw

theorem string_of_utf8 {s : Text} (h : J.utf8 s = true) :
    J.string s = some (Json.string s) := if_pos h

end Jansson
