import IrodsMicroservices.JsonString
import IrodsMicroservices.JsonText

/-!
# The payload of a PID

`msiRegisterEpicPID` puts a value into a JSON text it has written out otherwise, and
`escapeJson` is there to keep the value within its quotes. It writes to a stream, whose base
and fill character stay as they have been set, and whose width does not: it is back at zero
after each output (`escapeChar_spec`). What has been written is therefore the escaped form
of each byte by itself, and a scan of it gives the bytes back (`escapeJson_unbroken`).
-/

open JsonString

/-! ## The stream -/

/-- **An output stream to a string**, with what can be set of its format. -/
structure OStringStream where
  /-- What has been written. -/
  str : Text
  /-- Integers are written in base 16. -/
  hex : Bool
  /-- The width of the next output. -/
  width : ℕ
  /-- What an output is filled up with. -/
  fill : Char

namespace OStringStream

/-- A new stream. -/
def init : OStringStream := ⟨[], false, 0, ' '⟩

/-- `o << t`, for a text or a character. -/
def put (o : OStringStream) (t : Text) : OStringStream :=
  { o with str := o.str ++ (List.replicate (o.width - t.length) o.fill ++ t), width := 0 }

/-- `o << std::hex`. -/
def setHex (o : OStringStream) : OStringStream := { o with hex := true }

/-- `o << std::setw(n)`. -/
def setw (o : OStringStream) (n : ℕ) : OStringStream := { o with width := n }

/-- `o << std::setfill(c)`. -/
def setfill (o : OStringStream) (c : Char) : OStringStream := { o with fill := c }

/-- `o << n`, for an `int`: in base 16 it is an unsigned number that is written. -/
def putInt (o : OStringStream) (n : ℤ) : OStringStream :=
  o.put (if o.hex then Nat.toDigits 16 (BitVec.ofInt 32 n).toNat else JsonText.intText n)

/-- Without a width a text is written as it is. -/
theorem put_str {o : OStringStream} (h : o.width = 0) (t : Text) :
    (o.put t).str = o.str ++ t := by
  show o.str ++ (List.replicate (o.width - t.length) o.fill ++ t) = _
  rw [h, Nat.zero_sub, List.replicate_zero, List.nil_append]

end OStringStream

/-! ## Escaping -/

/-- The value of a `char`, which is signed. -/
def signedChar (c : Char) : ℤ := (BitVec.ofNat 8 c.toNat).toInt

/-- The cases of the switch in `escapeJson`, and what each of them writes. -/
def switchCases : List (Char × Text) :=
  [('"', ['\\', '"']), ('\\', ['\\', '\\']), ('\x08', ['\\', 'b']), ('\x0c', ['\\', 'f']),
    ('\n', ['\\', 'n']), ('\r', ['\\', 'r']), ('\t', ['\\', 't'])]

/-- One character of `escapeJson`. -/
def escapeChar (o : OStringStream) (c : Char) : OStringStream :=
  match switchCases.find? (fun e => e.1 = c) with
  | some e => o.put e.2
  | none =>
    if 0 ≤ signedChar c ∧ signedChar c ≤ 0x1f then
      ((((o.put ['\\', 'u']).setHex).setw 4).setfill '0').putInt (signedChar c)
    else o.put [c]

/-- **`escapeJson`.** -/
def escapeJson (s : Text) : Text := (s.foldl escapeChar .init).str

/-- The payload of the request: the value in quotes, in a text that is written out. -/
def payload (value handlePrefix : Text) : Text :=
  "\x7b\"values\":[\x7b\"index\":1,\"type\":\"URL\",\"data\":\x7b\"format\":\"string\",\"value\":\"".toList
    ++ escapeJson value
    ++ "\"\x7d\x7d,\x7b\"index\":100,\"type\":\"HS_ADMIN\",\"data\":\x7b\"format\":\"admin\",\"value\":\x7b\"handle\":\"0.NA/".toList
    ++ handlePrefix ++ "\",\"index\":200,\"permissions\":\"011111110011\"\x7d\x7d\x7d]\x7d".toList

/-! ## What is written for a byte -/

/-- The escaped form of a byte. -/
def escaped (c : Char) : Text :=
  match switchCases.find? (fun e => e.1 = c) with
  | some e => e.2
  | none =>
    if c.toNat < 0x20 then
      ['\\', 'u', '0', '0', Nat.digitChar (c.toNat / 16), Nat.digitChar (c.toNat % 16)]
    else [c]

/-- The sign keeps the bytes from `0x80` up out of the control characters. -/
theorem signedChar_control_iff {c : Char} (hc : c.toNat < 256) :
    0 ≤ signedChar c ∧ signedChar c ≤ 0x1f ↔ c.toNat < 0x20 := by
  unfold signedChar
  rw [BitVec.toInt_eq_toNat_cond, BitVec.toNat_ofNat, Nat.mod_eq_of_lt hc]
  split <;> omega

theorem signedChar_of_control {c : Char} (hc : c.toNat < 0x20) : signedChar c = c.toNat := by
  unfold signedChar
  rw [BitVec.toInt_eq_toNat_cond, BitVec.toNat_ofNat, Nat.mod_eq_of_lt (by omega)]
  exact if_pos (by omega)

/-- The four digits of a control character. -/
theorem control_digits : ∀ n : ℕ, n < 0x20 →
    List.replicate (4 - (Nat.toDigits 16 (BitVec.ofInt 32 n).toNat).length) '0'
        ++ Nat.toDigits 16 (BitVec.ofInt 32 n).toNat
      = ['0', '0', Nat.digitChar (n / 16), Nat.digitChar (n % 16)] := by
  decide

/-- **What one byte leaves in the stream**: its escaped form, and no width. -/
theorem escapeChar_spec {o : OStringStream} (ho : o.width = 0) {c : Char} (hc : c.toNat < 256) :
    (escapeChar o c).str = o.str ++ escaped c ∧ (escapeChar o c).width = 0 := by
  unfold escapeChar escaped
  cases switchCases.find? (fun e => e.1 = c) with
  | some e => exact ⟨OStringStream.put_str ho e.2, rfl⟩
  | none =>
    dsimp only
    by_cases hcontrol : c.toNat < 0x20
    · rw [if_pos ((signedChar_control_iff hc).mpr hcontrol), if_pos hcontrol,
        signedChar_of_control hcontrol]
      refine ⟨?_, rfl⟩
      show (o.put ['\\', 'u']).str ++ (List.replicate (4 - (Nat.toDigits 16
        (BitVec.ofInt 32 c.toNat).toNat).length) '0' ++ Nat.toDigits 16
        (BitVec.ofInt 32 c.toNat).toNat) = _
      rw [control_digits _ hcontrol, OStringStream.put_str ho, List.append_assoc]
      rfl
    · rw [if_neg ((signedChar_control_iff hc).not.mpr hcontrol), if_neg hcontrol]
      exact ⟨OStringStream.put_str ho [c], rfl⟩

theorem escapeJson_eq {s : Text} (hs : ∀ c ∈ s, c.toNat < 256) :
    escapeJson s = s.flatMap escaped := by
  have hrun : ∀ {s : Text} {o : OStringStream}, (∀ c ∈ s, c.toNat < 256) → o.width = 0 →
      (s.foldl escapeChar o).str = o.str ++ s.flatMap escaped := by
    intro s
    induction s with
    | nil => exact fun _ _ => (List.append_nil _).symm
    | cons c s ih =>
      intro o hs ho
      rw [List.forall_mem_cons] at hs
      obtain ⟨hstr, hwidth⟩ := escapeChar_spec ho hs.1
      rw [List.foldl_cons, ih hs.2 hwidth, hstr, List.flatMap_cons, List.append_assoc]
  exact hrun hs rfl

/-- The escape of a control character stands for it. -/
theorem isEscaped_control : ∀ n : ℕ, n < 0x20 →
    IsEscaped ['\\', 'u', '0', '0', Nat.digitChar (n / 16), Nat.digitChar (n % 16)]
      [Char.ofNat n] := by
  decide

/-- **The escaped form of a byte is one.** -/
theorem isEscaped_escaped (c : Char) : IsEscaped (escaped c) [c] := by
  unfold escaped
  cases hcase : switchCases.find? (fun e => e.1 = c) with
  | some e =>
    have hc : e.1 = c := by simpa using List.find?_some hcase
    rw [← hc]
    exact (by decide : ∀ e ∈ switchCases, IsEscaped e.2 [e.1]) e (List.mem_of_find?_eq_some hcase)
  | none =>
    have hne : ∀ e ∈ switchCases, e.1 ≠ c := by simpa using List.find?_eq_none.mp hcase
    dsimp only
    split
    · rename_i hcontrol
      have hescaped := isEscaped_control c.toNat hcontrol
      rwa [Char.ofNat_toNat] at hescaped
    · rename_i hcontrol
      exact .plain (hne _ (by decide : ('"', ['\\', '"']) ∈ switchCases)).symm
        (hne _ (by decide : ('\\', ['\\', '\\']) ∈ switchCases)).symm (not_lt.mp hcontrol)

/-- **What `escapeJson` writes is the escaped form of its text.** -/
theorem isEscaped_escapeJson {s : Text} (hs : ∀ c ∈ s, c.toNat < 256) :
    IsEscaped (escapeJson s) s := by
  rw [escapeJson_eq hs]
  exact .flatMap fun c _ => isEscaped_escaped c

/-! ## The payload -/

/-- What stands in the payload before the value. -/
def beforeValue : Text :=
  "\x7b\"values\":[\x7b\"index\":1,\"type\":\"URL\",\"data\":\x7b\"format\":\"string\",\"value\":".toList

/-- What stands in the payload after the value. -/
def afterValue (handlePrefix : Text) : Text :=
  "\x7d\x7d,\x7b\"index\":100,\"type\":\"HS_ADMIN\",\"data\":\x7b\"format\":\"admin\",\"value\":\x7b\"handle\":\"0.NA/".toList
    ++ handlePrefix ++ "\",\"index\":200,\"permissions\":\"011111110011\"\x7d\x7d\x7d]\x7d".toList

theorem payload_eq (value handlePrefix : Text) :
    payload value handlePrefix
      = beforeValue ++ ('"' :: escapeJson value ++ '"' :: afterValue handlePrefix) := by
  have hbefore : "\x7b\"values\":[\x7b\"index\":1,\"type\":\"URL\",\"data\":\x7b\"format\":\"string\",\"value\":\"".toList
      = beforeValue ++ ['"'] := by
    decide +kernel
  have hafter : "\"\x7d\x7d,\x7b\"index\":100,\"type\":\"HS_ADMIN\",\"data\":\x7b\"format\":\"admin\",\"value\":\x7b\"handle\":\"0.NA/".toList
      = '"' :: "\x7d\x7d,\x7b\"index\":100,\"type\":\"HS_ADMIN\",\"data\":\x7b\"format\":\"admin\",\"value\":\x7b\"handle\":\"0.NA/".toList := by
    decide +kernel
  unfold payload afterValue
  rw [hbefore, hafter]
  simp only [List.append_assoc, List.cons_append, List.nil_append]

/-- **A value cannot break out of its quotes.** A scan of what `escapeJson` writes stops at
the quote behind it and gives the value back; no control character is written; and of the
tokens of the payload exactly one is the value, and no other depends on it. -/
theorem escapeJson_unbroken (s r : Text) (hs : ∀ c ∈ s, c.toNat < 256) :
    JsonString.scan (escapeJson s ++ '"' :: r) = some (s, r)
      ∧ (∀ c ∈ escapeJson s, 0x20 ≤ c.toNat)
      ∧ ∀ handlePrefix, tokens (payload s handlePrefix)
          = (tokens beforeValue).bind fun before =>
            (tokens (afterValue handlePrefix)).map fun after => before ++ .string s :: after := by
  have hescaped := isEscaped_escapeJson hs
  refine ⟨hescaped.scan r, hescaped.not_control, fun handlePrefix => ?_⟩
  obtain ⟨before, hbefore⟩ : ∃ before, tokens beforeValue = some before :=
    Option.isSome_iff_exists.mp (by decide +kernel)
  rw [payload_eq, tokens_append hbefore, hescaped.tokens, hbefore, Option.bind_some, Option.map_map]
  rfl

/-- A value with a quote, two control characters and a byte that is negative as a `char`. -/
theorem escapeJson_unbroken_sample :
    JsonString.scan (escapeJson ['a', '"', '\x01', '\x1f', '\xe9'] ++ '"' :: ['\x7d'])
        = some (['a', '"', '\x01', '\x1f', '\xe9'], ['\x7d'])
      ∧ (∀ c ∈ escapeJson ['a', '"', '\x01', '\x1f', '\xe9'], 0x20 ≤ c.toNat)
      ∧ ∀ handlePrefix, tokens (payload ['a', '"', '\x01', '\x1f', '\xe9'] handlePrefix)
          = (tokens beforeValue).bind fun before =>
            (tokens (afterValue handlePrefix)).map fun after =>
              before ++ .string ['a', '"', '\x01', '\x1f', '\xe9'] :: after :=
  escapeJson_unbroken ['a', '"', '\x01', '\x1f', '\xe9'] ['\x7d'] (by simp)
