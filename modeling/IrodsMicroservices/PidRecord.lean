import IrodsMicroservices.EpicPid
import IrodsMicroservices.JsonSpelling

/-!
# The record of a PID

msiRegisterEpicPID puts its request together from pieces of text: the value, escaped, and
the prefix of the handle, as the credentials have it. What the handle server has to store is
a document, a record of two values (`pidRecord`).

The text that is sent spells this document (`spells_payload`), with exactly the value of the
caller in it, whatever bytes it has. On an agent that makes one registration after the other,
whatever became of the ones before, each transfer that has been read to its end delivers the
record of its own call, and the handle that is handed out is the one its URL names
(`registrations_deliver`).
-/

open JsonText

/-! ## The value -/

theorem hexValue_digitChar : ∀ d < 16, JsonText.hexValue (Nat.digitChar d) = d := by decide

/-- An escaped byte is read back. -/
theorem readString_escaped (fuel : ℕ) (c : Char) (rest : Text) :
    readString (fuel + 1) (escaped c ++ rest)
      = (readString fuel rest).map (fun q => (c :: q.1, q.2)) := by
  unfold escaped
  cases hcase : switchCases.find? (fun e => e.1 = c) with
  | some e =>
    have hc : e.1 = c := by simpa using List.find?_some hcase
    have hmem := List.mem_of_find?_eq_some hcase
    subst hc
    dsimp only
    simp only [switchCases, List.mem_cons, List.not_mem_nil, or_false] at hmem
    rcases hmem with rfl | rfl | rfl | rfl | rfl | rfl | rfl <;> rfl
  | none =>
    have hne : ∀ e ∈ switchCases, e.1 ≠ c := by simpa using List.find?_eq_none.mp hcase
    dsimp only
    split
    · rename_i hcontrol
      have h1 := hexValue_digitChar (c.toNat / 16) (by omega)
      have h2 := hexValue_digitChar (c.toNat % 16) (Nat.mod_lt _ (by decide))
      have hesc : unescape ('u' :: '0' :: '0' :: Nat.digitChar (c.toNat / 16)
          :: Nat.digitChar (c.toNat % 16) :: rest) = some (c, rest) := by
        show some (Char.ofNat (16 * hexValue _ + hexValue _), rest) = _
        rw [h1, h2, Nat.div_add_mod, Char.ofNat_toNat]
      rw [List.cons_append, readString_backslash]
      exact congrArg (fun o => Option.bind o _) hesc
    · rw [List.singleton_append, readString,
        if_neg (hne _ (by decide : ('"', ['\\', '"']) ∈ switchCases)).symm,
        if_neg (hne _ (by decide : ('\\', ['\\', '\\']) ∈ switchCases)).symm]

theorem escaped_length_pos (c : Char) : 0 < (escaped c).length := by
  unfold escaped
  cases hcase : switchCases.find? (fun e => e.1 = c) with
  | some e =>
    exact (by decide : ∀ e ∈ switchCases, 0 < e.2.length) e (List.mem_of_find?_eq_some hcase)
  | none =>
    dsimp only
    split
    · exact Nat.succ_pos _
    · exact Nat.succ_pos _

/-- **A JSON reader gets back what `escapeJson` has been given.** -/
theorem readsString_escapeJson {s : Text} (hs : ∀ c ∈ s, c.toNat < 256) :
    ReadsString (escapeJson s) s := by
  rw [escapeJson_eq hs]
  clear hs
  induction s with
  | nil =>
    intro fuel rest hfuel
    obtain ⟨fuel, rfl⟩ := Nat.exists_eq_succ_of_ne_zero (Nat.ne_zero_of_lt hfuel)
    rfl
  | cons c s ih =>
    intro fuel rest hfuel
    rw [List.flatMap_cons, List.length_append] at hfuel
    have hpos := escaped_length_pos c
    obtain ⟨fuel, rfl⟩ := Nat.exists_eq_succ_of_ne_zero (Nat.ne_zero_of_lt hfuel)
    rw [List.flatMap_cons, List.append_assoc, readString_escaped, ih fuel rest (by omega),
      Option.map_some]

/-! ## The record -/

/-- **The record of a PID**: where it leads, and who may change it. -/
def pidRecord (value handlePrefix : Text) : Json :=
  .object [("values".toList, .array [
    .object [("index".toList, .integer 1), ("type".toList, .string "URL".toList),
      ("data".toList, .object [("format".toList, .string "string".toList),
        ("value".toList, .string value)])],
    .object [("index".toList, .integer 100), ("type".toList, .string "HS_ADMIN".toList),
      ("data".toList, .object [("format".toList, .string "admin".toList),
        ("value".toList, .object [("handle".toList, .string ("0.NA/".toList ++ handlePrefix)),
          ("index".toList, .integer 200),
          ("permissions".toList, .string "011111110011".toList)])])]])]

/-- A text in quotes. -/
def quoted (t : Text) : Text := '"' :: t ++ ['"']

/-- A member with a plain text for a value. -/
def plainMember (key s : Text) : SpelledMember := (key, quoted s, .string s)

theorem spelled_plainMember {key s : Text} (hkey : Plain key) (hs : Plain s) :
    Spelled (plainMember key s) := ⟨hkey, spells_string (readsString_plain hs)⟩

/-- A member with an integer for a value. -/
def integerMember (key : Text) (i : ℤ) : SpelledMember := (key, intText i, .integer i)

theorem spelled_integerMember {key : Text} (hkey : Plain key) (i : ℤ) :
    Spelled (integerMember key i) := ⟨hkey, spells_integer i⟩

/-- An object, with its text. -/
def objectOf (m : SpelledMember) (ms : List SpelledMember) : Text × Json :=
  (objectText m ms, .object ((m :: ms).map (fun m => (m.1, m.2.2))))

/-- The members of the value that leads somewhere. -/
def urlMembers (value : Text) : List SpelledMember :=
  [plainMember "type".toList "URL".toList,
    ("data".toList, objectOf (plainMember "format".toList "string".toList)
      [("value".toList, quoted (escapeJson value), .string value)])]

theorem spelled_urlMembers {value : Text} (hvalue : ∀ c ∈ value, c.toNat < 256) :
    ∀ m ∈ urlMembers value, Spelled m := by
  have hdata : Plain "data".toList := by decide
  have hkey : Plain "value".toList := by decide
  have hkeys : ["format".toList, "value".toList].Nodup := by decide
  have hstring : Spelled ("value".toList, quoted (escapeJson value), .string value) :=
    ⟨hkey, spells_string (readsString_escapeJson hvalue)⟩
  refine List.forall_mem_cons.mpr ⟨spelled_plainMember (by decide) (by decide),
    List.forall_mem_singleton.mpr ⟨hdata, spells_object ?_ hkeys⟩⟩
  exact List.forall_mem_cons.mpr ⟨spelled_plainMember (by decide) (by decide),
    List.forall_mem_singleton.mpr hstring⟩

/-- The members of the value that says who may change the record. -/
def adminMembers (handlePrefix : Text) : List SpelledMember :=
  [plainMember "type".toList "HS_ADMIN".toList,
    ("data".toList, objectOf (plainMember "format".toList "admin".toList)
      [("value".toList, objectOf (plainMember "handle".toList ("0.NA/".toList ++ handlePrefix))
        [integerMember "index".toList 200,
          plainMember "permissions".toList "011111110011".toList])])]

theorem spelled_adminMembers {handlePrefix : Text} (hplain : Plain handlePrefix) :
    ∀ m ∈ adminMembers handlePrefix, Spelled m := by
  have hdata : Plain "data".toList := by decide
  have hkey : Plain "value".toList := by decide
  have hkeys : ["handle".toList, "index".toList, "permissions".toList].Nodup := by
    decide
  have hkeys' : ["format".toList, "value".toList].Nodup := by decide
  have hauthority : Plain "0.NA/".toList := by decide
  have hhandle : Plain ("0.NA/".toList ++ handlePrefix) :=
    List.forall_mem_append.mpr ⟨hauthority, hplain⟩
  have hvalue : Spelled ("value".toList,
      objectOf (plainMember "handle".toList ("0.NA/".toList ++ handlePrefix))
        [integerMember "index".toList 200,
          plainMember "permissions".toList "011111110011".toList]) := by
    refine ⟨hkey, spells_object ?_ hkeys⟩
    exact List.forall_mem_cons.mpr ⟨spelled_plainMember (by decide) hhandle,
      List.forall_mem_cons.mpr ⟨spelled_integerMember (by decide) 200,
        List.forall_mem_singleton.mpr (spelled_plainMember (by decide) (by decide))⟩⟩
  refine List.forall_mem_cons.mpr ⟨spelled_plainMember (by decide) (by decide),
    List.forall_mem_singleton.mpr ⟨hdata, spells_object ?_ hkeys'⟩⟩
  exact List.forall_mem_cons.mpr ⟨spelled_plainMember (by decide) (by decide),
    List.forall_mem_singleton.mpr hvalue⟩

/-- The values of the record. -/
def urlValue (value : Text) : Text × Json :=
  objectOf (integerMember "index".toList 1) (urlMembers value)

def adminValue (handlePrefix : Text) : Text × Json :=
  objectOf (integerMember "index".toList 100) (adminMembers handlePrefix)

/-- The text of the record, put together from the texts of its members. -/
def recordText (value handlePrefix : Text) : Text :=
  objectText ("values".toList, arrayText (urlValue value) [adminValue handlePrefix],
    .array [(urlValue value).2, (adminValue handlePrefix).2]) []

/-! The fixed pieces of the payload are cut where the texts of the members meet. -/

theorem beforeValue_eq : beforeValue = ['\x7b', '"'] ++ "values".toList
    ++ ['"', ':', '[', '\x7b', '"'] ++ "index".toList ++ ['"', ':'] ++ intText 1 ++ [',', '"']
    ++ "type".toList ++ ['"', ':', '"'] ++ "URL".toList ++ ['"', ',', '"'] ++ "data".toList
    ++ ['"', ':', '\x7b', '"'] ++ "format".toList ++ ['"', ':', '"'] ++ "string".toList
    ++ ['"', ',', '"'] ++ "value".toList ++ ['"', ':'] := by
  decide +kernel

/-- What stands between the value and the prefix. -/
def betweenText : Text :=
  "\x7d\x7d,\x7b\"index\":100,\"type\":\"HS_ADMIN\",\"data\":\x7b\"format\":\"admin\",\"value\":\x7b\"handle\":\"0.NA/".toList

theorem betweenText_eq : betweenText = ['\x7d', '\x7d', ',', '\x7b', '"'] ++ "index".toList
    ++ ['"', ':'] ++ intText 100 ++ [',', '"'] ++ "type".toList ++ ['"', ':', '"']
    ++ "HS_ADMIN".toList ++ ['"', ',', '"'] ++ "data".toList ++ ['"', ':', '\x7b', '"']
    ++ "format".toList ++ ['"', ':', '"'] ++ "admin".toList ++ ['"', ',', '"'] ++ "value".toList
    ++ ['"', ':', '\x7b', '"'] ++ "handle".toList ++ ['"', ':', '"'] ++ "0.NA/".toList := by
  decide +kernel

/-- What stands after the prefix. -/
def endText : Text := "\",\"index\":200,\"permissions\":\"011111110011\"\x7d\x7d\x7d]\x7d".toList

theorem endText_eq : endText = ['"', ',', '"'] ++ "index".toList ++ ['"', ':'] ++ intText 200
    ++ [',', '"'] ++ "permissions".toList ++ ['"', ':', '"'] ++ "011111110011".toList
    ++ ['"', '\x7d', '\x7d', '\x7d', ']', '\x7d'] := by
  decide +kernel

/-- **The payload is the text of the record.** -/
theorem payload_eq_recordText (value handlePrefix : Text) :
    payload value handlePrefix = recordText value handlePrefix := by
  have hafter : afterValue handlePrefix = betweenText ++ handlePrefix ++ endText := rfl
  rw [payload_eq, hafter, beforeValue_eq, betweenText_eq, endText_eq]
  simp only [recordText, objectText, memberText, moreMembersText, arrayText, moreElemsText,
    urlValue,
    adminValue, objectOf, urlMembers, adminMembers, plainMember, integerMember, quoted,
    List.append_assoc, List.cons_append, List.nil_append]

/-- **The payload spells the record.** -/
theorem spells_payload {value handlePrefix : Text} (hvalue : ∀ c ∈ value, c.toNat < 256)
    (hplain : Plain handlePrefix) :
    Spells (payload value handlePrefix) (pidRecord value handlePrefix) := by
  rw [payload_eq_recordText]
  have hkeys : ["index".toList, "type".toList, "data".toList].Nodup := by decide
  have hkey : Plain "values".toList := by decide
  have hurl : Spells (urlValue value).1 (urlValue value).2 :=
    spells_object (List.forall_mem_cons.mpr ⟨spelled_integerMember (by decide) 1,
      spelled_urlMembers hvalue⟩) hkeys
  have hadmin : Spells (adminValue handlePrefix).1 (adminValue handlePrefix).2 :=
    spells_object (List.forall_mem_cons.mpr ⟨spelled_integerMember (by decide) 100,
      spelled_adminMembers hplain⟩) hkeys
  have hvalues : Spells (arrayText (urlValue value) [adminValue handlePrefix])
      (.array [(urlValue value).2, (adminValue handlePrefix).2]) :=
    spells_array (List.forall_mem_cons.mpr ⟨hurl, List.forall_mem_singleton.mpr hadmin⟩)
  exact spells_object (List.forall_mem_singleton.mpr ⟨hkey, hvalues⟩) (List.nodup_singleton _)

/-- **The handle server gets the record of the caller's value.** -/
theorem loads_payload {value handlePrefix : Text} (hvalue : ∀ c ∈ value, c.toNat < 256)
    (hplain : Plain handlePrefix) :
    loads (payload value handlePrefix) = some (pidRecord value handlePrefix) :=
  loads_of_spells (spells_payload hvalue hplain) rfl

/-- No control character stands in the payload. -/
theorem payload_visible {value handlePrefix : Text} (hvalue : ∀ c ∈ value, c.toNat < 256)
    (hplain : Plain handlePrefix) : ∀ c ∈ payload value handlePrefix, 0x20 ≤ c.toNat := by
  have hfixed : ∀ {t : Text}, t.all (fun c => 0x20 ≤ c.toNat) = true → ∀ c ∈ t, 0x20 ≤ c.toNat :=
    fun h c hc => of_decide_eq_true (List.all_eq_true.mp h c hc)
  have hbefore : beforeValue.all (fun c => 0x20 ≤ c.toNat) = true := by decide +kernel
  have hbetween : betweenText.all (fun c => 0x20 ≤ c.toNat) = true := by decide +kernel
  have hend : endText.all (fun c => 0x20 ≤ c.toNat) = true := by decide +kernel
  have hafter : ∀ c ∈ afterValue handlePrefix, 0x20 ≤ c.toNat :=
    List.forall_mem_append.mpr ⟨List.forall_mem_append.mpr
      ⟨hfixed hbetween, fun c hc => (hplain c hc).2.2⟩, hfixed hend⟩
  rw [payload_eq]
  exact List.forall_mem_append.mpr ⟨hfixed hbefore, List.forall_mem_append.mpr
    ⟨List.forall_mem_cons.mpr ⟨by decide, (isEscaped_escapeJson hvalue).not_control⟩,
      List.forall_mem_cons.mpr ⟨by decide, hafter⟩⟩⟩

/-! ## The agent -/

namespace CredentialsStore

/-- `CREDS_STORE`. -/
def credsStore : Text := "/var/lib/irods/.credentials_store/store_config.json".toList

/-- The constructor: the document in the file, NULL where there is none. -/
def load (J : Jansson) (readFile : Text → Option Text) : CredentialsStore :=
  ⟨(readFile credsStore).bind J.loads⟩

end CredentialsStore

namespace EpicState

/-- An agent when the microservice is loaded, which sets up the variables of the file. -/
def start (J : Jansson) (readFile : Text → Option Text) : EpicState := ⟨.load J readFile, 0⟩

/-- The credentials of an EPIC server, as `msiRegisterEpicPID` needs them. -/
structure Credentials where
  /-- The URL of the server. -/
  url : Text
  /-- The prefix of its handles. -/
  handlePrefix : Text
  /-- The file with the key. -/
  key : Text
  /-- The file with the certificate. -/
  certificate : Text

namespace Credentials

/-- A document has these credentials. -/
structure Of (K : Credentials) (document : Json) : Prop where
  url : document.objectGet "epic_url".toList = some (.string K.url)
  handlePrefix : document.objectGet "epic_handle_prefix".toList = some (.string K.handlePrefix)
  key : document.objectGet "epic_key".toList = some (.string K.key)
  certificate : document.objectGet "epic_certificate".toList = some (.string K.certificate)

/-- The handle of a uuid. -/
def handle (K : Credentials) (uuid : Text) : Text := K.handlePrefix ++ '/' :: uuid

/-- The request for the handle of a uuid. -/
def request (K : Credentials) (value uuid : Text) : PutRequest where
  url := K.url ++ '/' :: K.handle uuid
  headers := ["Content-Type: application/json".toList,
    "Authorization: Handle clientCert=\"true\"".toList]
  sslKey := K.key
  sslCert := K.certificate
  payload := payload value K.handlePrefix
  infileSize := (BitVec.ofNat 64 (payload value K.handlePrefix).length).toInt

end Credentials

/-- A call of `msiRegisterEpicPID`, and the curl it has. -/
structure PidCall where
  /-- What curl does with a request. -/
  curl : PutRequest → Option Transfer
  /-- The user is privileged. -/
  isPrivileged : Bool
  /-- The parameters. -/
  valueIn : MsParam
  idInOut : MsParam

/-- The calls of an agent, one after the other, each with what comes of it; an agent with a
fault is no more. -/
def registrations (S : EpicState) : List PidCall → List (PidCall × Registration)
  | [] => []
  | c :: calls =>
    match S.msiRegisterEpicPID c.curl c.isPrivileged c.valueIn c.idInOut with
    | .error _ => []
    | .ok (r, S') => (c, r) :: S'.registrations calls

theorem credentials_readAll (payload : Text) (requests : List ReadRequest) :
    ∀ S : EpicState, (S.readAll payload requests).2.credentials = S.credentials := by
  induction requests with
  | nil => exact fun S => rfl
  | cons r requests ih => exact fun S => ih (S.readCallback payload r).2

/-- **A call asks curl** for the handle of its uuid, and has a transfer. -/
structure PidCall.Asks (K : Credentials) (c : PidCall) (value uuid : Text)
    (transfer : Transfer) : Prop where
  isPrivileged : c.isPrivileged = true
  type : c.valueIn.type = some .str
  valueIn : c.valueIn.parseMspForStr = some value
  idInOut : c.idInOut.parseMspForStr = some uuid
  curl : c.curl (K.request value uuid) = some transfer

theorem PidCall.Asks.unique {K : Credentials} {c : PidCall} {value value' uuid uuid' : Text}
    {transfer transfer' : Transfer} (h : c.Asks K value uuid transfer)
    (h' : c.Asks K value' uuid' transfer') :
    value' = value ∧ uuid' = uuid ∧ transfer' = transfer := by
  cases h'.valueIn.symm.trans h.valueIn
  cases h'.idInOut.symm.trans h.idInOut
  exact ⟨rfl, rfl, Option.some.inj (h'.curl.symm.trans h.curl)⟩

/-- What a call without a transfer leaves. -/
def Idle (r : Registration) : Prop := r.copies = [] ∧ r.idInOut = none

/-- What a call with a transfer leaves. -/
def Transferred (S : EpicState) (K : Credentials) (value uuid : Text) (transfer : Transfer)
    (r : Registration) : Prop :=
  r.copies = (S.upload (payload value K.handlePrefix) transfer.requests).1
    ∧ r.idInOut = if transfer.response = some 200 ∨ transfer.response = some 201
        then some (K.handle uuid) else none

theorem perform_of_none {S : EpicState} {K : Credentials} {c : PidCall} {value uuid : Text}
    (h : c.curl (K.request value uuid) = none) :
    S.perform c.curl value uuid K.url K.handlePrefix K.key K.certificate
      = ({ status := .success }, S) := by
  unfold perform
  dsimp only
  split
  · rfl
  · rename_i htransfer
    exact absurd (h.symm.trans htransfer) (Option.some_ne_none _).symm

theorem perform_of_some {S : EpicState} {K : Credentials} {c : PidCall} {value uuid : Text}
    {transfer : Transfer} (h : c.curl (K.request value uuid) = some transfer) {r : Registration}
    {S' : EpicState}
    (hperform : S.perform c.curl value uuid K.url K.handlePrefix K.key K.certificate = (r, S')) :
    S'.credentials = S.credentials ∧ S.Transferred K value uuid transfer r := by
  have hcredentials := credentials_readAll (payload value K.handlePrefix) transfer.requests
    { S with length := (payload value K.handlePrefix).length }
  unfold perform at hperform
  dsimp only at hperform
  split at hperform
  · rename_i hnone
    exact absurd (hnone.symm.trans h) (Option.some_ne_none _).symm
  · rename_i htransfer
    cases h.symm.trans htransfer
    unfold Transferred
    split at hperform
    · rename_i hresponse
      cases hperform
      exact ⟨hcredentials, rfl, by simp [hresponse]⟩
    · rename_i hresponse
      cases hperform
      refine ⟨hcredentials, rfl, ?_⟩
      rw [hresponse]
      simp only [Option.some.injEq]
      rfl

/-- With all the credentials in the store, a privileged call with a text goes on to `perform`. -/
theorem msiRegisterEpicPID_eq {S : EpicState} {document : Json} {K : Credentials}
    (hstore : S.credentials.store = some document) (hK : K.Of document) {c : PidCall}
    (hprivileged : c.isPrivileged = true) (htype : c.valueIn.type = some .str) :
    S.msiRegisterEpicPID c.curl c.isPrivileged c.valueIn c.idInOut = (do
      let value ← stdString c.valueIn.parseMspForStr
      let uuid ← stdString c.idInOut.parseMspForStr
      .ok (S.perform c.curl value uuid K.url K.handlePrefix K.key K.certificate)) := by
  have hcredentials : S.credentials = ⟨some document⟩ := congrArg CredentialsStore.mk hstore
  have hhas : S.credentials.has "epic_url".toList = true := by
    rw [hcredentials]
    exact congrArg Option.isSome hK.url
  have hget : ∀ {key s : Text}, document.objectGet key = some (.string s) →
      S.credentials.get key = some s := fun h => hcredentials ▸ get_eq_some_iff.mpr h
  have hloaded : S.credentials.isLoaded = true := congrArg Option.isSome hstore
  unfold msiRegisterEpicPID
  simp only [hprivileged, hloaded, htype, hhas, hget hK.url, hget hK.handlePrefix, hget hK.key,
    hget hK.certificate]
  rfl

/-- **One call**, with a store that has the credentials: nothing comes of it unless it asks
curl and has a transfer, and the store stays. -/
theorem msiRegisterEpicPID_spec {S S' : EpicState} {document : Json} {K : Credentials}
    (hstore : S.credentials.store = some document) (hK : K.Of document) {c : PidCall}
    {r : Registration}
    (h : S.msiRegisterEpicPID c.curl c.isPrivileged c.valueIn c.idInOut = .ok (r, S')) :
    S'.credentials = S.credentials
      ∧ (((∀ value uuid transfer, ¬ c.Asks K value uuid transfer) ∧ Idle r)
        ∨ ∃ value uuid transfer, c.Asks K value uuid transfer
          ∧ S.Transferred K value uuid transfer r) := by
  by_cases htext : c.isPrivileged = true ∧ c.valueIn.type = some .str
  · obtain ⟨hprivileged, htype⟩ := htext
    rw [msiRegisterEpicPID_eq hstore hK hprivileged htype] at h
    obtain ⟨value, hvalue, huuid⟩ := (stdString_bind_iff _ _).mp ⟨_, h⟩
    obtain ⟨uuid, huuid, -⟩ := (stdString_bind_iff _ _).mp huuid
    rw [hvalue, huuid] at h
    have hperform : S.perform c.curl value uuid K.url K.handlePrefix K.key K.certificate
        = (r, S') := Except.ok.inj h
    cases htransfer : c.curl (K.request value uuid) with
    | none =>
      cases (perform_of_none htransfer).symm.trans hperform
      refine ⟨rfl, .inl ⟨fun value' uuid' transfer ha => ?_, rfl, rfl⟩⟩
      cases hvalue.symm.trans ha.valueIn
      cases huuid.symm.trans ha.idInOut
      exact absurd (htransfer.symm.trans ha.curl) (Option.some_ne_none _).symm
    | some transfer =>
      obtain ⟨hcredentials, htransferred⟩ := perform_of_some htransfer hperform
      exact ⟨hcredentials, .inr ⟨value, uuid, transfer,
        ⟨hprivileged, htype, hvalue, huuid, htransfer⟩, htransferred⟩⟩
  · have hasks : ∀ value uuid transfer, ¬ c.Asks K value uuid transfer :=
      fun _ _ _ ha => htext ⟨ha.isPrivileged, ha.type⟩
    have hidle : S'.credentials = S.credentials ∧ Idle r := by
      unfold msiRegisterEpicPID at h
      split at h
      · cases h
        exact ⟨rfl, rfl, rfl⟩
      · rename_i hprivileged
        split at h
        · cases h
          exact ⟨rfl, rfl, rfl⟩
        · split at h
          · cases h
          · rename_i type htype
            split at h
            · cases h
              exact ⟨rfl, rfl, rfl⟩
            · rename_i hstr
              refine absurd ⟨by simpa using hprivileged, ?_⟩ htext
              rw [htype, of_not_not hstr]
    exact ⟨hidle.1, .inl ⟨hasks, hidle.2⟩⟩

/-- The parameters of a call can be read. -/
structure PidCall.Readable (c : PidCall) : Prop where
  type : c.valueIn.type ≠ none
  valueIn : c.valueIn.parseMspForStr ≠ none
  idInOut : c.idInOut.parseMspForStr ≠ none

theorem msiRegisterEpicPID_returns {S : EpicState} {document : Json} {K : Credentials}
    (hstore : S.credentials.store = some document) (hK : K.Of document) {c : PidCall}
    (hc : c.Readable) :
    ∃ q, S.msiRegisterEpicPID c.curl c.isPrivileged c.valueIn c.idInOut = .ok q := by
  by_cases htext : c.isPrivileged = true ∧ c.valueIn.type = some .str
  · obtain ⟨value, hvalue⟩ := Option.ne_none_iff_exists'.mp hc.valueIn
    obtain ⟨uuid, huuid⟩ := Option.ne_none_iff_exists'.mp hc.idInOut
    rw [msiRegisterEpicPID_eq hstore hK htext.1 htext.2, hvalue, huuid]
    exact ⟨_, rfl⟩
  · unfold msiRegisterEpicPID
    split
    · exact ⟨_, rfl⟩
    · rename_i hprivileged
      split
      · exact ⟨_, rfl⟩
      · split
        · rename_i htype
          exact absurd htype hc.type
        · rename_i type htype
          refine ⟨_, if_pos fun hstr => htext ⟨by simpa using hprivileged, ?_⟩⟩
          rw [htype, hstr]

/-- **What a call has come to.** -/
structure Recorded (K : Credentials) (c : PidCall) (r : Registration) : Prop where
  /-- A handle is handed out where the server has accepted the request for it. -/
  handle : ∀ id, r.idInOut = some id ↔ ∃ value uuid transfer, c.Asks K value uuid transfer
    ∧ (transfer.response = some 200 ∨ transfer.response = some 201) ∧ K.handle uuid = id
  /-- A transfer that has been read to its end delivers the record of the value, in a text
  without control characters. -/
  record : ∀ value uuid transfer, c.Asks K value uuid transfer → (∀ c ∈ value, c.toNat < 256) →
    (payload value K.handlePrefix).length ≤ total transfer.requests →
    ∃ text, r.copies.flatMap (PayloadCopy.chunk (payload value K.handlePrefix)) = text
      ∧ (∀ c ∈ text, 0x20 ≤ c.toNat) ∧ loads text = some (pidRecord value K.handlePrefix)
  /-- Without a transfer nothing is read. -/
  idle : (∀ value uuid transfer, ¬ c.Asks K value uuid transfer) → r.copies = []

theorem recorded_of_transferred {S : EpicState} {K : Credentials} (hplain : Plain K.handlePrefix)
    {c : PidCall} {value uuid : Text} {transfer : Transfer} {r : Registration}
    (hasks : c.Asks K value uuid transfer) (h : S.Transferred K value uuid transfer r) :
    Recorded K c r := by
  obtain ⟨hcopies, hid⟩ := h
  refine ⟨fun id => ?_, ?_, fun hnone => absurd hasks (hnone value uuid transfer)⟩
  · rw [hid]
    constructor
    · intro hsome
      split at hsome
      · rename_i hcode
        exact ⟨value, uuid, transfer, hasks, hcode, Option.some.inj hsome⟩
      · cases hsome
    · rintro ⟨value', uuid', transfer', hasks', hcode, rfl⟩
      obtain ⟨rfl, rfl, rfl⟩ := hasks.unique hasks'
      exact if_pos hcode
  · intro value' uuid' transfer' hasks' hbytes hend
    obtain ⟨rfl, rfl, rfl⟩ := hasks.unique hasks'
    have hchunks := (S.upload_delivers (payload value' K.handlePrefix) transfer'.requests).chunks
    rw [Nat.min_eq_right hend, List.take_length] at hchunks
    exact ⟨_, hcopies ▸ hchunks, payload_visible hbytes hplain, loads_payload hbytes hplain⟩

theorem recorded_of_idle {K : Credentials} {c : PidCall} {r : Registration}
    (hnone : ∀ value uuid transfer, ¬ c.Asks K value uuid transfer) (h : Idle r) :
    Recorded K c r := by
  refine ⟨fun id => ?_, fun value uuid transfer hasks => absurd hasks (hnone value uuid transfer),
    fun _ => h.1⟩
  rw [h.2]
  exact iff_of_false (Option.some_ne_none id).symm
    (fun ⟨value, uuid, transfer, hasks, _⟩ => hnone value uuid transfer hasks)

/-- The calls of an agent whose store has the credentials. -/
theorem recorded_registrations {document : Json} {K : Credentials} (hK : K.Of document)
    (hplain : Plain K.handlePrefix) (calls : List PidCall) :
    ∀ {S : EpicState}, S.credentials.store = some document →
      (∀ q ∈ S.registrations calls, Recorded K q.1 q.2)
        ∧ ((∀ c ∈ calls, c.Readable) → (S.registrations calls).map Prod.fst = calls) := by
  induction calls with
  | nil => exact fun _ => ⟨List.forall_mem_nil _, fun _ => rfl⟩
  | cons c calls ih =>
    intro S hstore
    cases hcall : S.msiRegisterEpicPID c.curl c.isPrivileged c.valueIn c.idInOut with
    | error e =>
      have hrun : S.registrations (c :: calls) = [] := by
        rw [registrations, hcall]
      rw [hrun]
      refine ⟨List.forall_mem_nil _, fun hreadable => ?_⟩
      obtain ⟨q, hq⟩ := msiRegisterEpicPID_returns hstore hK (hreadable c List.mem_cons_self)
      cases hcall.symm.trans hq
    | ok q =>
      obtain ⟨r, S'⟩ := q
      obtain ⟨hcredentials, hspec⟩ := msiRegisterEpicPID_spec hstore hK hcall
      obtain ⟨hrecorded, hall⟩ := ih (S := S') (hcredentials ▸ hstore)
      have hrun : S.registrations (c :: calls) = (c, r) :: S'.registrations calls := by
        rw [registrations, hcall]
      rw [hrun]
      refine ⟨List.forall_mem_cons.mpr ⟨?_, hrecorded⟩, fun hreadable =>
        congrArg (c :: ·) (hall fun c' hc' => hreadable c' (List.mem_cons_of_mem c hc'))⟩
      rcases hspec with ⟨hnone, hidle⟩ | ⟨value, uuid, transfer, hasks, htransferred⟩
      · exact recorded_of_idle hnone hidle
      · exact recorded_of_transferred hplain hasks htransferred

/-- **The records of an agent**: in any run of calls on an agent that has loaded a store with
the credentials, with a plain prefix, whatever curl does, each call hands out exactly the handle
the server has accepted, and each transfer that has been read to its end delivers the record
of its own value. No call is left out where the parameters can be read. -/
theorem registrations_deliver {J : Jansson} {readFile : Text → Option Text} {text : Text}
    {document : Json} {K : Credentials}
    (hfile : readFile CredentialsStore.credsStore = some text)
    (hdocument : J.loads text = some document) (hK : K.Of document)
    (hplain : Plain K.handlePrefix) (calls : List PidCall) :
    (∀ q ∈ (start J readFile).registrations calls, Recorded K q.1 q.2)
      ∧ ((∀ c ∈ calls, c.Readable) →
        ((start J readFile).registrations calls).map Prod.fst = calls) := by
  refine recorded_registrations hK hplain calls ?_
  show (readFile CredentialsStore.credsStore).bind J.loads = some document
  rw [hfile]
  exact hdocument

namespace Sample

/-- The credentials of the store. -/
def credentials : Credentials :=
  ⟨"https://epic".toList, "21.T12995".toList, "epic.key".toList, "epic.pem".toList⟩

theorem credentials_of : credentials.Of configured := ⟨rfl, rfl, rfl, rfl⟩

/-- A connection that is lost after ten bytes, and one that is not, for a value with a quote. -/
def pidCalls : List PidCall :=
  [⟨fun _ => some ⟨[⟨1, 10, by decide⟩], none⟩, true, .ofText "https://a".toList,
      .ofText "1".toList⟩,
    ⟨fun _ => some ⟨[⟨1, 100, by decide⟩, ⟨1, 200, by decide⟩], some 201⟩, true,
      .ofText "https://\"b\"".toList, .ofText "2".toList⟩]

/-- The text in the file of the store. -/
def storeText : Text :=
  objectText (plainMember "epic_url".toList "https://epic".toList)
    [plainMember "epic_handle_prefix".toList "21.T12995".toList,
      plainMember "epic_key".toList "epic.key".toList,
      plainMember "epic_certificate".toList "epic.pem".toList]

theorem loads_storeText : loads storeText = some configured := by
  refine loads_of_spells (spells_object ?_ (by decide)) rfl
  simp only [List.forall_mem_cons]
  exact ⟨spelled_plainMember (by decide) (by decide), spelled_plainMember (by decide) (by decide),
    spelled_plainMember (by decide) (by decide), spelled_plainMember (by decide) (by decide),
    List.forall_mem_nil _⟩

def storeFile (path : Text) : Option Text :=
  if path = CredentialsStore.credsStore then some storeText else none

end Sample

/-- The second call delivers its record, whatever the first one has left of its own. -/
theorem registrations_deliver_sample :
    (∀ q ∈ (start JsonText.codec Sample.storeFile).registrations Sample.pidCalls,
        Recorded Sample.credentials q.1 q.2)
      ∧ ((∀ c ∈ Sample.pidCalls, c.Readable) →
        ((start JsonText.codec Sample.storeFile).registrations Sample.pidCalls).map Prod.fst
          = Sample.pidCalls) :=
  registrations_deliver (if_pos rfl) Sample.loads_storeText Sample.credentials_of (by decide)
    Sample.pidCalls

end EpicState
