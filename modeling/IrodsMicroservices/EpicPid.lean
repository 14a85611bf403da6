import IrodsMicroservices.EscapeJson
import IrodsMicroservices.Status

/-!
# The registration of a PID

`msiRegisterEpicPID` puts a payload with curl, which asks for it in pieces: `readCallback`
copies the next piece into a buffer. What it keeps of the position is a file-level count of
the bytes that remain, which every registration of the agent sets anew, so that a transfer
given up half-way leaves nothing to the next (`EpicState.uploads_deliver`).

The texts of the request come from two parameters and from the credentials store, and each
of them may be NULL where a `std::string` is made of it. The store is asked whether it has a
member, and then for a string: `msiRegisterEpicPID_ok_iff` says when that goes well.
-/

/-! ## The credentials store -/

/-- **`CredentialsStore`**: the document that was loaded, NULL where none could be. -/
structure CredentialsStore where
  /-- The in-memory copy of the document. -/
  store : Option Json

namespace CredentialsStore

/-- `isLoaded`. -/
def isLoaded (C : CredentialsStore) : Bool := C.store.isSome

/-- `has`: there is a member of that name, of any kind. -/
def has (C : CredentialsStore) (key : Text) : Bool :=
  (C.store.bind (fun store => store.objectGet key)).isSome

/-- `get`: the member of that name, if it is a string. -/
def get (C : CredentialsStore) (key : Text) : Option Text :=
  C.store.bind (fun store => store.stringMember key)

end CredentialsStore

/-- The file-level variables of `msiRegisterEpicPID.cc`. -/
structure EpicState where
  /-- The credentials. -/
  credentials : CredentialsStore
  /-- How much of the payload remains to be read. -/
  length : ℕ

/-! ## The upload -/

/-- What curl asks of `readCallback`: its buffer holds `size * nmemb` bytes. -/
structure ReadRequest where
  /-- The size of an element. -/
  size : ℕ
  /-- The number of elements. -/
  nmemb : ℕ
  /-- There is such a buffer in memory. -/
  inMemory : size * nmemb < 2 ^ 64

namespace ReadRequest

/-- The bytes the buffer holds. -/
def capacity (r : ReadRequest) : ℕ := r.size * r.nmemb

end ReadRequest

/-- A copy `readCallback` makes: where in the payload it begins, and how much it is. -/
structure PayloadCopy where
  /-- The index of the first byte. -/
  offset : ℤ
  /-- The number of bytes, which is what is returned. -/
  len : ℕ
  deriving DecidableEq

namespace PayloadCopy

/-- The copy stays inside the payload. -/
def Inside (payload : Text) (c : PayloadCopy) : Prop :=
  0 ≤ c.offset ∧ c.offset + c.len ≤ payload.length

/-- The bytes that are copied. -/
def chunk (payload : Text) (c : PayloadCopy) : Text :=
  (payload.drop c.offset.toNat).take c.len

theorem length_chunk {payload : Text} {c : PayloadCopy} (h : c.Inside payload) :
    (c.chunk payload).length = c.len := by
  obtain ⟨hpos, hend⟩ := h
  have hoffset : (c.offset.toNat : ℤ) = c.offset := Int.toNat_of_nonneg hpos
  rw [chunk, List.length_take, List.length_drop]
  omega

end PayloadCopy

namespace EpicState

/-- **`readCallback`.** -/
def readCallback (S : EpicState) (payload : Text) (r : ReadRequest) : PayloadCopy × EpicState :=
  let len := r.size * r.nmemb % 2 ^ 64
  let len := if len > S.length then S.length else len
  (⟨payload.length - S.length, len⟩, { S with length := S.length - len })

/-- The requests of a transfer, one after the other. -/
def readAll (S : EpicState) (payload : Text) : List ReadRequest → List PayloadCopy × EpicState
  | [] => ([], S)
  | r :: requests =>
    let (c, S') := S.readCallback payload r
    let (copies, S'') := S'.readAll payload requests
    (c :: copies, S'')

/-- **The upload of a payload**: the count is set, and curl makes its requests. -/
def upload (S : EpicState) (payload : Text) (requests : List ReadRequest) :
    List PayloadCopy × EpicState :=
  { S with length := payload.length }.readAll payload requests

/-- What remains of the payload. -/
def remaining (S : EpicState) (payload : Text) : Text :=
  payload.drop (payload.length - S.length)

theorem length_remaining {S : EpicState} {payload : Text} (h : S.length ≤ payload.length) :
    (S.remaining payload).length = S.length := by
  rw [remaining, List.length_drop]
  omega

/-- **One request**: the copy is inside the payload and the buffer, and takes from what
remains as much as the buffer holds. -/
theorem readCallback_spec {S : EpicState} {payload : Text} (h : S.length ≤ payload.length)
    (r : ReadRequest) :
    (S.readCallback payload r).1.Inside payload
      ∧ (S.readCallback payload r).1.len ≤ r.capacity
      ∧ (S.readCallback payload r).1.chunk payload = (S.remaining payload).take r.capacity
      ∧ (S.readCallback payload r).2.length ≤ payload.length
      ∧ (S.readCallback payload r).2.remaining payload
          = (S.remaining payload).drop r.capacity := by
  have hlen : (S.readCallback payload r).1.len = min r.capacity S.length := by
    show (if r.size * r.nmemb % 2 ^ 64 > S.length then S.length else r.size * r.nmemb % 2 ^ 64) = _
    rw [Nat.mod_eq_of_lt r.inMemory, ReadRequest.capacity]
    split <;> omega
  have hoffset : (S.readCallback payload r).1.offset = ((payload.length - S.length : ℕ) : ℤ) :=
    (Nat.cast_sub h).symm
  have hnext : (S.readCallback payload r).2.length = S.length - min r.capacity S.length :=
    congrArg (S.length - ·) hlen
  have hwhole : (S.remaining payload).take (min r.capacity S.length)
      = (S.remaining payload).take r.capacity := by
    rw [← length_remaining h, ← List.take_take, List.take_length]
  refine ⟨⟨?_, ?_⟩, ?_, ?_, ?_, ?_⟩
  · rw [hoffset]
    exact Int.natCast_nonneg _
  · rw [hoffset, hlen]
    omega
  · rw [hlen]
    exact Nat.min_le_left _ _
  · rw [PayloadCopy.chunk, hoffset, Int.toNat_natCast, hlen]
    exact hwhole
  · rw [hnext]
    omega
  · rw [remaining, hnext, remaining, List.drop_drop]
    -- past the end of the payload nothing is dropped twice
    rcases Nat.le_total r.capacity S.length with hle | hle
    · rw [Nat.min_eq_left hle]
      congr 1
      omega
    · rw [Nat.min_eq_right hle, List.drop_eq_nil_of_le (by omega), List.drop_eq_nil_of_le (by omega)]

/-- What the requests of a transfer hold together. -/
def total (requests : List ReadRequest) : ℕ := (requests.map ReadRequest.capacity).sum

/-- **A whole transfer**, from any state in which no more remains than the payload has. -/
theorem readAll_spec (payload : Text) (requests : List ReadRequest) :
    ∀ {S : EpicState}, S.length ≤ payload.length →
      List.Forall₂ (fun r (c : PayloadCopy) => c.Inside payload ∧ c.len ≤ r.capacity) requests
          (S.readAll payload requests).1
        ∧ (S.readAll payload requests).1.flatMap (PayloadCopy.chunk payload)
          = (S.remaining payload).take (total requests) := by
  induction requests with
  | nil => exact fun _ => ⟨.nil, (List.take_zero).symm⟩
  | cons r requests ih =>
    intro S h
    obtain ⟨hinside, hcapacity, hchunk, hnext, hremaining⟩ := readCallback_spec h r
    obtain ⟨hcopies, hchunks⟩ := ih hnext
    refine ⟨.cons ⟨hinside, hcapacity⟩ hcopies, ?_⟩
    show (S.readCallback payload r).1.chunk payload
      ++ ((S.readCallback payload r).2.readAll payload requests).1.flatMap
        (PayloadCopy.chunk payload) = _
    rw [hchunks, hchunk, hremaining]
    exact List.take_add.symm

/-- **A payload is delivered**: for each request a copy inside the payload and the buffer,
together the front of the payload, and nothing more once they are all of it. -/
structure Delivers (payload : Text) (requests : List ReadRequest)
    (copies : List PayloadCopy) : Prop where
  /-- There is a copy for each request, and it stays within its bounds. -/
  inside : List.Forall₂ (fun r c => c.Inside payload ∧ c.len ≤ r.capacity) requests copies
  /-- Together the chunks are what has been asked for, as far as the payload goes. -/
  chunks : copies.flatMap (PayloadCopy.chunk payload)
    = payload.take (min (total requests) payload.length)
  /-- Once the payload is used up, a call returns zero. -/
  exhausted : ∀ before after, copies = before ++ after →
    before.flatMap (PayloadCopy.chunk payload) = payload → ∀ c ∈ after, c.len = 0

/-- Copies that together are no more than the payload leave nothing after all of it. -/
theorem len_eq_zero_of_exhausted {payload : Text} {before after : List PayloadCopy}
    (hinside : ∀ c ∈ before ++ after, c.Inside payload)
    (hlength : ((before ++ after).flatMap (PayloadCopy.chunk payload)).length ≤ payload.length)
    (hall : before.flatMap (PayloadCopy.chunk payload) = payload) :
    ∀ c ∈ after, c.len = 0 := by
  intro c hc
  rw [List.flatMap_append, List.length_append, hall] at hlength
  have hnil : after.flatMap (PayloadCopy.chunk payload) = [] :=
    List.eq_nil_of_length_eq_zero (by omega)
  have hchunk : c.chunk payload = [] := List.flatMap_eq_nil_iff.mp hnil c hc
  rw [← PayloadCopy.length_chunk (hinside c (List.mem_append_right _ hc)), hchunk, List.length_nil]

theorem upload_delivers (S : EpicState) (payload : Text) (requests : List ReadRequest) :
    Delivers payload requests (S.upload payload requests).1 := by
  have hset : ({ S with length := payload.length } : EpicState).length ≤ payload.length :=
    Nat.le_refl _
  obtain ⟨hcopies, hchunks⟩ := readAll_spec payload requests hset
  have hwhole : ({ S with length := payload.length } : EpicState).remaining payload = payload := by
    rw [remaining, Nat.sub_self, List.drop_zero]
  rw [hwhole] at hchunks
  refine ⟨hcopies, ?_, ?_⟩
  · exact hchunks.trans (by rw [← List.take_take, List.take_length])
  · intro before after hsplit hall
    have hsplit' : ({ S with length := payload.length } : EpicState).readAll payload requests
        = (before ++ after, (S.upload payload requests).2) := Prod.ext hsplit rfl
    rw [hsplit'] at hcopies hchunks
    have hinside : ∀ c ∈ before ++ after, c.Inside payload :=
      ((List.forall₂_and_left (before ++ after) requests).mp hcopies.flip).1
    exact len_eq_zero_of_exhausted hinside (hchunks ▸ List.length_take_le' _ _) hall

/-- The uploads of an agent, one registration after the other: the payload of each, and the
requests curl gets to make. -/
def uploads (S : EpicState) : List (Text × List ReadRequest) → List (List PayloadCopy)
  | [] => []
  | (payload, requests) :: us =>
    let (copies, S') := S.upload payload requests
    copies :: S'.uploads us

/-- **Every registration of an agent delivers its own payload**, whatever the state is in
which those before it have left the count. -/
theorem uploads_deliver (S : EpicState) (us : List (Text × List ReadRequest)) :
    List.Forall₂ (fun u copies => Delivers u.1 u.2 copies) us (S.uploads us) := by
  induction us generalizing S with
  | nil => exact .nil
  | cons u us ih => exact .cons (S.upload_delivers u.1 u.2) (ih (S.upload u.1 u.2).2)

end EpicState

/-! ## The request -/

/-- The PUT request curl is set up for. -/
structure PutRequest where
  /-- Where the payload goes. -/
  url : Text
  /-- The HTTP headers. -/
  headers : List Text
  /-- The file with the key. -/
  sslKey : Text
  /-- The file with the certificate. -/
  sslCert : Text
  /-- The payload, and how long it is said to be. -/
  payload : Text
  infileSize : ℤ

/-- **What curl does with a request**: the data it asks for, and the code of the response,
or that there was an error. -/
structure Transfer where
  /-- The calls of `readCallback`. -/
  requests : List ReadRequest
  /-- `CURLINFO_RESPONSE_CODE`, and nothing where `curl_easy_perform` fails. -/
  response : Option ℤ

/-- What a registration returns. -/
inductive EpicStatus
  | success
  | sysUserNoPermission
  | sysConfigFileErr
  | sysInvalidInputParam
  | sysInternalNullInputErr
  deriving DecidableEq

/-- **A registration that returns**, with what it has put into its parameters. -/
structure Registration where
  /-- What is returned. -/
  status : EpicStatus
  /-- What `httpCodeOut` is filled with. -/
  httpCodeOut : Option Text := none
  /-- What `idInOut` is filled with. -/
  idInOut : Option Text := none
  /-- What curl has been given of the payload. -/
  copies : List PayloadCopy := []

/-- A string made of a `const char*`: there is none of NULL. -/
def stdString : Option Text → Except Fault Text
  | none => .error .nullPointer
  | some s => .ok s

namespace EpicState

/-- The request for a PID, and what comes of it: nothing where curl gives no handle. -/
def perform (S : EpicState) (curl : PutRequest → Option Transfer)
    (value uuid url handlePrefix key certificate : Text) : Registration × EpicState :=
  let pid := handlePrefix ++ '/' :: uuid
  let payload := payload value handlePrefix
  let request : PutRequest :=
    { url := url ++ '/' :: pid
      headers := ["Content-Type: application/json".toList,
        "Authorization: Handle clientCert=\"true\"".toList]
      sslKey := key
      sslCert := certificate
      payload := payload
      infileSize := (BitVec.ofNat 64 payload.length).toInt }
  match curl request with
  | none => ({ status := .success }, S)
  | some transfer =>
    let (copies, S) := S.upload payload transfer.requests
    match transfer.response with
    | none => ({ status := .sysInternalNullInputErr, copies := copies }, S)
    | some code =>
      ({ status := .success
         httpCodeOut := some (JsonText.intText code)
         idInOut := if code = 200 ∨ code = 201 then some pid else none
         copies := copies }, S)

/-- The payload of a registration is delivered as any other. -/
theorem perform_delivers (S : EpicState) {curl : PutRequest → Option Transfer}
    {transfer : Transfer} (hcurl : ∀ request, curl request = some transfer)
    (value uuid url handlePrefix key certificate : Text) :
    Delivers (payload value handlePrefix) transfer.requests
      (S.perform curl value uuid url handlePrefix key certificate).1.copies := by
  have hcopies : (S.perform curl value uuid url handlePrefix key certificate).1.copies
      = (S.upload (payload value handlePrefix) transfer.requests).1 := by
    unfold perform
    simp only [hcurl]
    cases transfer.response <;> rfl
  exact hcopies ▸ S.upload_delivers _ _

/-- **`msiRegisterEpicPID`**, called by a user who is privileged or not. -/
def msiRegisterEpicPID (S : EpicState) (curl : PutRequest → Option Transfer)
    (isPrivileged : Bool) (valueIn idInOut : MsParam) : Except Fault (Registration × EpicState) :=
  if !isPrivileged then .ok ({ status := .sysUserNoPermission }, S)
  else if !S.credentials.isLoaded then .ok ({ status := .sysConfigFileErr }, S)
  else match valueIn.type with
  | none => .error .nullPointer
  | some type =>
    if type ≠ .str then .ok ({ status := .sysInvalidInputParam }, S)
    else do
      let value ← stdString valueIn.parseMspForStr
      let uuid ← stdString idInOut.parseMspForStr
      if !S.credentials.has "epic_url".toList then
        .ok ({ status := .success, httpCodeOut := some "0".toList }, S)
      else do
        let url ← stdString (S.credentials.get "epic_url".toList)
        let handlePrefix ← stdString (S.credentials.get "epic_handle_prefix".toList)
        let key ← stdString (S.credentials.get "epic_key".toList)
        let certificate ← stdString (S.credentials.get "epic_certificate".toList)
        .ok (S.perform curl value uuid url handlePrefix key certificate)

/-! ## No string of NULL -/

/-- What a step needs that goes on with a string. -/
theorem stdString_bind_iff {α : Type} (t : Option Text) (f : Text → Except Fault α) :
    (∃ r, (stdString t >>= f) = .ok r) ↔ ∃ s, t = some s ∧ ∃ r, f s = .ok r := by
  cases t with
  | none => exact iff_of_false (fun ⟨_, h⟩ => nomatch h) (fun ⟨_, h, _⟩ => nomatch h)
  | some s => exact ⟨fun h => ⟨s, rfl, h⟩, fun ⟨_, hs, h⟩ => Option.some.inj hs ▸ h⟩

/-- The credentials a document has to have, once it has the URL. -/
def requiredKeys : List Text :=
  ["epic_url".toList, "epic_handle_prefix".toList, "epic_key".toList, "epic_certificate".toList]

/-- The document names no EPIC server, or has all that is needed as strings. -/
def Configured (document : Json) : Prop :=
  document.objectGet "epic_url".toList = none
    ∨ ∀ key ∈ requiredKeys, ∃ s, document.objectGet key = some (.string s)

/-- What `get` finds is a member that is a string. -/
theorem get_eq_some_iff {document : Json} {key s : Text} :
    (CredentialsStore.mk (some document)).get key = some s
      ↔ document.objectGet key = some (.string s) := by
  show (document.objectGet key).bind Json.stringValue = some s ↔ _
  rw [Option.bind_eq_some_iff]
  constructor
  · rintro ⟨v, hv, hs⟩
    cases v with
    | string t => exact hv.trans (congrArg _ (congrArg _ (Option.some.inj hs)))
    | _ => exact nomatch hs
  · exact fun h => ⟨_, h, rfl⟩

/-- The four credentials can be made strings of where the document has them as strings. -/
theorem credentials_ok_iff {α : Type} (document : Json) (r₀ : α)
    (f : Text → Text → Text → Text → α) :
    (∃ r : α, (if !(CredentialsStore.mk (some document)).has "epic_url".toList then .ok r₀
      else do
        let url ← stdString ((CredentialsStore.mk (some document)).get "epic_url".toList)
        let handlePrefix ←
          stdString ((CredentialsStore.mk (some document)).get "epic_handle_prefix".toList)
        let key ← stdString ((CredentialsStore.mk (some document)).get "epic_key".toList)
        let certificate ←
          stdString ((CredentialsStore.mk (some document)).get "epic_certificate".toList)
        .ok (f url handlePrefix key certificate) : Except Fault α) = .ok r)
      ↔ Configured document := by
  have hhas : (CredentialsStore.mk (some document)).has "epic_url".toList
      = (document.objectGet "epic_url".toList).isSome := rfl
  rw [hhas]
  cases hurl : document.objectGet "epic_url".toList with
  | none => exact iff_of_true ⟨_, rfl⟩ (.inl hurl)
  | some v =>
    have hstrings : Configured document
        ↔ ∀ key ∈ requiredKeys, ∃ s, document.objectGet key = some (.string s) :=
      or_iff_right (fun hnone => nomatch hnone.symm.trans hurl)
    rw [hstrings]
    simp only [Option.isSome_some, Bool.not_true, Bool.false_eq_true, if_false,
      stdString_bind_iff, get_eq_some_iff, requiredKeys, List.forall_mem_cons]
    constructor
    · rintro ⟨url, hurl, handlePrefix, hprefix, key, hkey, certificate, hcertificate, -⟩
      exact ⟨⟨url, hurl⟩, ⟨handlePrefix, hprefix⟩, ⟨key, hkey⟩, ⟨certificate, hcertificate⟩,
        fun _ h => nomatch h⟩
    · rintro ⟨⟨url, hurl⟩, ⟨handlePrefix, hprefix⟩, ⟨key, hkey⟩, ⟨certificate, hcertificate⟩, -⟩
      exact ⟨url, hurl, handlePrefix, hprefix, key, hkey, certificate, hcertificate, _, rfl⟩

/-- **A registration makes no string of NULL** exactly when its two parameters can be read
and the store, if it names an EPIC server, has all four credentials as strings. -/
theorem msiRegisterEpicPID_ok_iff (S : EpicState) (curl : PutRequest → Option Transfer)
    (isPrivileged : Bool) {valueIn : MsParam} (idInOut : MsParam)
    (htype : valueIn.type = some .str) :
    (∃ r, S.msiRegisterEpicPID curl isPrivileged valueIn idInOut = .ok r)
      ↔ (isPrivileged = true → ∀ document, S.credentials.store = some document →
          (∃ value, valueIn.parseMspForStr = some value)
            ∧ (∃ uuid, idInOut.parseMspForStr = some uuid) ∧ Configured document) := by
  unfold msiRegisterEpicPID
  cases isPrivileged with
  | false => exact iff_of_true ⟨_, rfl⟩ (fun h => nomatch h)
  | true =>
    obtain ⟨⟨store⟩, length⟩ := S
    cases store with
    | none => exact iff_of_true ⟨_, rfl⟩ (fun _ _ h => nomatch h)
    | some document =>
      rw [htype]
      constructor
      · intro h _ document' hdocument
        obtain ⟨value, hvalue, h⟩ := (stdString_bind_iff _ _).mp h
        obtain ⟨uuid, huuid, h⟩ := (stdString_bind_iff _ _).mp h
        exact ⟨⟨value, hvalue⟩, ⟨uuid, huuid⟩,
          Option.some.inj hdocument ▸ (credentials_ok_iff document _ _).mp h⟩
      · intro h
        obtain ⟨⟨value, hvalue⟩, ⟨uuid, huuid⟩, hconfigured⟩ := h rfl document rfl
        exact (stdString_bind_iff _ _).mpr ⟨value, hvalue, (stdString_bind_iff _ _).mpr
          ⟨uuid, huuid, (credentials_ok_iff document _ _).mpr hconfigured⟩⟩

namespace Sample

/-- A store with all that is needed. -/
def configured : Json :=
  .object [("epic_url".toList, .string "https://epic".toList),
    ("epic_handle_prefix".toList, .string "21.T12995".toList),
    ("epic_key".toList, .string "epic.key".toList),
    ("epic_certificate".toList, .string "epic.pem".toList)]

/-- The same without the key. -/
def withoutKey : Json := configured.objectDel "epic_key".toList

/-- An agent with a store. -/
def agent (document : Json) : EpicState := ⟨⟨some document⟩, 0⟩

/-- Curl gives no handle. -/
def noCurl (_ : PutRequest) : Option Transfer := none

end Sample

theorem msiRegisterEpicPID_ok_configured :
    ∃ r, (Sample.agent Sample.configured).msiRegisterEpicPID Sample.noCurl true
        (.ofText "https://data".toList) (.ofText "1".toList) = .ok r :=
  (msiRegisterEpicPID_ok_iff _ _ _ _ rfl).mpr fun _ document hdocument =>
    ⟨⟨_, rfl⟩, ⟨_, rfl⟩, .inr (Option.some.inj hdocument ▸ by
      simp only [requiredKeys, List.forall_mem_cons]
      exact ⟨⟨_, rfl⟩, ⟨_, rfl⟩, ⟨_, rfl⟩, ⟨_, rfl⟩, fun _ h => nomatch h⟩)⟩

/-- A missing key is made a string of, and so is the text `null`, without any EPIC server. -/
theorem msiRegisterEpicPID_nullPointer :
    (Sample.agent Sample.withoutKey).msiRegisterEpicPID Sample.noCurl true
        (.ofText "https://data".toList) (.ofText "1".toList) = .error .nullPointer
      ∧ (Sample.agent (.object [])).msiRegisterEpicPID Sample.noCurl true
        (.ofText "null".toList) (.ofText "1".toList) = .error .nullPointer :=
  ⟨rfl, rfl⟩

end EpicState
