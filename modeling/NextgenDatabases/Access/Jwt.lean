import NextgenDatabases.Foundations.Base64
import NextgenDatabases.Access.Rbac

/-!
# Bearer tokens

A token has a header, a payload and a signature of the two, each in base64. What hashes and what
reads JSON are parameters.
-/
namespace NextgenDatabases.Access

open Foundations

/-! ### Base64 -/

def equals : UInt8 := 0x3d

def dot : UInt8 := 0x2e

/-- `char_to_val` -/
def charToVal (c : UInt8) : Except String UInt8 :=
  if c = equals then .ok 0
  else
    match Base64.alphabet.idxOf? c with
    | some p => .ok (.ofNat p)
    | none => .error "invalid base64 character"

/-- The loop of `base64_decode` over the chunks; padding is looked for in every chunk. -/
def decodeChunks : Bytes → Except String Bytes
  | chunk0 :: chunk1 :: chunk2 :: chunk3 :: rest => do
    let a ← charToVal chunk0
    let b ← charToVal chunk1
    let c ← charToVal chunk2
    let d ← charToVal chunk3
    let result ← decodeChunks rest
    .ok ((a <<< 2 ||| b >>> 4) ::
      ((if chunk2 ≠ equals then [b <<< 4 ||| c >>> 2] else []) ++
        (if chunk3 ≠ equals then [c <<< 6 ||| d] else []) ++ result))
  | _ => .ok []

def base64Decode (input : Bytes) : Except String Bytes :=
  if input.length % 4 ≠ 0 then .error "invalid base64 length" else decodeChunks input

/-- A character of the alphabet that is safe in a URL is replaced by that of the standard one. -/
def standard (c : UInt8) : UInt8 :=
  if c = Base64.hyphen then Base64.plus else if c = Base64.underscore then Base64.slash else c

def padded (input : Bytes) : Except String Bytes :=
  if input.length % 4 = 2 then .ok (input ++ [equals, equals])
  else if input.length % 4 = 3 then .ok (input ++ [equals])
  else if input.length % 4 = 0 then .ok input
  else .error "invalid base64url length"

def base64urlDecode (input : Bytes) : Except String Bytes := do
  let padded ← padded input
  base64Decode (padded.map standard)

/-! ### Tokens -/

structure AuthConfig where
  enabled : Bool
  allowPublicHealth : Bool
  rateLimitPerMinute : ℕ
  jwtSecret : Option Bytes
  rateLimitPerMinute_lt : rateLimitPerMinute < 2 ^ 32

/-- `AuthConfig::default` -/
def AuthConfig.default : AuthConfig where
  enabled := false
  allowPublicHealth := true
  rateLimitPerMinute := 0
  jwtSecret := none
  rateLimitPerMinute_lt := by decide

/-- A `serde_json::Value`; a number that is no `i64` is as good as any other value. -/
inductive Value
  | i64 (n : Int64)
  | string (s : String)
  | object (fields : List (String × Value))
  | other

def Value.get (value : Value) (key : String) : Option Value :=
  match value with
  | object fields => fields.lookup key
  | _ => none

def Value.asI64 : Value → Option Int64
  | i64 n => some n
  | _ => none

def Value.asStr : Value → Option String
  | string s => some s
  | _ => none

/-- Who the claims say that the client is. -/
def Value.client (claims : Value) : ClientIdentity where
  id := ((claims.get "sub").bind asStr).getD "unknown"
  role :=
    match (claims.get "role").bind asStr with
    | some "admin" => .admin
    | some "writer" => .writer
    | _ => .reader

section Validation

variable (sha256 : Bytes → Digest) (fromSlice : Bytes → Option Value)

def hmacSha256 (data key : Bytes) : Bytes :=
  let key := if key.length > 64 then (sha256 key).toList else key
  let keyBlock := key ++ List.replicate (64 - key.length) 0
  let ipad := keyBlock.map fun b => 0x36 ^^^ b
  let opad := keyBlock.map fun b => 0x5c ^^^ b
  let innerHash := sha256 (ipad ++ data)
  (sha256 (opad ++ innerHash.toList)).toList

/-- The end of `validate_jwt`. -/
def readClaims (payloadBytes : Bytes) (now : UInt64) : Except String ClientIdentity :=
  match fromSlice payloadBytes with
  | none => .error "Invalid JWT payload"
  | some claims =>
    if ((claims.get "exp").bind Value.asI64).any fun exp => now.toInt64 > exp then
      .error "JWT token expired"
    else .ok claims.client

/-- `validate_jwt` at the time `now`, in seconds since 1970. -/
def validateJwt (token : Bytes) (config : AuthConfig) (now : UInt64) :
    Except String ClientIdentity :=
  match config.jwtSecret with
  | none => .error "JWT authentication not configured"
  | some secret =>
    match token.splitOn dot with
    | [header, payload, signature] =>
      match base64urlDecode payload with
      | .error _ => .error "Invalid JWT payload encoding"
      | .ok payloadBytes =>
        let signingInput := header ++ dot :: payload
        let expectedSig := hmacSha256 sha256 signingInput secret
        match base64urlDecode signature with
        | .error _ => .error "Invalid JWT signature encoding"
        | .ok actualSig =>
          if expectedSig ≠ actualSig then .error "Invalid JWT signature"
          else readClaims fromSlice payloadBytes now
    | _ => .error "Invalid JWT format"

end Validation

/-! ### What is decoded -/

theorem charToVal_digit {value : UInt8} (h : value.toNat < 64) :
    charToVal (standard (Base64.digit value)) = .ok value ∧
      standard (Base64.digit value) ≠ equals := by
  refine Base64.forall_lt (n := 64) (P := fun value => charToVal (standard (Base64.digit value)) =
    .ok value ∧ standard (Base64.digit value) ≠ equals) ?_ h
  decide +kernel

/-- The padding that `padded` adds to a text for so many bytes. -/
def padding (n : ℕ) : Bytes := List.replicate ((3 - n % 3) % 3) equals

theorem padded_encode (data : Bytes) :
    padded (Base64.encode data) = .ok (Base64.encode data ++ padding data.length) := by
  have hlength := Base64.length_encode data
  have hmod : data.length % 3 = 0 ∨ data.length % 3 = 1 ∨ data.length % 3 = 2 := by omega
  rcases hmod with h | h | h
  · simp [padded, padding, hlength, h]
  · have hfour : (Base64.encode data).length % 4 = 2 := by
      rw [hlength, h]
      simp
    simp [padded, padding, hfour, h]
  · have hfour : (Base64.encode data).length % 4 = 3 := by
      rw [hlength, h]
      simp
    simp [padded, padding, hfour, h]

theorem decodeChunks_cons {chunk0 chunk1 chunk2 chunk3 a b c d : UInt8} {rest result : Bytes}
    (h0 : charToVal chunk0 = .ok a) (h1 : charToVal chunk1 = .ok b)
    (h2 : charToVal chunk2 = .ok c) (h3 : charToVal chunk3 = .ok d)
    (hrest : decodeChunks rest = .ok result) :
    decodeChunks (chunk0 :: chunk1 :: chunk2 :: chunk3 :: rest) =
      .ok ((a <<< 2 ||| b >>> 4) ::
        ((if chunk2 ≠ equals then [b <<< 4 ||| c >>> 2] else []) ++
          (if chunk3 ≠ equals then [c <<< 6 ||| d] else []) ++ result)) := by
  rw [decodeChunks, h0, h1, h2, h3, hrest]
  rfl

theorem decodeChunks_nil : decodeChunks [] = .ok [] := rfl

theorem standard_equals : standard equals = equals := by decide

theorem charToVal_equals : charToVal (standard equals) = .ok 0 := by decide

/-- The loop reads each group of digits back, and what is left of the bytes with the padding. -/
theorem decodeChunks_encode (data : Bytes) :
    decodeChunks ((Base64.encode data ++ padding data.length).map standard) = .ok data := by
  fun_induction Base64.encode data with
  | case1 => rfl
  | case2 a =>
    obtain ⟨h1, -⟩ := charToVal_digit (Base64.first_lt a)
    obtain ⟨h2, -⟩ := charToVal_digit (Base64.second_lt a 0)
    have h := decodeChunks_cons h1 h2 charToVal_equals charToVal_equals decodeChunks_nil
    simpa [padding, standard_equals, Base64.joins_first] using h
  | case3 a b =>
    obtain ⟨h1, -⟩ := charToVal_digit (Base64.first_lt a)
    obtain ⟨h2, -⟩ := charToVal_digit (Base64.second_lt a b)
    obtain ⟨h3, hne⟩ := charToVal_digit (Base64.third_lt b 0)
    have h := decodeChunks_cons h1 h2 h3 charToVal_equals decodeChunks_nil
    simpa [padding, standard_equals, hne, Base64.joins_first, Base64.joins_second] using h
  | case4 a b c rest ih =>
    obtain ⟨h1, -⟩ := charToVal_digit (Base64.first_lt a)
    obtain ⟨h2, -⟩ := charToVal_digit (Base64.second_lt a b)
    obtain ⟨h3, hne⟩ := charToVal_digit (Base64.third_lt b c)
    obtain ⟨h4, hne'⟩ := charToVal_digit (Base64.fourth_lt c)
    have h := decodeChunks_cons h1 h2 h3 h4 ih
    have hpadding : padding (rest.length + 1 + 1 + 1) = padding rest.length := by
      simp [padding, Nat.add_assoc]
    simpa [hpadding, hne, hne', Base64.joins_first, Base64.joins_second, Base64.joins_third] using h

theorem length_padded (data : Bytes) :
    (Base64.encode data ++ padding data.length).length % 4 = 0 := by
  rw [List.length_append, Base64.length_encode, padding, List.length_replicate]
  split_ifs <;> omega

/-- What is encoded without padding is decoded. -/
theorem base64urlDecode_encode (data : Bytes) :
    base64urlDecode (Base64.encode data) = .ok data := by
  have hlength : ((Base64.encode data ++ padding data.length).map standard).length % 4 = 0 := by
    rw [List.length_map]
    exact length_padded data
  calc base64urlDecode (Base64.encode data)
      = base64Decode ((Base64.encode data ++ padding data.length).map standard) := by
        rw [base64urlDecode, padded_encode]
        rfl
    _ = decodeChunks ((Base64.encode data ++ padding data.length).map standard) := by
        rw [base64Decode, if_neg (not_not.mpr hlength)]
    _ = .ok data := decodeChunks_encode data

/-! ### Which tokens are accepted -/

section Signatures

variable (sha256 : Bytes → Digest) (fromSlice : Bytes → Option Value)

/-- Of the three parts of the token the last is the signature of the others by the secret. -/
def SignedBy (secret token payloadBytes : Bytes) : Prop :=
  ∃ header payload signature, token.splitOn dot = [header, payload, signature] ∧
    base64urlDecode payload = .ok payloadBytes ∧
    base64urlDecode signature = .ok (hmacSha256 sha256 (header ++ dot :: payload) secret)

/-- The token with this header and payload that is signed by the secret. -/
def mint (secret header payload : Bytes) : Bytes :=
  let signingInput := Base64.encode header ++ dot :: Base64.encode payload
  signingInput ++ dot :: Base64.encode (hmacSha256 sha256 signingInput secret)

variable {sha256 fromSlice} {config : AuthConfig} {secret token : Bytes} {now : UInt64}
  {identity : ClientIdentity}

/-- A token has at most one payload. -/
theorem SignedBy.payload_eq {bytes bytes' : Bytes} (h : SignedBy sha256 secret token bytes)
    (h' : SignedBy sha256 secret token bytes') : bytes = bytes' := by
  obtain ⟨header, payload, signature, hsplit, hpayload, -⟩ := h
  obtain ⟨header', payload', signature', hsplit', hpayload', -⟩ := h'
  simp only [hsplit, List.cons.injEq] at hsplit'
  obtain ⟨-, rfl, -⟩ := hsplit'
  exact Except.ok.inj (hpayload.symm.trans hpayload')

theorem dot_notMem (data : Bytes) : dot ∉ Base64.encode data := by
  have hdigit : ∀ value : UInt8, value.toNat < 64 → Base64.digit value ≠ dot := by
    intro value h
    refine Base64.forall_lt (n := 64) (P := fun value => Base64.digit value ≠ dot) ?_ h
    decide +kernel
  exact fun h => Base64.forall_encode (P := fun c => c ≠ dot) hdigit data dot h rfl

theorem splitOn_dot {a b c : Bytes} (ha : dot ∉ a) (hb : dot ∉ b) (hc : dot ∉ c) :
    (a ++ dot :: b ++ dot :: c).splitOn dot = [a, b, c] := by
  have h : ([dot].intercalate [a, b, c]).splitOn dot = [a, b, c] :=
    List.splitOn_intercalate dot (by simp [ha, hb, hc]) (by simp)
  simpa [List.intercalate] using h

theorem signedBy_mint (secret header payload : Bytes) :
    SignedBy sha256 secret (mint sha256 secret header payload) payload :=
  ⟨_, _, _, splitOn_dot (dot_notMem _) (dot_notMem _) (dot_notMem _), base64urlDecode_encode _,
    base64urlDecode_encode _⟩

theorem validateJwt_iff (hsecret : config.jwtSecret = some secret) :
    validateJwt sha256 fromSlice token config now = .ok identity ↔
      ∃ payloadBytes, SignedBy sha256 secret token payloadBytes ∧
        readClaims fromSlice payloadBytes now = .ok identity := by
  constructor
  · intro h
    rw [validateJwt, hsecret] at h
    dsimp only at h
    split at h
    next header payload signature hsplit =>
      cases hpayload : base64urlDecode payload with
      | error _ => simp [hpayload] at h
      | ok payloadBytes =>
        cases hsignature : base64urlDecode signature with
        | error _ => simp [hpayload, hsignature] at h
        | ok actualSig =>
          simp only [hpayload, hsignature, ne_eq, ite_not] at h
          split_ifs at h with hsig
          exact ⟨payloadBytes, ⟨header, payload, signature, hsplit, hpayload, hsig ▸ hsignature⟩, h⟩
    next => cases h
  · rintro ⟨payloadBytes, ⟨header, payload, signature, hsplit, hpayload, hsignature⟩, h⟩
    rw [validateJwt, hsecret]
    simpa [hsplit, hpayload, hsignature] using h

/-- The bytes are claims of the client that are not expired. -/
def Claims (fromSlice : Bytes → Option Value) (payloadBytes : Bytes) (now : UInt64)
    (identity : ClientIdentity) : Prop :=
  ∃ claims, fromSlice payloadBytes = some claims ∧
    (∀ exp, (claims.get "exp").bind Value.asI64 = some exp → ¬ exp < now.toInt64) ∧
    identity = claims.client

theorem readClaims_iff {payloadBytes : Bytes} :
    readClaims fromSlice payloadBytes now = .ok identity ↔
      Claims fromSlice payloadBytes now identity := by
  unfold readClaims Claims
  cases fromSlice payloadBytes with
  | none => simp
  | some claims =>
    cases hexp : (claims.get "exp").bind Value.asI64 with
    | none => simp [hexp, eq_comm]
    | some exp =>
      by_cases hlate : exp < now.toInt64
      · simp [hexp, hlate]
      · simp only [hexp, Option.any_some, gt_iff_lt, hlate, decide_false, Bool.false_eq_true, if_false,
          Except.ok.injEq, Option.some.injEq, exists_eq_left', forall_eq', not_false_eq_true,
          true_and, eq_comm]

/-- What is encoded without padding is decoded as it was. With a secret a token is accepted exactly
when it is signed by the secret and its claims, which are not expired, are those of the client; so
every token that is minted with the secret is accepted until it expires. -/
theorem accepted_iff_signed (sha256 : Bytes → Digest) (fromSlice : Bytes → Option Value)
    (config : AuthConfig) (secret : Bytes) (now : UInt64) :
    (∀ data, base64urlDecode (Base64.encode data) = .ok data) ∧
    (∀ token identity,
      validateJwt sha256 fromSlice token { config with jwtSecret := some secret } now =
        .ok identity ↔
      ∃ payloadBytes, SignedBy sha256 secret token payloadBytes ∧
        Claims fromSlice payloadBytes now identity) ∧
    ∀ header payload identity,
      validateJwt sha256 fromSlice (mint sha256 secret header payload)
        { config with jwtSecret := some secret } now = .ok identity ↔
      Claims fromSlice payload now identity := by
  refine ⟨base64urlDecode_encode, fun token identity => ?_, fun header payload identity => ?_⟩
  · rw [validateJwt_iff rfl]
    simp only [readClaims_iff]
  · have hmint : SignedBy sha256 secret (mint sha256 secret header payload) payload :=
      signedBy_mint secret header payload
    rw [validateJwt_iff rfl]
    simp only [readClaims_iff]
    constructor
    · rintro ⟨payloadBytes, hsigned, h⟩
      exact hsigned.payload_eq hmint ▸ h
    · exact fun h => ⟨payload, hmint, h⟩

end Signatures

end NextgenDatabases.Access
