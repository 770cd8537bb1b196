import NextgenDatabases.Wal.Recovery

/-!
# Decoding and encoding again

An accepted frame is what the decoded entry encodes to, unless bytes stand behind its payload
or its timestamp is out of range. The parser passes over the first and replaces the second.
-/
namespace NextgenDatabases.Wal

open Foundations

theorem result_bind_ok {α β : Type} {x : WalResult α} {f : α → WalResult β} {b : β} :
    x >>= f = .ok b ↔ ∃ a, x = .ok a ∧ f a = .ok b := by
  cases x with
  | error e =>
    constructor
    · intro h
      cases h
    · rintro ⟨a, ha, -⟩
      cases ha
  | ok a => simp [bind, Except.bind]

theorem WalOperation.toByte_of_fromByte {b : UInt8} {op : WalOperation}
    (h : fromByte b = .ok op) : op.toByte = b := by
  unfold fromByte at h
  split at h <;> cases h <;> rfl

theorem WalModality.toByte_of_fromByte {b : UInt8} {m : WalModality}
    (h : fromByte b = .ok m) : m.toByte = b := by
  unfold fromByte at h
  split at h <;> cases h <;> rfl

theorem asBytes_of_fromUtf8 {bytes : Bytes} {s : String} (h : fromUtf8 bytes = .ok s) :
    asBytes s = bytes := by
  unfold fromUtf8 at h
  split at h
  · next found heq =>
    cases h
    unfold String.fromUTF8? at heq
    split at heq
    · next hvalid =>
      cases heq
      rfl
    · cases heq
  · cases h

/-- The time has no part below a millisecond. -/
def DateTime.Whole (t : DateTime) : Prop := t.subsecNanos % 10 ^ 6 = 0

/-- The time lies in a leap second. -/
def DateTime.Leap (t : DateTime) : Prop := 10 ^ 9 ≤ t.subsecNanos

instance (t : DateTime) : Decidable t.Whole := inferInstanceAs (Decidable (_ = _))

instance (t : DateTime) : Decidable t.Leap := inferInstanceAs (Decidable (_ ≤ _))

/-- Exactly the whole milliseconds outside of leap seconds are given by their number. -/
theorem DateTime.floorMillis_eq_iff (t : DateTime) : t.floorMillis = t ↔ t.Whole ∧ ¬ t.Leap := by
  obtain ⟨timestamp, subsecNanos, second, lower, upper⟩ := t
  simp only [Whole, Leap, DateTime.floorMillis, DateTime.ofMillis, DateTime.timestampMillis,
    DateTime.mk.injEq]
  omega

namespace WalEntry

variable {crc : Bytes → UInt32} {now : DateTime} {data : Bytes} {e : WalEntry}

theorem stored_eq_iff : e.stored = e ↔ e.timestamp.Whole ∧ ¬ e.timestamp.Leap := by
  rw [← DateTime.floorMillis_eq_iff]
  constructor
  · intro h
    exact congrArg timestamp h
  · intro h
    rw [stored, h]

/-! ### What the parser has read -/

/-- Everything behind the checksum, with these bytes where the timestamp stands. -/
def innerAt (e : WalEntry) (time : Bytes) : Bytes :=
  toLe 8 e.sequence.toNat ++ (time ++ ([e.operation.toByte] ++ ([e.modality.toByte] ++
    (toLe 4 (asBytes e.entityId).length ++ (asBytes e.entityId ++
      (toLe 4 e.payload.length ++ e.payload))))))

theorem inner_eq (e : WalEntry) : e.inner = e.innerAt (toLeSigned e.timestamp.timestampMillis) :=
  rfl

theorem bytesAt_ok {off len : ℕ} {b : Bytes} (h : bytesAt data off len = .ok b) :
    b.length = len ∧ data.drop off = b ++ data.drop (off + len) ∧ b = slice data off len := by
  unfold bytesAt at h
  split at h
  · cases h
  · next hlen =>
    cases h
    refine ⟨length_slice (not_lt.mp hlen), ?_, rfl⟩
    rw [slice, ← List.drop_drop, List.take_append_drop]

theorem byteAt_ok {off : ℕ} {b : UInt8} (h : byteAt data off = .ok b) :
    data.drop off = [b] ++ data.drop (off + 1) := by
  unfold byteAt at h
  cases hbytes : bytesAt data off 1 with
  | error error =>
    rw [hbytes] at h
    cases h
  | ok bs =>
    rw [hbytes] at h
    cases h
    obtain ⟨hlen, hdrop, -⟩ := bytesAt_ok hbytes
    obtain ⟨b, rfl⟩ := List.length_eq_one_iff.mp hlen
    exact hdrop

/-- The number of bytes that the fields of an entry take, by the lengths in it. -/
def declaredInner (data : Bytes) : ℕ :=
  26 + ofLe (slice data 18 4) + ofLe (slice data (22 + ofLe (slice data 18 4)) 4)

/-- What an entry is parsed from: its fields, with a timestamp that is read as `now` if it is
out of range, and any bytes behind them. -/
theorem parseInner_ok (h : parseInner now data = .ok e) :
    data = e.innerAt (slice data 8 8) ++ data.drop (declaredInner data) ∧
      (slice data 8 8).length = 8 ∧ declaredInner data ≤ data.length ∧
      e.timestamp = (DateTime.timestampMillisOpt (ofLeSigned (slice data 8 8))).getD now := by
  simp only [parseInner, result_bind_ok] at h
  obtain ⟨seq, hseq, time, htime, opByte, hopByte, op, hop, modByte, hmodByte, m, hm, idLen, hidLen,
    id, hid, s, hs, payLen, hpayLen, pay, hpay, he⟩ := h
  cases he
  obtain ⟨hseqLen, hseq, -⟩ := bytesAt_ok hseq
  obtain ⟨htimeLen, htime, rfl⟩ := bytesAt_ok htime
  have hopByte := byteAt_ok hopByte
  have hmodByte := byteAt_ok hmodByte
  obtain ⟨hidLenLen, hidLen, rfl⟩ := bytesAt_ok hidLen
  obtain ⟨hidLength, hid, -⟩ := bytesAt_ok hid
  obtain ⟨hpayLenLen, hpayLen, rfl⟩ := bytesAt_ok hpayLen
  have hpayBytes := hpay
  obtain ⟨hpayLength, hpay, -⟩ := bytesAt_ok hpay
  have hfit : 26 + ofLe (slice data 18 4) + pay.length ≤ data.length := by
    unfold bytesAt at hpayBytes
    split at hpayBytes
    · cases hpayBytes
    · omega
  have hseqLt : ofLe seq < 2 ^ 64 := by simpa [hseqLen] using ofLe_lt seq
  have hseqBytes : toLe 8 (UInt64.ofNat (ofLe seq)).toNat = seq := by
    rw [UInt64.toNat_ofNat_of_lt' hseqLt, toLe_ofLe_of_length hseqLen]
  have hidBytes : asBytes s = id := asBytes_of_fromUtf8 hs
  have hidLenBytes : toLe 4 id.length = slice data 18 4 := by
    rw [hidLength, toLe_ofLe_of_length hidLenLen]
  have hpayLenBytes : toLe 4 pay.length = slice data (22 + ofLe (slice data 18 4)) 4 := by
    rw [hpayLength, toLe_ofLe_of_length hpayLenLen]
  have hnext : 22 + ofLe (slice data 18 4) + 4 = 26 + ofLe (slice data 18 4) := by omega
  rw [hnext] at hpayLen
  have hdata : data.drop 0 = seq ++ (slice data 8 8 ++ ([opByte] ++ ([modByte] ++
      (slice data 18 4 ++ (id ++ (slice data (22 + ofLe (slice data 18 4)) 4 ++
        (pay ++ data.drop (declaredInner data)))))))) := by
    rw [hseq, htime, hopByte, hmodByte, hidLen, hid, hpayLen, hpay]
    rfl
  refine ⟨?_, htimeLen, ?_, rfl⟩
  · simpa only [innerAt, hseqBytes, WalOperation.toByte_of_fromByte hop,
      WalModality.toByte_of_fromByte hm, hidBytes, hidLenBytes, hpayLenBytes, List.append_assoc,
      List.drop_zero] using hdata
  · rw [declaredInner, ← hpayLength]
    exact hfit

theorem length_innerAt (e : WalEntry) (time : Bytes) :
    (e.innerAt time).length = 18 + time.length + (asBytes e.entityId).length + e.payload.length := by
  simp [innerAt]
  omega

/-! ### Encoding what was decoded -/

theorem deserialize_ok {n : ℕ} (h : deserialize crc now data n = .ok e) :
    (data.take n).length = n ∧ n < 2 ^ 32 ∧
      (data.take n).take 4 = toLe 4 (crc ((data.take n).drop 4)).toNat ∧
      parseInner now ((data.take n).drop 4) = .ok e := by
  unfold deserialize at h
  split at h
  · cases h
  · next hlen =>
    have hmod := Nat.mod_lt data.length (by decide : 0 < 2 ^ 32)
    have htake : (data.take n).length = n := by
      rw [List.length_take]
      exact min_eq_left ((not_lt.mp hlen).trans (Nat.mod_le _ _))
    dsimp only at h
    split at h
    · cases h
    · next hshort =>
      split at h
      · cases h
      · next hcrc =>
        refine ⟨htake, (not_lt.mp hlen).trans_lt hmod, ?_, h⟩
        have hfour : ((data.take n).take 4).length = 4 := by
          rw [List.length_take]
          exact min_eq_left (not_lt.mp hshort)
        have hlt : ofLe ((data.take n).take 4) < 2 ^ 32 := by
          have hbound := ofLe_lt ((data.take n).take 4)
          rwa [hfour] at hbound
        rw [← not_not.mp hcrc, UInt32.toNat_ofNat_of_lt' hlt, toLe_ofLe_of_length hfour]

/-- The fields of a decoded entry were in the frame. -/
theorem length_of_deserialize {n : ℕ} (h : deserialize crc now data n = .ok e) :
    30 + (asBytes e.entityId).length + e.payload.length ≤ n := by
  obtain ⟨hlen, -, hcrc, hparse⟩ := deserialize_ok h
  obtain ⟨hdata, htime, -⟩ := parseInner_ok hparse
  have hinner := congrArg List.length hdata
  have hfour := congrArg List.length hcrc
  rw [List.length_append, length_innerAt, htime, List.length_drop] at hinner
  rw [List.length_take, length_toLe] at hfour
  omega

/-- Nothing stands behind the payload, and the timestamp is in range. -/
structure Canonical (inner : Bytes) : Prop where
  length : declaredInner inner = inner.length
  timestamp : DateTime.timestampMillisOpt (ofLeSigned (slice inner 8 8)) ≠ none

/-- The parsed entry encodes to the bytes that it was parsed from, if they are canonical. -/
theorem inner_eq_iff (h : parseInner now data = .ok e) : e.inner = data ↔ Canonical data := by
  obtain ⟨hdata, htime, hle, hstamp⟩ := parseInner_ok h
  constructor
  · intro heq
    have hslice : slice data 8 8 = toLeSigned e.timestamp.timestampMillis := by
      rw [← heq]
      exact e.slice_inner.2.1
    have hrange := e.timestamp.timestampMillis_range
    constructor
    · have hlen := congrArg List.length hdata
      rw [List.length_append, length_innerAt, htime, List.length_drop, ← heq, length_inner] at hlen
      rw [← heq] at hle
      rw [← heq, length_inner] at *
      omega
    · rw [hslice, ofLeSigned_toLeSigned (by rw [minMillis] at hrange; omega)
        (by rw [maxMillis] at hrange; omega), DateTime.timestampMillisOpt_timestampMillis]
      exact Option.some_ne_none _
  · intro hcanonical
    obtain ⟨t, ht⟩ := Option.ne_none_iff_exists'.mp hcanonical.timestamp
    rw [ht, Option.getD_some] at hstamp
    have hmillis : t.timestampMillis = ofLeSigned (slice data 8 8) := by
      unfold DateTime.timestampMillisOpt at ht
      split at ht
      · cases ht
        exact DateTime.timestampMillis_ofMillis _
      · cases ht
    rw [inner_eq, hstamp, hmillis, toLeSigned_ofLeSigned htime]
    rw [hcanonical.length, List.drop_length, List.append_nil] at hdata
    exact hdata.symm

theorem serialize_eq_iff {n : ℕ} (h : deserialize crc now data n = .ok e) :
    e.serialize crc = toLe 4 n ++ data.take n ↔ Canonical ((data.take n).drop 4) := by
  obtain ⟨hlen, -, hcrc, hparse⟩ := deserialize_ok h
  rw [← inner_eq_iff hparse]
  constructor
  · intro heq
    have hinner : (e.serialize crc).drop 8 = e.inner := by
      rw [serialize, ← List.append_assoc]
      exact List.drop_left' (by simp)
    have hbody : (toLe 4 n ++ data.take n).drop 8 = (data.take n).drop 4 := by
      rw [List.drop_append, List.drop_of_length_le (by simp), length_toLe]
      rfl
    rw [← hinner, heq, hbody]
  · intro heq
    have hbody : data.take n = toLe 4 (crc e.inner).toNat ++ e.inner := by
      rw [heq, ← hcrc, List.take_append_drop]
    have hn : 4 + e.inner.length = n := by
      rw [← hlen, hbody, List.length_append, length_toLe]
    rw [serialize, hn, ← hbody]

theorem deserialize_serialize (h : e.Fits crc) (now : DateTime) :
    deserialize crc now ((e.serialize crc).drop 4) (ofLe ((e.serialize crc).take 4)) =
      .ok e.stored := by
  have hbody := h.framable.1
  have htake : (e.serialize crc).take 4 = toLe 4 (e.body crc).length := by
    rw [serialize_eq_frame]
    exact List.take_left' (length_toLe 4 _)
  have hdrop : (e.serialize crc).drop 4 = e.body crc := by
    rw [serialize_eq_frame]
    exact List.drop_left' (length_toLe 4 _)
  rw [htake, hdrop, ofLe_toLe_of_lt hbody]
  exact deserialize_body h now

/-- An entry is read back from its frame if and only if its time is a whole millisecond and in no
leap second. A frame that is accepted is the encoding of what it is read as if and only if it is
canonical, so two canonical frames that are read as the same entry are the same. -/
theorem codec (crc : Bytes → UInt32) :
    (∀ e : WalEntry, e.Fits crc → ∀ now,
      (deserialize crc now ((e.serialize crc).drop 4) (ofLe ((e.serialize crc).take 4)) = .ok e ↔
        e.timestamp.Whole ∧ ¬ e.timestamp.Leap)) ∧
    (∀ now data n e, deserialize crc now data n = .ok e →
      (e.serialize crc = toLe 4 n ++ data.take n ↔ Canonical ((data.take n).drop 4))) ∧
    ∀ now now' data data' n n' e, deserialize crc now data n = .ok e →
      deserialize crc now' data' n' = .ok e → Canonical ((data.take n).drop 4) →
      Canonical ((data'.take n').drop 4) → toLe 4 n ++ data.take n = toLe 4 n' ++ data'.take n' := by
  refine ⟨?_, fun now data n e h => serialize_eq_iff h, ?_⟩
  · intro e hfits now
    rw [deserialize_serialize hfits, Except.ok.injEq, stored_eq_iff]
  · intro now now' data data' n n' e h h' hcanonical hcanonical'
    rw [← (serialize_eq_iff h).mpr hcanonical, (serialize_eq_iff h').mpr hcanonical']

open Log (crc32 epoch inserted)

/-- The body of a frame with these bytes behind the checksum. -/
def sealed (inner : Bytes) : Bytes := toLe 4 (crc32 inner).toNat ++ inner

theorem codec_inserted :
    deserialize crc32 epoch (sealed inserted.inner) 30 = .ok inserted ∧
      Canonical inserted.inner ∧ inserted.serialize crc32 = toLe 4 30 ++ sealed inserted.inner := by
  have hread : deserialize crc32 epoch (sealed inserted.inner) 30 = .ok inserted :=
    ((codec crc32).1 inserted (by decide) epoch).mpr ⟨rfl, by decide⟩
  have hcanonical : Canonical inserted.inner := ⟨by decide, by decide⟩
  exact ⟨hread, hcanonical, ((codec crc32).2.1 epoch _ 30 _ hread).mpr hcanonical⟩

/-- A byte behind the payload, and a millisecond too late for the range of `DateTime`. -/
def longer : Bytes := inserted.inner ++ [0]
def tooLate : Bytes := inserted.innerAt (toLeSigned (maxMillis + 1))

/-- The leap second at the end of the year 2016. -/
def leapSecond : DateTime := ⟨1483228799, 10 ^ 9, by decide, by decide, by decide⟩

theorem other_frames :
    deserialize crc32 epoch (sealed longer) 31 = .ok inserted ∧
      inserted.serialize crc32 ≠ toLe 4 31 ++ sealed longer ∧
      deserialize crc32 epoch (sealed tooLate) 30 = .ok inserted ∧
      inserted.serialize crc32 ≠ toLe 4 30 ++ sealed tooLate ∧
      leapSecond.Whole ∧ { inserted with timestamp := leapSecond }.Fits crc32 ∧
      deserialize crc32 epoch (({ inserted with timestamp := leapSecond }.serialize crc32).drop 4) 30
        ≠ .ok { inserted with timestamp := leapSecond } := by
  decide +kernel

end WalEntry

end NextgenDatabases.Wal
