import Mathlib
import NextgenDatabases.Lithoglyph.Checked

/-!
# The CBOR decoder without its checks

Where no check fails, the decoder with its checks returns what the one without them returns, and
stops at the same position.
-/
namespace NextgenDatabases.Lithoglyph.Cbor

open Foundations (Bytes ofBe)
open Stateful

variable {data : Bytes} {α β : Type}

/-- The outcome of the first call is that of the second, if no check fails. No depth is needed. -/
def Agrees (data : Bytes) (x : Checked α) (g : Decoder → Except DecodeError (α × Decoder)) : Prop :=
  ∀ pos, match x.run pos with
    | .ok a pos' => g ⟨data, pos⟩ = .ok (a, ⟨data, pos'⟩)
    | .error (.error e) _ => g ⟨data, pos⟩ = .error e
    | .error .exhausted _ => False
    | .error _ _ => True

namespace Agrees

variable {x : Checked α} {g : Decoder → Except DecodeError (α × Decoder)}

theorem ok (h : Agrees data x g) {pos pos' : ℕ} {a : α} (hrun : x.run pos = .ok a pos') :
    g ⟨data, pos⟩ = .ok (a, ⟨data, pos'⟩) := by
  have hpos := h pos
  rwa [hrun] at hpos

theorem error (h : Agrees data x g) {pos pos' : ℕ} {e : DecodeError}
    (hrun : x.run pos = .error (.error e) pos') : g ⟨data, pos⟩ = .error e := by
  have hpos := h pos
  rwa [hrun] at hpos

theorem not_exhausted (h : Agrees data x g) {pos pos' : ℕ} :
    x.run pos ≠ .error .exhausted pos' := by
  intro hrun
  have hpos := h pos
  rwa [hrun] at hpos

theorem pure (a : α) : Agrees data (Pure.pure a) fun self => .ok (a, self) := fun _ => rfl

theorem throw (e : DecodeError) : Agrees data (throw (.error e) : Checked α) fun _ => .error e :=
  fun _ => rfl

theorem bind {f : α → Checked β} {k : α → Decoder → Except DecodeError (β × Decoder)}
    (h : Agrees data x g) (hf : ∀ a, Agrees data (f a) (k a)) :
    Agrees data (x >>= f) fun self => g self >>= fun r => k r.1 r.2 := by
  intro pos
  cases hx : x.run pos with
  | error e pos' =>
    rw [run_bind_error hx]
    cases e with
    | error e =>
      dsimp only
      rw [h.error hx]
      rfl
    | exhausted => exact absurd hx h.not_exhausted
    | _ => trivial
  | ok a pos' =>
    have hbind : (g ⟨data, pos⟩ >>= fun r => k r.1 r.2) = k a ⟨data, pos'⟩ := by
      rw [h.ok hx]
      rfl
    have hrest := hf a pos'
    rw [← hbind] at hrest
    rwa [run_bind_ok hx]

end Agrees

open Checked

theorem readByte_agrees (data : Bytes) : Agrees data (readByte data) Decoder.readByte := by
  intro pos
  cases hb : data[pos]? with
  | none =>
    rw [run_readByte_end (List.getElem?_eq_none_iff.mp hb)]
    simp [Decoder.readByte, hb]
  | some b =>
    have hpos := Checked.lt_length hb
    by_cases hsum : pos + 1 < 2 ^ 64
    · rw [readByte, run_get_bind, if_neg (by omega), run_bind_ok (run_index hb),
        run_bind_ok (run_addUsize hsum), run_set_bind]
      simp [Decoder.readByte, hb, EStateM.run, Pure.pure, EStateM.pure]
    · rw [readByte, run_get_bind, if_neg (by omega), run_bind_ok (run_index hb),
        run_bind_error (run_addUsize_error (not_lt.mp hsum))]
      trivial

theorem readBytes_agrees (data : Bytes) (n : ℕ) :
    Agrees data (readBytes data n) fun self => self.readBytes n := by
  intro pos
  by_cases hsum : pos + n < 2 ^ 64
  · by_cases hend : data.length < pos + n
    · rw [run_readBytes_end hend hsum]
      exact if_pos hend
    · rw [run_readBytes hsum (not_lt.mp hend)]
      exact if_neg hend
  · rw [run_readBytes_overflow (not_lt.mp hsum)]
    trivial

theorem readBig_agrees (data : Bytes) (w : ℕ) :
    Agrees data (readBig data w) fun self => self.readBig w :=
  (readBytes_agrees data w).bind fun bytes => .pure (UInt64.ofNat (ofBe bytes))

theorem readArg_agrees (data : Bytes) (b : UInt8) :
    Agrees data (readArg data (b &&& 31)) fun self => self.readArg (b &&& 31) := by
  cases hw : width b with
  | none =>
    have hplain (self : Decoder) : self.readArg (b &&& 31) = .error .invalidValue := by
      unfold width at hw
      split_ifs at hw with h0 h1 h2 h4 h8
      unfold Decoder.readArg
      rw [if_neg h0]
      split
      · exact absurd ‹_› h1
      · exact absurd ‹_› h2
      · exact absurd ‹_› h4
      · exact absurd ‹_› h8
      · rfl
    rw [readArg_invalid hw, funext hplain]
    exact .throw _
  | some w =>
    rw [readArg_eq hw]
    rcases width_cases hw with ⟨rfl, hb⟩ | ⟨rfl, hb⟩ | ⟨rfl, hb⟩ | ⟨rfl, hb⟩ | ⟨rfl, hb⟩
    · simp only [readArg_lt _ hb]
      exact .pure _
    · rw [hb]
      exact (readByte_agrees data).bind fun b => .pure b.toUInt64
    · rw [hb]
      exact readBig_agrees data 2
    · rw [hb]
      exact readBig_agrees data 4
    · rw [hb]
      exact readBig_agrees data 8

theorem readTypeArg_agrees (data : Bytes) :
    Agrees data (readTypeArg data) Decoder.readTypeArg :=
  (readByte_agrees data).bind fun b =>
    (readArg_agrees data b).bind fun arg => .pure (MajorType.ofByte (b >>> 5), arg)

theorem readMajor_agrees (data : Bytes) (major : MajorType) :
    Agrees data (readMajor data major) fun self => self.readMajor major := by
  refine (readTypeArg_agrees data).bind (k := fun ta self =>
    if ta.1 ≠ major then .error .invalidType else .ok (ta.2, self)) fun ta => ?_
  split_ifs
  · exact .throw _
  · exact .pure _

/-- The integer of a head. -/
def intOf (ta : MajorType × UInt64) (self : Decoder) : Except DecodeError (Int64 × Decoder) :=
  match ta.1 with
  | .unsigned => .ok (ta.2.toInt64, self)
  | .negative => .ok (-1 - ta.2.toInt64, self)
  | _ => .error .invalidType

theorem decodeInt_agrees (data : Bytes) : Agrees data (decodeInt data) Decoder.decodeInt := by
  refine (readTypeArg_agrees data).bind (k := intOf) fun ta => ?_
  unfold intOf
  cases ta.1 with
  | unsigned => exact .pure _
  | negative =>
    intro pos
    rw [Tame.run_subInt]
  | _ => exact .throw _

theorem decodeText_agrees (data : Bytes) : Agrees data (decodeText data) Decoder.decodeText :=
  (readMajor_agrees data .text).bind fun len => readBytes_agrees data len.toNat

theorem decodeBytes_agrees (data : Bytes) : Agrees data (decodeBytes data) Decoder.decodeBytes :=
  (readMajor_agrees data .bytes).bind fun len => readBytes_agrees data len.toNat

/-- The truth value of a byte. -/
def boolOf (b : UInt8) (self : Decoder) : Except DecodeError (Bool × Decoder) :=
  match b with
  | 0xF4 => .ok (false, self)
  | 0xF5 => .ok (true, self)
  | _ => .error .invalidType

theorem decodeBool_agrees (data : Bytes) : Agrees data (decodeBool data) Decoder.decodeBool := by
  refine (readByte_agrees data).bind (k := boolOf) fun b => ?_
  unfold boolOf
  split_ifs with hfalse htrue
  · subst hfalse
    exact .pure _
  · subst htrue
    exact .pure _
  · split
    · exact absurd rfl hfalse
    · exact absurd rfl htrue
    · exact .throw _

theorem isNull_agrees (data : Bytes) : Agrees data (isNull data) Decoder.isNull := by
  intro pos
  cases hb : data[pos]? with
  | none =>
    have hend := List.getElem?_eq_none_iff.mp hb
    have hrun : (isNull data).run pos = .error (.error .unexpectedEof) pos := by
      rw [isNull, run_get_bind, if_pos hend]
      rfl
    rw [hrun]
    simp [Decoder.isNull, hb]
  | some b =>
    have hlt := Checked.lt_length hb
    by_cases hnull : b = 0xF6
    · by_cases hsum : pos + 1 < 2 ^ 64
      · have hrun : (isNull data).run pos = .ok true (pos + 1) := by
          rw [isNull, run_get_bind, if_neg (by omega), run_bind_ok (run_index hb), if_pos hnull,
            run_bind_ok (run_addUsize hsum)]
          rfl
        rw [hrun]
        simp [Decoder.isNull, hb, hnull]
      · have hrun : (isNull data).run pos = .error .overflow pos := by
          rw [isNull, run_get_bind, if_neg (by omega), run_bind_ok (run_index hb), if_pos hnull,
            run_bind_error (run_addUsize_error (not_lt.mp hsum))]
        rw [hrun]
        trivial
    · have hrun : (isNull data).run pos = .ok false pos := by
        rw [isNull, run_get_bind, if_neg (by omega), run_bind_ok (run_index hb), if_neg hnull]
        rfl
      rw [hrun]
      simp [Decoder.isNull, hb, hnull]

/-! ### Skipping -/

/-- The outcome of a recursion of bounded depth from a position. -/
def SkipsFrom (data : Bytes) (x : Checked Unit)
    (g : Decoder → Option (Except DecodeError Decoder)) (pos : ℕ) : Prop :=
  match x.run pos with
  | .ok _ pos' => g ⟨data, pos⟩ = some (.ok ⟨data, pos'⟩)
  | .error (.error e) _ => g ⟨data, pos⟩ = some (.error e)
  | .error .exhausted _ => g ⟨data, pos⟩ = none
  | .error _ _ => True

theorem SkipsFrom.congr {x y : Checked Unit} {f g : Decoder → Option (Except DecodeError Decoder)}
    {pos pos' : ℕ} (h : SkipsFrom data y g pos') (hx : x.run pos = y.run pos')
    (hf : f ⟨data, pos⟩ = g ⟨data, pos'⟩) : SkipsFrom data x f pos := by
  unfold SkipsFrom at h ⊢
  rwa [hx, hf]

def SkipsAs (data : Bytes) (x : Checked Unit) (g : Decoder → Option (Except DecodeError Decoder)) :
    Prop :=
  ∀ pos, SkipsFrom data x g pos

namespace SkipsAs

theorem stays (data : Bytes) : SkipsAs data (pure ()) fun self => some (.ok self) := fun _ => rfl

theorem discard {x : Checked α} {g : Decoder → Except DecodeError (α × Decoder)}
    (h : Agrees data x g) : SkipsAs data (discard x) fun self => some ((g self).map Prod.snd) := by
  intro pos
  unfold SkipsFrom
  cases hrun : x.run pos with
  | ok a pos' =>
    rw [run_discard_ok hrun]
    dsimp only
    rw [h.ok hrun]
    rfl
  | error e pos' =>
    rw [run_discard_error hrun]
    cases e with
    | error e =>
      dsimp only
      rw [h.error hrun]
      rfl
    | exhausted => exact absurd hrun h.not_exhausted
    | _ => trivial

/-- A step that does not go on gives the outcome of the whole. -/
theorem of_error {x : Checked Unit} {f : Unit → Checked Unit}
    {g g' : Decoder → Option (Except DecodeError Decoder)} {pos pos' : ℕ} {e : Stop}
    (h : SkipsFrom data x g pos) (hrun : x.run pos = .error e pos')
    (herror : ∀ e, g ⟨data, pos⟩ = some (.error e) → g' ⟨data, pos⟩ = some (.error e))
    (hnone : g ⟨data, pos⟩ = none → g' ⟨data, pos⟩ = none) : SkipsFrom data (x >>= f) g' pos := by
  unfold SkipsFrom at h ⊢
  rw [run_bind_error hrun]
  rw [hrun] at h
  cases e with
  | error e => exact herror e h
  | exhausted => exact hnone h
  | _ => trivial

theorem times {x : Checked Unit} {g : Decoder → Option (Except DecodeError Decoder)}
    (h : SkipsAs data x g) (n : ℕ) : SkipsAs data (times x n) (Decoder.times g n) := by
  induction n with
  | zero => exact .stays data
  | succ n ih =>
    intro pos
    cases hrun : x.run pos with
    | ok a pos' =>
      have hpos := h pos
      unfold SkipsFrom at hpos
      rw [hrun] at hpos
      exact (ih pos').congr (run_bind_ok hrun) (by rw [Decoder.times, hpos])
    | error e pos' =>
      refine SkipsAs.of_error (h pos) hrun (fun e he => ?_) fun hnone => ?_
      · rw [Decoder.times, he]
      · rw [Decoder.times, hnone]

end SkipsAs

/-- What is skipped behind a head of simple type. -/
def Decoder.skipBehind (self : Decoder) : Option (Except DecodeError Decoder) :=
  match (self.data[self.pos - 1]?).map (· &&& (31 : UInt8)) with
  | some 25 => some ((self.readBytes 2).map Prod.snd)
  | some 26 => some ((self.readBytes 4).map Prod.snd)
  | some 27 => some ((self.readBytes 8).map Prod.snd)
  | _ => some (.ok self)

/-- The same with the checks, behind a byte with these low bits. -/
def skipBehind (data : Bytes) (low : UInt8) : Checked Unit :=
  match low with
  | 25 => discard (readBytes data 2)
  | 26 => discard (readBytes data 4)
  | 27 => discard (readBytes data 8)
  | _ => return ()

theorem skipSimple_as (data : Bytes) : SkipsAs data (skipSimple data) Decoder.skipBehind := by
  intro pos
  rcases Nat.eq_zero_or_pos pos with rfl | hpos
  · trivial
  · have hsub : (subUsize pos 1).run pos = .ok (pos - 1) pos := by
      rw [subUsize, if_pos (show 1 ≤ pos from hpos)]
      rfl
    cases hb : data[pos - 1]? with
    | none =>
      have hindex : (index data (pos - 1)).run pos = .error .outOfRange pos := by
        rw [index, hb]
        rfl
      unfold SkipsFrom
      rw [skipSimple, run_get_bind, run_bind_ok hsub, run_bind_error hindex]
      trivial
    | some b =>
      have hrun : (skipSimple data).run pos = (skipBehind data (b &&& 31)).run pos := by
        rw [skipSimple, run_get_bind, run_bind_ok hsub]
        exact run_bind_ok (run_index hb)
      have hread (n : ℕ) := SkipsAs.discard (readBytes_agrees data n) pos
      unfold skipBehind at hrun
      split at hrun
      · exact (hread 2).congr hrun (by simp only [Decoder.skipBehind, Option.map_some, *])
      · exact (hread 4).congr hrun (by simp only [Decoder.skipBehind, Option.map_some, *])
      · exact (hread 8).congr hrun (by simp only [Decoder.skipBehind, Option.map_some, *])
      · refine (SkipsAs.stays data pos).congr hrun ?_
        simp only [Decoder.skipBehind, hb, Option.map_some]
        split
        · exact absurd (Option.some.inj ‹_›) ‹_›
        · exact absurd (Option.some.inj ‹_›) ‹_›
        · exact absurd (Option.some.inj ‹_›) ‹_›
        · rfl

/-- With the same depth the decoder without its checks skips the same. -/
theorem skip_as (data : Bytes) (depth : ℕ) :
    SkipsAs data (skip data depth) (Decoder.skip depth) := by
  induction depth with
  | zero => exact fun _ => rfl
  | succ depth ih =>
    intro pos
    cases hrun : (readTypeArg data).run pos with
    | error e pos' =>
      unfold SkipsFrom
      rw [skip, run_bind_error hrun]
      cases e with
      | error e =>
        dsimp only
        rw [Decoder.skip, (readTypeArg_agrees data).error hrun]
      | exhausted => exact absurd hrun (readTypeArg_agrees data).not_exhausted
      | _ => trivial
    | ok ta pos' =>
      obtain ⟨major, arg⟩ := ta
      have hplain : Decoder.readTypeArg ⟨data, pos⟩ = .ok ((major, arg), ⟨data, pos'⟩) :=
        (readTypeArg_agrees data).ok hrun
      have hcongr {x : Checked Unit} {g : Decoder → Option (Except DecodeError Decoder)}
          (h : SkipsAs data x g) (hx : (skip data (depth + 1)).run pos = x.run pos')
          (hg : Decoder.skip (depth + 1) ⟨data, pos⟩ = g ⟨data, pos'⟩) :
          SkipsFrom data (skip data (depth + 1)) (Decoder.skip (depth + 1)) pos :=
        (h pos').congr hx hg
      have hbytes := SkipsAs.discard (readBytes_agrees data arg.toNat)
      cases major with
      | unsigned =>
        exact hcongr (.stays data) (by rw [skip, run_bind_ok hrun]) (by rw [Decoder.skip, hplain])
      | negative =>
        exact hcongr (.stays data) (by rw [skip, run_bind_ok hrun]) (by rw [Decoder.skip, hplain])
      | bytes => exact hcongr hbytes (by rw [skip, run_bind_ok hrun]) (by rw [Decoder.skip, hplain])
      | text => exact hcongr hbytes (by rw [skip, run_bind_ok hrun]) (by rw [Decoder.skip, hplain])
      | array =>
        exact hcongr (ih.times arg.toNat) (by rw [skip, run_bind_ok hrun])
          (by rw [Decoder.skip, hplain])
      | map =>
        exact hcongr ((ih.times 2).times arg.toNat) (by rw [skip, run_bind_ok hrun])
          (by rw [Decoder.skip, hplain])
      | tag => exact hcongr ih (by rw [skip, run_bind_ok hrun]) (by rw [Decoder.skip, hplain])
      | simple =>
        exact hcongr (skipSimple_as data) (by rw [skip, run_bind_ok hrun])
          (Decoder.skip_simple hplain)

end NextgenDatabases.Lithoglyph.Cbor
