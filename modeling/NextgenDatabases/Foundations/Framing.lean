import NextgenDatabases.Foundations.Bytes

/-!
# Length-prefixed frames

A frame is the length of its body in four bytes, then the body. A walk reads
frames from the front of a byte string until a length is refused or the bytes run
out, and leaves the rest unread. On frames written one after the other, with or
without a torn frame behind them, the walk gives back exactly the bodies.
-/
namespace NextgenDatabases.Foundations

/-- The length prefix and the body. -/
def frame (body : Bytes) : Bytes := toLe 4 body.length ++ body

@[simp] theorem length_frame (body : Bytes) : (frame body).length = 4 + body.length := by
  simp [frame]

/-- The length that the first four bytes declare. -/
def declared (data : Bytes) : ℕ := ofLe (data.take 4)

variable (stop : ℕ → Bool)

/-- The bodies of the frames at the front of `data`, and what is left unread. -/
def walk (data : Bytes) : List Bytes × Bytes :=
  if 4 ≤ data.length then
    if stop (declared data) || decide (data.length < 4 + declared data) then ([], data)
    else
      let rest := walk (data.drop (4 + declared data))
      (slice data 4 (declared data) :: rest.1, rest.2)
  else ([], data)
termination_by data.length
decreasing_by simp only [List.length_drop]; omega

/-- Frames up to the last byte. -/
def Framed (data : Bytes) : Prop := (walk stop data).2 = []

instance (data : Bytes) : Decidable (Framed stop data) :=
  inferInstanceAs (Decidable ((walk stop data).2 = []))

/-- A body whose length fits the prefix and is not refused. -/
def Framable (body : Bytes) : Prop := body.length < 256 ^ 4 ∧ stop body.length = false

/-- Nothing, or the start of a frame whose end is missing. -/
def Torn (data : Bytes) : Prop :=
  data = [] ∨ ∃ body, Framable stop body ∧ data <+: frame body ∧ data.length < (frame body).length

variable {stop}

/-- The walk ends on a short rest, a refused length or a body that does not fit. -/
theorem walk_stop {data : Bytes} (h : 4 ≤ data.length → stop (declared data) = false →
    data.length < 4 + declared data) : walk stop data = ([], data) := by
  rw [walk]
  split
  · next hlen =>
    cases hstop : stop (declared data) with
    | true => rfl
    | false => rw [decide_eq_true (h hlen hstop)]; rfl
  · rfl

theorem walk_step {data : Bytes} (hstop : stop (declared data) = false)
    (hfit : 4 + declared data ≤ data.length) :
    walk stop data = (slice data 4 (declared data) :: (walk stop (data.drop (4 + declared data))).1,
      (walk stop (data.drop (4 + declared data))).2) := by
  rw [walk, if_pos (by omega), hstop, decide_eq_false (by omega)]
  rfl

theorem declared_frame_append {body : Bytes} (hb : body.length < 256 ^ 4) (rest : Bytes) :
    declared (frame body ++ rest) = body.length := by
  rw [declared, frame, List.append_assoc, List.take_append_of_le_length (by simp),
    List.take_of_length_le (by simp), ofLe_toLe_of_lt hb]

theorem slice_frame_append (body rest : Bytes) :
    slice (frame body ++ rest) 4 body.length = body := by
  rw [frame, List.append_assoc, slice_of_append (by simp), length_toLe, slice_head rfl rfl]

theorem drop_frame_append (body rest : Bytes) :
    (frame body ++ rest).drop (4 + body.length) = rest := by
  rw [← length_frame, List.drop_left]

/-- The four bytes of a torn frame already declare the length of the whole body. -/
theorem declared_of_isPrefix {data body : Bytes} (hb : body.length < 256 ^ 4)
    (h : data <+: frame body) (hlen : 4 ≤ data.length) : declared data = body.length := by
  obtain ⟨rest, hrest⟩ := h
  have hfull := declared_frame_append hb []
  rwa [List.append_nil, ← hrest, declared, List.take_append_of_le_length hlen] at hfull

theorem walk_frame_append {body : Bytes} (hb : Framable stop body) (rest : Bytes) :
    walk stop (frame body ++ rest) = (body :: (walk stop rest).1, (walk stop rest).2) := by
  have hd := declared_frame_append hb.1 rest
  rw [walk_step (by rw [hd, hb.2]) (by simp [hd]), hd, slice_frame_append, drop_frame_append]

theorem walk_torn {data : Bytes} (h : Torn stop data) : walk stop data = ([], data) := by
  apply walk_stop
  intro hlen _
  obtain rfl | ⟨body, hb, hpre, hlt⟩ := h
  · simp at hlen
  · rw [length_frame] at hlt
    rwa [declared_of_isPrefix hb.1 hpre hlen]

/-- The walk reads the frames that were written and stops at the torn one. -/
theorem walk_frames {bodies : List Bytes} {torn : Bytes} (hb : ∀ b ∈ bodies, Framable stop b)
    (ht : Torn stop torn) : walk stop (bodies.flatMap frame ++ torn) = (bodies, torn) := by
  induction bodies with
  | nil => exact walk_torn ht
  | cons b bs ih =>
    have hbs : ∀ b ∈ bs, Framable stop b := fun b h => hb b (List.mem_cons_of_mem _ h)
    rw [List.flatMap_cons, List.append_assoc, walk_frame_append (hb b List.mem_cons_self),
      ih hbs]

/-- No body of a refused length is read. -/
theorem stop_of_mem_walk {data body : Bytes} (h : body ∈ (walk stop data).1) :
    stop body.length = false := by
  fun_induction walk stop data with
  | case1 => simp at h
  | case2 data hlen hread rest ih =>
    simp only [Bool.or_eq_true, decide_eq_true_eq, not_or, not_lt] at hread
    rcases List.mem_cons.mp h with rfl | h
    · rw [length_slice hread.2]
      exact eq_false_of_ne_true hread.1
    · exact ih h
  | case3 => simp at h

/-- The walk goes on behind whole frames. -/
theorem walk_append {data : Bytes} (h : Framed stop data) (rest : Bytes) :
    walk stop (data ++ rest) = ((walk stop data).1 ++ (walk stop rest).1, (walk stop rest).2) := by
  unfold Framed at h
  fun_induction walk stop data with
  | case1 data hlen =>
    simp only at h
    rw [h] at hlen
    simp at hlen
  | case2 data hlen hread next ih =>
    simp only [Bool.or_eq_true, decide_eq_true_eq, not_or, not_lt] at hread
    have hdeclared : declared (data ++ rest) = declared data := by
      rw [declared, List.take_append_of_le_length hlen, declared]
    have hdrop : (data ++ rest).drop (4 + declared data) = data.drop (4 + declared data) ++ rest :=
      List.drop_append_of_le_length hread.2
    rw [walk_step (by rw [hdeclared]; exact eq_false_of_ne_true hread.1)
      (by rw [hdeclared, List.length_append]; omega), hdeclared, hdrop, ih h,
      slice_append_left hread.2]
    rfl
  | case3 data hlen =>
    simp only at h
    rw [h, List.nil_append, List.nil_append]

theorem Torn.nil : Torn stop [] := .inl rfl

theorem Torn.take {body : Bytes} (hb : Framable stop body) {k : ℕ} (hk : k < (frame body).length) :
    Torn stop ((frame body).take k) :=
  .inr ⟨body, hb, List.take_prefix k _, by simpa using hk⟩

end NextgenDatabases.Foundations
