import Mathlib

/-!
# Dates as text

The Gregorian calendar, as days are counted by year, month and day, and the text of a point in
time in milliseconds. The text is read as the point in time it was written for.
-/
namespace NextgenDatabases.Foundations.Calendar

/-! ### Years -/

def IsLeap (y : ℤ) : Prop := y % 4 = 0 ∧ (y % 100 ≠ 0 ∨ y % 400 = 0)

instance : DecidablePred IsLeap := fun y =>
  inferInstanceAs (Decidable (y % 4 = 0 ∧ (y % 100 ≠ 0 ∨ y % 400 = 0)))

/-- The days from the first of January of the year 1 to that of another year. -/
def daysBefore (y : ℤ) : ℤ := 365 * (y - 1) + (y - 1) / 4 - (y - 1) / 100 + (y - 1) / 400

/-- The last century of four and the last year of four have one day more than the others. -/
def yearOf (d : ℤ) : ℤ :=
  let r := d % 146097
  let b := min (r / 36524) 3
  let c := (r - 36524 * b) / 1461
  let e := min ((r - 36524 * b - 1461 * c) / 365) 3
  400 * (d / 146097) + 100 * b + 4 * c + e + 1

theorem daysBefore_parts {a b c e : ℤ} (hb : 0 ≤ b ∧ b ≤ 3) (hc : 0 ≤ c ∧ c ≤ 24)
    (he : 0 ≤ e ∧ e ≤ 3) :
    daysBefore (400 * a + 100 * b + 4 * c + e + 1) =
      146097 * a + 36524 * b + 1461 * c + 365 * e := by
  have h4 : (400 * a + 100 * b + 4 * c + e) / 4 = 100 * a + 25 * b + c := by omega
  have h100 : (400 * a + 100 * b + 4 * c + e) / 100 = 4 * a + b := by omega
  have h400 : (400 * a + 100 * b + 4 * c + e) / 400 = a := by omega
  rw [daysBefore, add_sub_cancel_right, h4, h100, h400]
  ring

/-- The day lies in its year. -/
theorem yearOf_spec (d : ℤ) :
    daysBefore (yearOf d) ≤ d ∧
      d < daysBefore (yearOf d) + if IsLeap (yearOf d) then 366 else 365 := by
  obtain ⟨a, ha⟩ : ∃ a, d / 146097 = a := ⟨_, rfl⟩
  obtain ⟨r, hr⟩ : ∃ r, d % 146097 = r := ⟨_, rfl⟩
  obtain ⟨b, hb⟩ : ∃ b, min (r / 36524) 3 = b := ⟨_, rfl⟩
  obtain ⟨c, hc⟩ : ∃ c, (r - 36524 * b) / 1461 = c := ⟨_, rfl⟩
  obtain ⟨e, he⟩ : ∃ e, min ((r - 36524 * b - 1461 * c) / 365) 3 = e := ⟨_, rfl⟩
  have hyear : yearOf d = 400 * a + 100 * b + 4 * c + e + 1 := by
    simp only [yearOf, ha, hr, hb, hc, he]
  have hd : d = 146097 * a + r := by omega
  have hr' : 0 ≤ r ∧ r < 146097 := by omega
  have hb' : 0 ≤ b ∧ b ≤ 3 := by omega
  have hs : 0 ≤ r - 36524 * b ∧ (r - 36524 * b < 36524 ∨ b = 3 ∧ r - 36524 * b = 36524) := by omega
  have hc' : 0 ≤ c ∧ c ≤ 24 := by omega
  have he' : 0 ≤ e ∧ e ≤ 3 := by omega
  rw [hyear, daysBefore_parts hb' hc' he', hd]
  refine ⟨by omega, ?_⟩
  split
  case isTrue => omega
  case isFalse h =>
    simp only [IsLeap, not_and_or, not_or, not_not] at h
    omega

/-! ### Months -/

def monthLengths (leap : Bool) : List ℕ :=
  [31, if leap then 29 else 28, 31, 30, 31, 30, 31, 31, 30, 31, 30, 31]

/-- The block in which a position lies, for consecutive blocks of given lengths, and the position
in the block. -/
def locate : List ℕ → ℕ → ℕ × ℕ
  | [], i => (0, i)
  | n :: ns, i => if i < n then (0, i) else ((locate ns (i - n)).1 + 1, (locate ns (i - n)).2)

theorem sum_take_locate : ∀ ns i, (ns.take (locate ns i).1).sum + (locate ns i).2 = i
  | [], i => by simp [locate]
  | n :: ns, i => by
    by_cases h : i < n
    · simp [locate, h]
    · have ih := sum_take_locate ns (i - n)
      simp only [locate, h, if_false, List.take_succ_cons, List.sum_cons]
      omega

theorem locate_lt : ∀ (ns : List ℕ) (i : ℕ), i < ns.sum →
    (locate ns i).1 < ns.length ∧ ∃ n ∈ ns, (locate ns i).2 < n
  | [], i, h => by simp at h
  | n :: ns, i, h => by
    by_cases hi : i < n
    · exact ⟨by simp [locate, hi], n, by simp, by simp [locate, hi]⟩
    · rw [List.sum_cons] at h
      obtain ⟨hlt, m, hm, hlt'⟩ := locate_lt ns (i - n) (by omega)
      simp only [locate, hi, if_false, List.length_cons]
      exact ⟨by omega, m, List.mem_cons_of_mem n hm, hlt'⟩

/-- A date of the calendar. Months and days are counted from zero. -/
structure CalendarDate where
  year : ℤ
  month : ℕ
  day : ℕ

def monthsOf (y : ℤ) : List ℕ := monthLengths (decide (IsLeap y))

def dateOf (d : ℤ) : CalendarDate :=
  let y := yearOf d
  let md := locate (monthsOf y) (d - daysBefore y).toNat
  ⟨y, md.1, md.2⟩

def CalendarDate.toDays (date : CalendarDate) : ℤ :=
  daysBefore date.year + ((monthsOf date.year).take date.month).sum + date.day

theorem sum_monthsOf (y : ℤ) : ((monthsOf y).sum : ℤ) = if IsLeap y then 366 else 365 := by
  by_cases h : IsLeap y <;> simp [monthsOf, monthLengths, h]

theorem le_of_mem_monthsOf {y : ℤ} {n : ℕ} (h : n ∈ monthsOf y) : n ≤ 31 := by
  by_cases hy : IsLeap y <;> simp [monthsOf, monthLengths, hy] at h <;> omega

theorem toDays_dateOf (d : ℤ) : (dateOf d).toDays = d := by
  have hle := (yearOf_spec d).1
  have hsum := sum_take_locate (monthsOf (yearOf d)) (d - daysBefore (yearOf d)).toNat
  simp only [dateOf, CalendarDate.toDays]
  omega

theorem dateOf_lt (d : ℤ) : (dateOf d).month < 12 ∧ (dateOf d).day < 31 := by
  have hspec := yearOf_spec d
  have hsum := sum_monthsOf (yearOf d)
  obtain ⟨hmonth, n, hn, hday⟩ := locate_lt (monthsOf (yearOf d))
    (d - daysBefore (yearOf d)).toNat (by omega)
  exact ⟨hmonth, hday.trans_le (le_of_mem_monthsOf hn)⟩

/-! ### Numbers of a fixed width -/

def digits : ℕ → ℕ → List Char
  | 0, _ => []
  | k + 1, n => digits k (n / 10) ++ [Nat.digitChar (n % 10)]

def value (cs : List Char) : ℕ := cs.foldl (fun v c => 10 * v + (c.toNat - 48)) 0

@[simp] theorem length_digits (k n : ℕ) : (digits k n).length = k := by
  induction k generalizing n with
  | zero => rfl
  | succ k ih => simp [digits, ih]

theorem drop_digits {k i n : ℕ} (h : k ≤ i) : (digits k n).drop i = [] :=
  List.drop_eq_nil_of_le (by simpa)

theorem toNat_digitChar {d : ℕ} (h : d < 10) : (Nat.digitChar d).toNat - 48 = d := by
  rw [Nat.toNat_digitChar_of_lt_ten h]
  omega

theorem value_digits {k n : ℕ} (h : n < 10 ^ k) : value (digits k n) = n := by
  induction k generalizing n with
  | zero => simp_all [digits, value]
  | succ k ih =>
    have hdiv : n / 10 < 10 ^ k := by rw [pow_succ] at h; omega
    have hvalue := ih hdiv
    rw [value] at hvalue
    rw [digits, value, List.foldl_append, hvalue]
    simp only [List.foldl_cons, List.foldl_nil, toNat_digitChar (Nat.mod_lt n (by norm_num))]
    omega

/-! ### The text of a point in time -/

def yearText (y : ℤ) : List Char :=
  if 0 ≤ y ∧ y < 10000 then digits 4 y.toNat
  else (if y < 0 then '-' else '+') :: digits 6 y.natAbs

def readYear (cs : List Char) : ℤ :=
  if cs.length = 4 then value cs
  else if cs.head? = some '-' then -value cs.tail
  else value cs.tail

theorem readYear_yearText {y : ℤ} (h : |y| < 1000000) : readYear (yearText y) = y := by
  rw [abs_lt] at h
  rw [yearText]
  split
  case isTrue hy =>
    rw [readYear, if_pos (by simp), value_digits (by omega)]
    omega
  case isFalse hy =>
    by_cases hneg : y < 0
    · simp only [readYear, hneg, if_true, List.length_cons, length_digits, List.head?_cons,
        List.tail_cons, value_digits (show y.natAbs < 10 ^ 6 by omega)]
      simp only [show 6 + 1 ≠ 4 by decide, if_false]
      omega
    · simp only [readYear, hneg, if_false, List.length_cons, length_digits, List.head?_cons,
        List.tail_cons, value_digits (show y.natAbs < 10 ^ 6 by omega)]
      simp only [show 6 + 1 ≠ 4 by decide, if_false]
      rw [if_neg (by decide)]
      omega

/-- The first of January of 1970, as a day. -/
def epoch : ℤ := 719162

def fieldsText (month day ms : ℕ) : List Char :=
  ('-' :: digits 2 (month + 1)) ++ ('-' :: digits 2 (day + 1)) ++
    ('T' :: digits 2 (ms / 3600000)) ++ (':' :: digits 2 (ms / 60000 % 60)) ++
    (':' :: digits 2 (ms / 1000 % 60)) ++ ('.' :: digits 3 (ms % 1000)) ++ ['Z']

/-- The text of a time in milliseconds from the epoch. -/
def isoText (t : ℤ) : List Char :=
  let date := dateOf (t / 86400000 + epoch)
  yearText date.year ++ fieldsText date.month date.day (t % 86400000).toNat

def readIso (cs : List Char) : ℤ :=
  let year := readYear (cs.take (cs.length - 20))
  let rest := cs.drop (cs.length - 20)
  let field (i k : ℕ) := value ((rest.drop i).take k)
  let date : CalendarDate := ⟨year, field 1 2 - 1, field 4 2 - 1⟩
  86400000 * (date.toDays - epoch) +
    (3600000 * field 7 2 + 60000 * field 10 2 + 1000 * field 13 2 + field 16 3)

theorem length_fieldsText (month day ms : ℕ) : (fieldsText month day ms).length = 20 := by
  simp [fieldsText]

theorem abs_year_lt {d : ℤ} (h : |d| ≤ 200000000) : |(dateOf d).year| < 1000000 := by
  have hspec := (yearOf_spec d).1
  have hspec' := (yearOf_spec d).2
  have hyear : (dateOf d).year = yearOf d := rfl
  rw [hyear]
  rw [abs_le] at h
  rw [abs_lt]
  simp only [daysBefore] at hspec hspec'
  split at hspec' <;> omega

theorem readIso_isoText {t : ℤ} (h : |t| ≤ 8640000000000000) : readIso (isoText t) = t := by
  obtain ⟨d, hd⟩ : ∃ d, t / 86400000 + epoch = d := ⟨_, rfl⟩
  obtain ⟨ms, hms⟩ : ∃ ms, (t % 86400000).toNat = ms := ⟨_, rfl⟩
  have hdate := dateOf_lt d
  have hlen := length_fieldsText (dateOf d).month (dateOf d).day ms
  have habs : |d| ≤ 200000000 := by
    rw [abs_le] at h ⊢
    rw [epoch] at hd
    omega
  have hlt : ms < 86400000 := by omega
  simp only [readIso, isoText, hd, hms, List.length_append, hlen, Nat.add_sub_cancel,
    List.take_left, List.drop_left, readYear_yearText (abs_year_lt habs)]
  have hmonth : value (digits 2 ((dateOf d).month + 1)) = (dateOf d).month + 1 :=
    value_digits (by omega)
  have hday : value (digits 2 ((dateOf d).day + 1)) = (dateOf d).day + 1 := value_digits (by omega)
  have hhour : value (digits 2 (ms / 3600000)) = ms / 3600000 := value_digits (by omega)
  have hminute : value (digits 2 (ms / 60000 % 60)) = ms / 60000 % 60 := value_digits (by omega)
  have hsecond : value (digits 2 (ms / 1000 % 60)) = ms / 1000 % 60 := value_digits (by omega)
  have hmilli : value (digits 3 (ms % 1000)) = ms % 1000 := value_digits (by omega)
  have hdays := toDays_dateOf d
  simp [fieldsText, List.drop_append, drop_digits, hmonth, hday, hhour, hminute,
    hsecond, hmilli, hdays]
  omega

/-- The time that a text denotes, if the text is that of a time. -/
def parseIso (cs : List Char) : Option ℤ :=
  if isoText (readIso cs) = cs then some (readIso cs) else none

theorem parseIso_isoText {t : ℤ} (h : |t| ≤ 8640000000000000) :
    parseIso (isoText t) = some t := by
  rw [parseIso, readIso_isoText h, if_pos rfl]

end NextgenDatabases.Foundations.Calendar
