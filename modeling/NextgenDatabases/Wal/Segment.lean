import NextgenDatabases.Wal.Entry
import Mathlib.Data.Nat.Digits.Lemmas
import Mathlib.Data.List.Sort

/-!
# Segment files

A log directory is a list of named files. The segment that starts at a sequence
number has the number, in at least sixteen decimal digits, in its name.
-/
namespace NextgenDatabases.Wal

open Foundations

/-- The files of the log directory in the order in which they are listed. -/
abbrev Dir := List (String × Bytes)

namespace Dir

/-- `fs::read`. -/
def read (dir : Dir) (path : String) : WalResult Bytes :=
  match dir.lookup path with
  | some data => .ok data
  | none => .error .io

/-- `File::create`: an existing file is cut to length zero. -/
def create (dir : Dir) (path : String) : Dir :=
  if path ∈ dir.map Prod.fst then dir.map fun f => if f.1 = path then (f.1, []) else f
  else dir ++ [(path, [])]

/-- Write at the end of an open file. -/
def write (dir : Dir) (path : String) (data : Bytes) : Dir :=
  dir.map fun f => if f.1 = path then (f.1, f.2 ++ data) else f

theorem create_of_notMem {dir : Dir} {path : String} (h : path ∉ dir.map Prod.fst) :
    dir.create path = dir ++ [(path, [])] := if_neg h

theorem map_of_notMem {dir : Dir} {path : String} (h : path ∉ dir.map Prod.fst)
    (g : String × Bytes → String × Bytes) :
    (dir.map fun f => if f.1 = path then g f else f) = dir := by
  conv_rhs => rw [← List.map_id dir]
  apply List.map_congr_left
  intro f hf
  have hne : f.1 ≠ path := fun heq => h (heq ▸ List.mem_map_of_mem hf)
  rw [if_neg hne, id]

/-- Creating the last file again cuts it. -/
theorem create_last {dir : Dir} {path : String} (h : path ∉ dir.map Prod.fst) (old : Bytes) :
    Dir.create (dir ++ [(path, old)]) path = dir ++ [(path, [])] := by
  rw [Dir.create, if_pos (by simp), List.map_append, map_of_notMem h fun f => (f.1, [])]
  simp

theorem write_last {dir : Dir} {path : String} (h : path ∉ dir.map Prod.fst) (old data : Bytes) :
    Dir.write (dir ++ [(path, old)]) path data = dir ++ [(path, old ++ data)] := by
  rw [Dir.write, List.map_append, map_of_notMem h fun f => (f.1, f.2 ++ data)]
  simp

theorem read_append {dir more : Dir} {path : String} (h : path ∉ dir.map Prod.fst)
    (data : Bytes) : Dir.read (dir ++ (path, data) :: more) path = .ok data := by
  have hdir : dir.lookup path = none := by
    rw [List.lookup_eq_none_iff]
    intro f hf
    have hne : f.1 ≠ path := fun heq => h (heq ▸ List.mem_map_of_mem hf)
    simpa using hne.symm
  rw [Dir.read, List.lookup_append, hdir, Option.none_or, List.lookup_cons_self]

theorem exists_lookup {dir : Dir} {path : String} (h : path ∈ dir.map Prod.fst) :
    ∃ data, dir.lookup path = some data := by
  rw [← Option.ne_none_iff_exists', Ne, List.lookup_eq_none_iff]
  intro hnone
  obtain ⟨f, hf, hname⟩ := List.mem_map.mp h
  exact absurd (hnone f hf) (by simp [hname])

end Dir

structure SegmentInfo where
  path : String
  startSequence : UInt64
  fileSize : ℕ
  deriving DecidableEq

/-! ### File names -/

def SEGMENT_EXTENSION : List Char := ".log".toList
def SEGMENT_PREFIX : List Char := "wal-".toList

/-- The decimal digits of a number, with zeros in front up to sixteen digits. -/
def paddedDigits (n : ℕ) : List ℕ :=
  List.replicate (16 - (Nat.digits 10 n).length) 0 ++ (Nat.digits 10 n).reverse

def segmentFilename (startSequence : UInt64) : String :=
  String.ofList (SEGMENT_PREFIX ++ ((paddedDigits startSequence.toNat).map Nat.digitChar ++
    SEGMENT_EXTENSION))

def stripStart (start name : List Char) : Option (List Char) :=
  if start <+: name then some (name.drop start.length) else none

def stripEnd (ending name : List Char) : Option (List Char) :=
  if ending <:+ name then some (name.take (name.length - ending.length)) else none

def stripPlus : List Char → List Char
  | '+' :: rest => rest
  | chars => chars

/-- `u64::from_str`: digits with an optional plus sign, less than `2 ^ 64`. -/
def parseU64 (chars : List Char) : Option UInt64 :=
  let digits := stripPlus chars
  let value := Nat.ofDigits 10 (digits.map fun c => c.toNat - 48).reverse
  if digits ≠ [] ∧ digits.all Char.isDigit = true ∧ value < 2 ^ 64 then
    some (UInt64.ofNat value)
  else none

def parseSegmentFilename (name : String) : Option UInt64 :=
  (stripStart SEGMENT_PREFIX name.toList).bind fun stripped =>
    (stripEnd SEGMENT_EXTENSION stripped).bind parseU64

theorem digitChar_spec {d : ℕ} (hd : d < 10) :
    (Nat.digitChar d).isDigit = true ∧ (Nat.digitChar d).toNat - 48 = d := by
  interval_cases d <;> decide

theorem ofDigits_paddedDigits (n : ℕ) : Nat.ofDigits 10 (paddedDigits n).reverse = n := by
  simp [paddedDigits, Nat.ofDigits_append, Nat.ofDigits_digits]

theorem lt_ten_of_mem_paddedDigits {n d : ℕ} (h : d ∈ paddedDigits n) : d < 10 := by
  rcases List.mem_append.mp h with h | h
  · rw [List.eq_of_mem_replicate h]
    omega
  · exact Nat.digits_lt_base (by omega) (List.mem_reverse.mp h)

theorem length_paddedDigits_pos (n : ℕ) : 0 < (paddedDigits n).length := by
  simp only [paddedDigits, List.length_append, List.length_replicate, List.length_reverse]
  omega

theorem parseU64_digits (n : UInt64) :
    parseU64 ((paddedDigits n.toNat).map Nat.digitChar) = some n := by
  have hdigit : ∀ c ∈ (paddedDigits n.toNat).map Nat.digitChar, c.isDigit = true := by
    intro c hc
    obtain ⟨d, hd, rfl⟩ := List.mem_map.mp hc
    exact (digitChar_spec (lt_ten_of_mem_paddedDigits hd)).1
  have hvalue : ((paddedDigits n.toNat).map Nat.digitChar).map (fun c => c.toNat - 48) =
      paddedDigits n.toNat := by
    conv_rhs => rw [← List.map_id (paddedDigits n.toNat)]
    rw [List.map_map]
    apply List.map_congr_left
    intro d hd
    exact (digitChar_spec (lt_ten_of_mem_paddedDigits hd)).2
  have hne : (paddedDigits n.toNat).map Nat.digitChar ≠ [] :=
    fun h => by simpa [List.map_eq_nil_iff.mp h] using length_paddedDigits_pos n.toNat
  have hstrip : stripPlus ((paddedDigits n.toNat).map Nat.digitChar) =
      (paddedDigits n.toNat).map Nat.digitChar := by
    unfold stripPlus
    split
    · next rest heq =>
      -- no digit is a plus sign
      exact absurd (hdigit '+' (heq ▸ List.mem_cons_self)) (by decide)
    · rfl
  have hlt : Nat.ofDigits 10 (paddedDigits n.toNat).reverse < 2 ^ 64 := by
    rw [ofDigits_paddedDigits]
    exact n.toNat_lt
  simp only [parseU64, hstrip, hvalue]
  rw [if_pos ⟨hne, List.all_eq_true.mpr hdigit, hlt⟩, ofDigits_paddedDigits, UInt64.ofNat_toNat]

@[simp] theorem parseSegmentFilename_segmentFilename (n : UInt64) :
    parseSegmentFilename (segmentFilename n) = some n := by
  have hstart : ∀ l, stripStart SEGMENT_PREFIX (SEGMENT_PREFIX ++ l) = some l := by
    intro l
    rw [stripStart, if_pos (List.prefix_append _ _), List.drop_left]
  have hend : ∀ l, stripEnd SEGMENT_EXTENSION (l ++ SEGMENT_EXTENSION) = some l := by
    intro l
    rw [stripEnd, if_pos (List.suffix_append _ _), List.length_append, Nat.add_sub_cancel,
      List.take_left]
  rw [parseSegmentFilename, segmentFilename, String.toList_ofList, hstart, Option.bind_some, hend,
    Option.bind_some, parseU64_digits]

theorem segmentFilename_injective : Function.Injective segmentFilename := by
  intro n m h
  have := congrArg parseSegmentFilename h
  simpa using this

/-! ### Listing -/

/-- The segment that a file of the directory is, if its name says so. -/
def segmentInfo? (f : String × Bytes) : Option SegmentInfo :=
  (parseSegmentFilename f.1).map fun start => ⟨f.1, start, f.2.length⟩

def listSegments : Option Dir → WalResult (List SegmentInfo)
  | none => .error .directoryNotFound
  | some dir =>
    .ok ((dir.filterMap segmentInfo?).insertionSort fun a b => a.startSequence ≤ b.startSequence)

/-- The segments of a directory in the order of their numbers. -/
def segmentsOf (dir : Dir) : List SegmentInfo :=
  (dir.filterMap segmentInfo?).insertionSort fun a b => a.startSequence ≤ b.startSequence

theorem segmentInfo?_eq_some {f : String × Bytes} {s : SegmentInfo} (h : segmentInfo? f = some s) :
    s.path = f.1 ∧ parseSegmentFilename f.1 = some s.startSequence := by
  unfold segmentInfo? at h
  obtain ⟨start, hstart, rfl⟩ := Option.map_eq_some_iff.mp h
  exact ⟨rfl, hstart⟩

theorem mem_segmentsOf {dir : Dir} {s : SegmentInfo} (h : s ∈ segmentsOf dir) :
    s.path ∈ dir.map Prod.fst ∧ parseSegmentFilename s.path = some s.startSequence := by
  rw [segmentsOf, List.mem_insertionSort, List.mem_filterMap] at h
  obtain ⟨f, hf, hs⟩ := h
  obtain ⟨hpath, hstart⟩ := segmentInfo?_eq_some hs
  exact ⟨hpath ▸ List.mem_map_of_mem hf, hpath ▸ hstart⟩

end NextgenDatabases.Wal
