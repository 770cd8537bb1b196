import Mathlib

/-!
# JSON values and dictionaries

JavaScript objects that are used as dictionaries, JSON values with such objects, and their
decoders. Floating point numbers are rationals, and integers have 32 bits.
-/
namespace NextgenDatabases.Foundations

universe u v

/-- What assignments to properties build from an empty object, in the order of the first
assignments; JavaScript itself lists keys that are array indices before the others. An assignment
to `__proto__` makes no property of the object's own. -/
@[ext] structure Dict (V : Type u) where
  entries : List (String × V)
  nodup : (entries.map Prod.fst).Nodup
  own : "__proto__" ∉ entries.map Prod.fst

namespace Dict

variable {V : Type u} {W : Type v}

/-- The entries after an assignment. -/
def store (l : List (String × V)) (k : String) (v : V) : List (String × V) :=
  if k ∈ l.map Prod.fst then l.map fun e => if e.1 = k then (k, v) else e else l ++ [(k, v)]

theorem keys_store (l : List (String × V)) (k : String) (v : V) :
    (store l k v).map Prod.fst =
      if k ∈ l.map Prod.fst then l.map Prod.fst else l.map Prod.fst ++ [k] := by
  unfold store
  split_ifs
  · rw [List.map_map]
    refine List.map_congr_left fun e _ => ?_
    by_cases he : e.1 = k <;> simp [he]
  · simp

theorem store_of_notMem {l : List (String × V)} {k : String} (v : V)
    (h : k ∉ l.map Prod.fst) : store l k v = l ++ [(k, v)] := if_neg h

def empty : Dict V := ⟨[], List.nodup_nil, List.not_mem_nil⟩

/-- The names of the properties that every object has from `Object.prototype`. Where an object has
no such property of its own, looking the name up finds that of the prototype. -/
def objectNames : List String :=
  ["__defineGetter__", "__defineSetter__", "__lookupGetter__", "__lookupSetter__", "__proto__",
    "constructor", "hasOwnProperty", "isPrototypeOf", "propertyIsEnumerable", "toLocaleString",
    "toString", "valueOf"]

def isObjectName (k : String) : Bool := objectNames.contains k

/-- `dict[k] = v` -/
def set (d : Dict V) (k : String) (v : V) : Dict V :=
  if h : k = "__proto__" then d
  else
    { entries := store d.entries k v
      nodup := by
        rw [keys_store]
        split_ifs with hk
        · exact d.nodup
        · simpa [List.concat_eq_append] using d.nodup.concat hk
      own := by
        rw [keys_store]
        split_ifs
        · exact d.own
        · simpa [Ne.symm h] using d.own }

/-- `dict[k]`, for a name that is not one of the `objectNames`. -/
def get (d : Dict V) (k : String) : Option V := d.entries.lookup k

def values (d : Dict V) : List V := d.entries.map Prod.snd

def fromArray (l : List (String × V)) : Dict V := l.foldl (fun d e => d.set e.1 e.2) empty

theorem entries_set {d : Dict V} {k : String} (v : V) (hk : k ∉ d.entries.map Prod.fst)
    (hown : k ≠ "__proto__") : (d.set k v).entries = d.entries ++ [(k, v)] := by
  rw [set, dif_neg hown]
  exact store_of_notMem v hk

/-- Distinct keys are kept as they are. -/
theorem entries_fromArray {l : List (String × V)} (hnodup : (l.map Prod.fst).Nodup)
    (hown : "__proto__" ∉ l.map Prod.fst) : (fromArray l).entries = l := by
  induction l using List.reverseRecOn with
  | nil => rfl
  | append_singleton l e ih =>
    rw [List.map_append, List.nodup_append] at hnodup
    rw [List.map_append, List.mem_append, not_or] at hown
    have hl := ih hnodup.1 hown.1
    have hk : e.1 ∉ (fromArray l).entries.map Prod.fst := by
      rw [hl]
      exact fun hmem => hnodup.2.2 _ hmem _ (by simp) rfl
    have hne : e.1 ≠ "__proto__" := fun heq => hown.2 (by simp [heq])
    have hstep : fromArray (l ++ [e]) = (fromArray l).set e.1 e.2 := List.foldl_concat ..
    rw [hstep, entries_set e.2 hk hne, hl]

theorem get_fromArray {l : List (String × V)} (hnodup : (l.map Prod.fst).Nodup)
    (hown : "__proto__" ∉ l.map Prod.fst) (k : String) : (fromArray l).get k = l.lookup k := by
  rw [get, entries_fromArray hnodup hown]

@[simp] theorem fromArray_entries (d : Dict V) : fromArray d.entries = d :=
  Dict.ext (entries_fromArray d.nodup d.own)

/-- The same keys with other values. -/
def map (f : V → W) (d : Dict V) : Dict W where
  entries := d.entries.map fun e => (e.1, f e.2)
  nodup := by
    rw [List.map_map]
    exact d.nodup
  own := by
    rw [List.map_map]
    exact d.own

theorem fromArray_map (f : V → W) (d : Dict V) :
    fromArray (d.entries.map fun e => (e.1, f e.2)) = d.map f :=
  (d.map f).fromArray_entries

/-- A dictionary of the results, unless there is none for one of the values. -/
def traverse (f : String → V → Option W) (d : Dict V) : Option (Dict W) :=
  (d.entries.mapM fun e => (f e.1 e.2).map fun w => (e.1, w)).map fromArray

/-- A dictionary of the results, without the values that have none. -/
def filterMap (f : String → V → Option W) (d : Dict V) : Dict W :=
  fromArray (d.entries.filterMap fun e => (f e.1 e.2).map fun w => (e.1, w))

theorem exists_mapM {f : String → V → Option W} {g : String → W → Option V}
    {entries : List (String × V)}
    (h : ∀ e ∈ entries, ∃ w, f e.1 e.2 = some w ∧ g e.1 w = some e.2) :
    ∃ l : List (String × W), (entries.mapM fun e => (f e.1 e.2).map fun w => (e.1, w)) = some l ∧
      l.map Prod.fst = entries.map Prod.fst ∧
      (l.filterMap fun e => (g e.1 e.2).map fun v => (e.1, v)) = entries := by
  induction entries with
  | nil => exact ⟨[], rfl, rfl, rfl⟩
  | cons e entries ih =>
    obtain ⟨w, hw, hg⟩ := h e List.mem_cons_self
    obtain ⟨l, hl, hkeys, hback⟩ := ih fun e' he' => h e' (List.mem_cons_of_mem e he')
    refine ⟨(e.1, w) :: l, ?_, ?_, ?_⟩
    · simp [hw, hl]
    · simp [hkeys]
    · simp [hg, hback]

/-- What is encoded value by value is decoded value by value. -/
theorem exists_traverse {f : String → V → Option W} {g : String → W → Option V} {d : Dict V}
    (h : ∀ e ∈ d.entries, ∃ w, f e.1 e.2 = some w ∧ g e.1 w = some e.2) :
    ∃ d', d.traverse f = some d' ∧ d'.filterMap g = d := by
  obtain ⟨l, hl, hkeys, hback⟩ := exists_mapM h
  refine ⟨fromArray l, ?_, ?_⟩
  · rw [traverse, hl]
    rfl
  · have hentries : (fromArray l).entries = l :=
      entries_fromArray (hkeys ▸ d.nodup) (hkeys ▸ d.own)
    rw [filterMap, hentries, hback, fromArray_entries]

end Dict

/-! ### JSON -/

inductive Json
  | null
  | boolean (b : Bool)
  | number (n : ℚ)
  | string (s : String)
  | array (items : List Json)
  | object (fields : List (String × Json))

namespace Json

/-- `Js.Json.object_` -/
def ofDict (d : Dict Json) : Json := object d.entries

def decodeObject : Json → Option (Dict Json)
  | object fields => some (.fromArray fields)
  | _ => none

def decodeArray : Json → Option (List Json)
  | array items => some items
  | _ => none

def decodeString : Json → Option String
  | string s => some s
  | _ => none

def decodeNumber : Json → Option ℚ
  | number n => some n
  | _ => none

def decodeBoolean : Json → Option Bool
  | boolean b => some b
  | _ => none

/-! ### Members of an object -/

section members

variable (d : Dict Json) (key : String)

def stringAt : Option String := d.get key >>= decodeString

def numberAt : Option ℚ := d.get key >>= decodeNumber

def booleanAt : Option Bool := d.get key >>= decodeBoolean

def arrayAt : Option (List Json) := d.get key >>= decodeArray

def objectAt : Option (Dict Json) := d.get key >>= decodeObject

end members

@[simp] theorem decodeObject_ofDict (d : Dict Json) : (ofDict d).decodeObject = some d := by
  rw [ofDict, decodeObject, Dict.fromArray_entries]

@[simp] theorem decodeArray_array (items : List Json) : (array items).decodeArray = some items :=
  rfl

@[simp] theorem decodeString_string (s : String) : (string s).decodeString = some s := rfl

@[simp] theorem decodeNumber_number (n : ℚ) : (number n).decodeNumber = some n := rfl

@[simp] theorem decodeBoolean_boolean (b : Bool) : (boolean b).decodeBoolean = some b := rfl

end Json

/-! ### Integers -/

/-- `Belt.Int.toFloat` -/
def toFloat (i : Int32) : ℚ := i.toInt

/-- `Belt.Float.toInt`, which drops the fraction and then all but the low 32 bits. -/
def toInt (n : ℚ) : Int32 := .ofInt (n.num.tdiv n.den)

@[simp] theorem toInt_toFloat (i : Int32) : toInt (toFloat i) = i := by
  rw [toInt, toFloat, Rat.num_intCast, Rat.den_intCast, Nat.cast_one, Int.tdiv_one,
    Int32.ofInt_toInt]

end NextgenDatabases.Foundations
