import NextgenDatabases.Registry.Serializer

/-!
# What the serializer reads back

Every value that the serializer writes is read back as it was, and so are the lines of the
write-ahead log.
-/
namespace NextgenDatabases.KRaftSerializer

open Foundations (Dict Json toFloat toInt)
open Foundations.Json (decodeNumber stringAt numberAt booleanAt arrayAt objectAt)
open Vcl (Text)
open Vcl.Parser (isSpace)

-- Members of objects are looked up in the lists that the encoders write.
attribute [local simp] stringAt numberAt booleanAt arrayAt objectAt Dict.get_fromArray List.lookup

@[simp] theorem toInt_number (i : Int32) : (decodeNumber (int i)).map toInt = some i := by
  simp [int]

theorem commandFromJson_commandToJson (cmd : Command) :
    commandFromJson (commandToJson cmd) = some cmd := by
  cases cmd with
  | registerStore storeId endpoint modalities =>
    simp [commandToJson, commandFromJson, List.filterMap_map, Function.comp_def]
  | unregisterStore storeId =>
    simp [commandToJson, commandFromJson]
  | mapHexad hexadId locations =>
    simp [commandToJson, commandFromJson]
  | unmapHexad hexadId =>
    simp [commandToJson, commandFromJson]
  | updateTrust storeId newTrust =>
    simp [commandToJson, commandFromJson]
  | noOp => simp [commandToJson, commandFromJson]

@[simp] theorem logEntryFromJson_logEntryToJson (entry : LogEntry) :
    logEntryFromJson (logEntryToJson entry) = some entry := by
  simp [logEntryToJson, logEntryFromJson, intAt, commandFromJson_commandToJson]

@[simp] theorem roleFromString_roleToString (role : NodeRole) :
    roleFromString (roleToString role) = some role := by
  cases role <;> rfl

@[simp] theorem votedForFromJson_votedForToJson (votedFor : Option String) :
    votedForFromJson (votedForToJson votedFor) = some votedFor := by
  cases votedFor <;> rfl

/-- Numbers in a dictionary are all numbers, so that none is left out. -/
@[simp] theorem jsonToDictNumbers_dictToJsonNumbers (d : Dict Int32) :
    jsonToDictNumbers (dictToJsonNumbers d) = d := by
  have hkeep : (d.map int).entries.filterMap
      (fun e => (decodeNumber e.2).map fun n => (e.1, toInt n)) = d.entries := by
    simp [Dict.map, int, List.filterMap_map, Function.comp_def]
  rw [jsonToDictNumbers, dictToJsonNumbers, Dict.fromArray_map int, Json.decodeObject_ofDict]
  simp only [hkeep, Dict.fromArray_entries]

theorem nodeStateFromJson_nodeStateToJson (state : NodeState) :
    nodeStateFromJson (nodeStateToJson state) = some state := by
  simp [nodeStateToJson, nodeStateFromJson, intAt]

theorem appendEntriesRequestFromJson_appendEntriesRequestToJson (req : AppendEntriesRequest) :
    appendEntriesRequestFromJson (appendEntriesRequestToJson req) = some req := by
  simp [appendEntriesRequestToJson, appendEntriesRequestFromJson, intAt]

/-! ### The write-ahead log -/

/-- The text of an object is read back as that object, and has no line break. -/
structure JsonText.Writes (text : JsonText) (j : Json) : Prop where
  parse : text.parseExn (text.stringify j) = some j
  noNewline : '\n' ∉ text.stringify j
  braces : ∃ body, text.stringify j = '\x7b' :: (body ++ ['\x7d'])

theorem trim_braces (body : Text) :
    trim ('\x7b' :: (body ++ ['\x7d'])) = '\x7b' :: (body ++ ['\x7d']) := by
  have hopen : isSpace '\x7b' = false := by decide
  have hclose : isSpace '\x7d' = false := by decide
  rw [trim, List.dropWhile_cons_of_neg (by simp [hopen]), ← List.cons_append,
    List.rdropWhile_concat_neg _ _ _ (by simp [hclose])]

variable {text : JsonText}

theorem walDecode_walEncode {entry : LogEntry} (h : text.Writes (logEntryToJson entry)) :
    trim (walEncode text entry) = walEncode text entry ∧
      0 < (walEncode text entry).length ∧
      walDecode text (walEncode text entry) = some entry := by
  obtain ⟨body, hbody⟩ := h.braces
  refine ⟨?_, ?_, ?_⟩
  · rw [walEncode, hbody, trim_braces]
  · rw [walEncode, hbody, List.length_cons]
    exact Nat.succ_pos _
  · rw [walDecode, walEncode, h.parse, Option.bind_eq_bind, Option.bind_some,
      logEntryFromJson_logEntryToJson]

theorem walDecodeAll_walEncodeAll {entries : List LogEntry}
    (h : ∀ entry ∈ entries, text.Writes (logEntryToJson entry)) :
    walDecodeAll text (walEncodeAll text entries) = entries := by
  by_cases hnil : entries = []
  · rw [hnil]
    rfl
  · have hlines : (walEncodeAll text entries).splitOn '\n' = entries.map (walEncode text) := by
      apply List.splitOn_intercalate
      · intro line hline
        obtain ⟨entry, hentry, rfl⟩ := List.mem_map.mp hline
        exact (h entry hentry).noNewline
      · simpa using hnil
    rw [walDecodeAll, hlines, List.filterMap_map]
    calc
      _ = entries.filterMap some := by
        refine List.filterMap_congr fun entry hentry => ?_
        obtain ⟨htrim, hlength, hdecode⟩ := walDecode_walEncode (h entry hentry)
        simp only [Function.comp_apply, htrim, hlength, if_true, hdecode]
      _ = entries := List.filterMap_some

/-- The whole format. -/
theorem serializer_round_trip :
    (∀ state, nodeStateFromJson (nodeStateToJson state) = some state) ∧
    (∀ req, voteRequestFromJson (voteRequestToJson req) = some req) ∧
    (∀ res, voteResponseFromJson (voteResponseToJson res) = some res) ∧
    (∀ req, appendEntriesRequestFromJson (appendEntriesRequestToJson req) = some req) ∧
    (∀ res, appendEntriesResponseFromJson (appendEntriesResponseToJson res) = some res) ∧
    ∀ (text : JsonText) (entries : List LogEntry),
      (∀ entry ∈ entries, text.Writes (logEntryToJson entry)) →
      walDecodeAll text (walEncodeAll text entries) = entries := by
  refine ⟨nodeStateFromJson_nodeStateToJson, fun req => ?_, fun res => ?_,
    appendEntriesRequestFromJson_appendEntriesRequestToJson, fun res => ?_,
    fun text entries h => walDecodeAll_walEncodeAll h⟩
  · simp [voteRequestToJson, voteRequestFromJson, intAt]
  · simp [voteResponseToJson, voteResponseFromJson, intAt]
  · simp [appendEntriesResponseToJson, appendEntriesResponseFromJson, intAt]

def registered : LogEntry := ⟨1, 1, .registerStore "s1" "http://s1" ["graph"], 0⟩

def unregistered : LogEntry := ⟨1, 2, .unregisterStore "s1", 5⟩

/-- The members of `registered`. -/
def registeredBody : Text :=
  ("\"term\":1,\"index\":1,\"command\":\x7b\"type\":\"RegisterStore\",\"storeId\":\"s1\"," ++
    "\"endpoint\":\"http://s1\",\"modalities\":[\"graph\"]\x7d,\"timestamp\":0").toList

/-- The members of `unregistered`. -/
def unregisteredBody : Text :=
  ("\"term\":1,\"index\":2,\"command\":\x7b\"type\":\"UnregisterStore\"," ++
    "\"storeId\":\"s1\"\x7d,\"timestamp\":5").toList

def inBraces (body : Text) : Text := '\x7b' :: (body ++ ['\x7d'])

/-- The texts of the two entries. -/
def twoTexts : JsonText where
  stringify json :=
    if (logEntryFromJson json).map LogEntry.index = some 2 then inBraces unregisteredBody
    else inBraces registeredBody
  parseExn line :=
    if line = inBraces registeredBody then some (logEntryToJson registered)
    else if line = inBraces unregisteredBody then some (logEntryToJson unregistered)
    else none

theorem serializer_round_trip_two :
    walDecodeAll twoTexts (walEncodeAll twoTexts [registered, unregistered]) =
      [registered, unregistered] := by
  have hfirst : twoTexts.stringify (logEntryToJson registered) = inBraces registeredBody := by
    simp [twoTexts, registered]
  have hsecond : twoTexts.stringify (logEntryToJson unregistered) = inBraces unregisteredBody := by
    simp [twoTexts, unregistered]
  refine serializer_round_trip.2.2.2.2.2 twoTexts [registered, unregistered] fun entry hentry => ?_
  have hne : inBraces unregisteredBody ≠ inBraces registeredBody := by decide +kernel
  rcases List.mem_pair.mp hentry with rfl | rfl
  · refine ⟨?_, ?_, _, hfirst⟩
    · rw [hfirst]
      simp only [twoTexts, if_true]
    · rw [hfirst]
      decide +kernel
  · refine ⟨?_, ?_, _, hsecond⟩
    · rw [hsecond]
      simp only [twoTexts, hne, if_false, if_true]
    · rw [hsecond]
      decide +kernel

end NextgenDatabases.KRaftSerializer
