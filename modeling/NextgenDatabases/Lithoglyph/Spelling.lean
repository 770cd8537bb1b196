import NextgenDatabases.Lithoglyph.Gql

/-!
# What a statement is written with

The tokens that write a statement down, and for which of them the parser keeps all it has read.
-/
namespace NextgenDatabases.Lithoglyph.Gql

variable {N : Type} {α β : Type}

/-! ### How statements are written -/

def Operator.chars : Operator → List Char
  | .text s => s.toList
  | .char c => [c]

/-- The entries of an object between its braces. -/
def spell (doc : Document) : Tokens := doc.flatMap fun entry => [entry.1, ":", entry.2]

namespace Words

variable (words : Words N)

def Is (t expected : String) : Prop := words.upper expected = words.upper t

instance (t expected : String) : Decidable (words.Is t expected) :=
  inferInstanceAs (Decidable (words.upper expected = words.upper t))

/-- WITH PROVENANCE { … } -/
def SpellsProvenance : Option Document → Tokens → Prop
  | none, ts => ts = []
  | some doc, ts => ∃ w p, ts = w :: p :: "\x7b" :: (spell doc ++ ["\x7d"]) ∧ words.Is w "WITH" ∧
      words.Is p "PROVENANCE"

/-- WHERE field op value, in which the operator may stand next to the value. -/
def SpellsWhere : Option WhereClause → Tokens → Prop
  | none, ts => ts = []
  | some ⟨⟨field, op, value⟩⟩, ts => ∃ w rest, ts = w :: field :: rest ∧ words.Is w "WHERE" ∧
      rest ≠ [] ∧ rest.flatMap String.toList = op.chars ++ value.toList

/-- WITH PROVENANCE -/
def SpellsFlag : Bool → Tokens → Prop
  | false, ts => ts = []
  | true, ts => ∃ w p, ts = [w, p] ∧ words.Is w "WITH" ∧ words.Is p "PROVENANCE"

/-- ( field type … ) -/
def SpellsFields (fields : List (String × String)) (ts : Tokens) : Prop :=
  fields = [] ∧ ts = [] ∨ ts = "(" :: (fields.flatMap fun def_ => [def_.1, def_.2]) ++ [")"]

/-- WITH SCHEMA { … }, of which an empty one may be left out. -/
def SpellsSchema : Option Document → Tokens → Prop
  | none, ts => ts = []
  | some doc, ts => ∃ w s rest, ts = w :: s :: rest ∧ words.Is w "WITH" ∧ words.Is s "SCHEMA" ∧
      (doc = [] ∧ rest = [] ∨ rest = "\x7b" :: (spell doc ++ ["\x7d"]))

def SpellsWord (expected : String) : Bool → Tokens → Prop
  | false, ts => ts = []
  | true, ts => ∃ w, ts = [w] ∧ words.Is w expected

def SpellsArgument [OfNat N 0] (target : String) : Argument N → Tokens → Prop
  | .none, ts => ts = []
  | .number n, ts => target = "JOURNAL" ∧ (n = 0 ∧ ts = [] ∨
      ∃ s t, ts = [s, t] ∧ words.Is s "SINCE" ∧ words.stringToNumber t = some n)
  | .name s, ts => ts = [s]

/-- The tokens write the statement: its keyword and then each of its clauses. -/
def Spells [OfNat N 0] [OfNat N 1] : Statement N → Tokens → Prop
  | .insert collection doc prov, ts => ∃ i into p,
      ts = i :: into :: collection :: "\x7b" :: (spell doc ++ "\x7d" :: p) ∧ words.upper i = "INSERT" ∧
        words.Is into "INTO" ∧ words.SpellsProvenance prov p
  | .select query, ts => ∃ s f w e l p,
      ts = s :: (query.fields ++ f :: query.collection :: (w ++ e ++ l ++ p)) ∧
        words.upper s = "SELECT" ∧ words.Is f "FROM" ∧ words.SpellsWhere query.whereClause w ∧
        words.parseEdgeClause e = .ok ([], query.edgeClause) ∧
        words.parseLimitClause l = .ok ([], query.limitClause) ∧
        words.SpellsFlag query.withProvenance p
  | .update collection assignments clause prov, ts => ∃ u s w p,
      ts = u :: collection :: s ::
          ((assignments.flatMap fun a => [a.1, "=", a.2]) ++ (w ++ p)) ∧
        words.upper u = "UPDATE" ∧ words.Is s "SET" ∧ words.SpellsWhere clause w ∧
        words.SpellsProvenance prov p
  | .delete collection clause prov, ts => ∃ d f w p,
      ts = d :: f :: collection :: (w ++ p) ∧ words.upper d = "DELETE" ∧ words.Is f "FROM" ∧
        words.SpellsWhere clause w ∧ words.SpellsProvenance prov p
  | .create collection fields schema, ts => ∃ c k f s,
      ts = c :: k :: collection :: (f ++ s) ∧ words.upper c = "CREATE" ∧
        words.Is k "COLLECTION" ∧ SpellsFields fields f ∧ words.SpellsSchema schema s
  | .drop collection prov, ts => ∃ d k p,
      ts = d :: k :: collection :: p ∧ words.upper d = "DROP" ∧ words.Is k "COLLECTION" ∧
        words.SpellsProvenance prov p
  | .explain inner analyze verbose, ts => ∃ e a v rest,
      ts = e :: (a ++ v ++ rest) ∧ words.upper e = "EXPLAIN" ∧
        words.SpellsWord "ANALYZE" analyze a ∧ words.SpellsWord "VERBOSE" verbose v ∧
        Spells inner rest
  | .introspect target arg, ts => ∃ i t rest,
      ts = i :: t :: rest ∧ words.upper i = "INTROSPECT" ∧ words.upper t = target ∧
        words.SpellsArgument target arg rest

/-! ### Statements without a rest -/

def provenanceComplete : Tokens → Bool
  | [] => true
  | [w, _, "\x7b", "\x7d"] => words.Is w "WITH"
  | _ => false

def whereComplete : Tokens → Bool
  | [] => true
  | w :: ts =>
    if words.Is w "WHERE" then
      match ts with
      | _ :: _ :: ts => words.provenanceComplete ts
      | _ => false
    else words.provenanceComplete (w :: ts)

def insertComplete : Tokens → Bool
  | _ :: _ :: "\x7b" :: "\x7d" :: ts => words.provenanceComplete ts
  | _ => false

/-- Nothing follows the collection. -/
def selectComplete : Tokens → Bool
  | "*" :: ts => ts.length = 2
  | ts => (ts.dropWhile (· ≠ "FROM")).length = 2

def assignmentsComplete : Tokens → Bool
  | field :: eq :: _ :: ts =>
    if field = "WHERE" then words.provenanceComplete ts
    else eq = "=" ∧ assignmentsComplete ts
  | _ => false

def updateComplete : Tokens → Bool
  | _ :: _ :: ts => words.assignmentsComplete ts
  | _ => false

def deleteComplete : Tokens → Bool
  | _ :: _ :: ts => words.whereComplete ts
  | _ => false

def schemaComplete : Tokens → Bool
  | [] => true
  | [w, _] => words.Is w "WITH"
  | [w, _, "\x7b", "\x7d"] => words.Is w "WITH"
  | _ => false

def fieldsComplete : Tokens → Bool
  | ")" :: ts => words.schemaComplete ts
  | _ :: _ :: ts => fieldsComplete ts
  | _ => false

def createComplete : Tokens → Bool
  | _ :: _ :: "(" :: ts => words.fieldsComplete ts
  | _ :: _ :: ts => words.schemaComplete ts
  | _ => false

def dropComplete : Tokens → Bool
  | _ :: _ :: ts => words.provenanceComplete ts
  | _ => false

def introspectComplete : Tokens → Bool
  | [_] => true
  | [t, arg] => (words.upper t = "SCHEMA" ∨ words.upper t = "CONSTRAINTS") ∧ ¬ words.keyword arg
  | [t, since, n] =>
    words.upper t = "JOURNAL" ∧ words.Is since "SINCE" ∧ (words.stringToNumber n).isSome
  | _ => false

/-- The statement has no clause that its parser passes over. -/
def complete : Tokens → Bool
  | [] => false
  | t :: ts =>
    if words.upper t = "INSERT" then words.insertComplete ts
    else if words.upper t = "SELECT" then selectComplete ts
    else if words.upper t = "UPDATE" then words.updateComplete ts
    else if words.upper t = "DELETE" then words.deleteComplete ts
    else if words.upper t = "CREATE" then words.createComplete ts
    else if words.upper t = "DROP" then words.dropComplete ts
    else if words.upper t = "EXPLAIN" then
      complete (words.tryConsume (words.tryConsume ts "ANALYZE").1 "VERBOSE").1
    else if words.upper t = "INTROSPECT" then words.introspectComplete ts
    else false
termination_by ts => ts.length
decreasing_by
  have hanalyze := words.length_tryConsume ts "ANALYZE"
  have hverbose := words.length_tryConsume (words.tryConsume ts "ANALYZE").1 "VERBOSE"
  simp only [List.length_cons]
  omega

end Words

/-! ### What each parser reads -/

theorem bind_ok {x : Parse α} {f : α → Parse β} {b : β} :
    x >>= f = .ok b ↔ ∃ a, x = .ok a ∧ f a = .ok b := by
  cases x with
  | error e => exact ⟨fun h => by simp [bind, Except.bind] at h, fun ⟨_, h, _⟩ => by simp at h⟩
  | ok a => simp [bind, Except.bind]

theorem consumeToken_ok {ts rest : Tokens} {t : String} :
    consumeToken ts = .ok (rest, t) ↔ ts = t :: rest := by
  cases ts with
  | nil => simp [consumeToken]
  | cons u us => simp [consumeToken, and_comm]

theorem peekToken_eq {ts : Tokens} {t : String} :
    peekToken ts = some t ↔ ∃ rest, ts = t :: rest := by
  cases ts with
  | nil => simp [peekToken]
  | cons u us => simp [peekToken]

theorem skipComma_of_notMem {ts : Tokens} (h : "," ∉ ts) : skipComma ts = ts := by
  refine if_neg fun hpeek => ?_
  obtain ⟨rest, rfl⟩ := peekToken_eq.mp hpeek
  exact h (List.mem_cons_self ..)

namespace Words

variable {words : Words N} {ts rest : Tokens}

theorem expectToken_ok {expected : String} :
    words.expectToken ts expected = .ok rest ↔ ∃ t, ts = t :: rest ∧ words.Is t expected := by
  cases ts with
  | nil => simp [expectToken]
  | cons u us =>
    simp only [expectToken, Is]
    split_ifs with h
    · simp [h]
    · simp only [List.cons.injEq, false_iff]
      rintro ⟨t, ⟨ht, -⟩, hword⟩
      exact h (ht ▸ hword)

theorem tryConsume_true {expected : String} :
    words.tryConsume ts expected = (rest, true) ↔ ∃ t, ts = t :: rest ∧ words.Is t expected := by
  cases ts with
  | nil => simp [tryConsume]
  | cons u us =>
    simp only [tryConsume, Is]
    split_ifs with h
    · simp [h]
    · simp only [Prod.mk.injEq, Bool.false_eq_true, and_false, List.cons.injEq, false_iff]
      rintro ⟨t, ⟨ht, -⟩, hword⟩
      exact h (ht ▸ hword)

theorem tryConsume_false {expected : String} :
    words.tryConsume ts expected = (rest, false) ↔
      rest = ts ∧ ∀ t us, ts = t :: us → ¬ words.Is t expected := by
  cases ts with
  | nil => simp [tryConsume, eq_comm]
  | cons u us =>
    simp only [tryConsume, Is]
    split_ifs with h
    · simp [h]
    · simp [h, eq_comm]

theorem parseIdentifier_ok {t : String} (h : words.parseIdentifier ts = .ok (rest, t)) :
    ts = t :: rest ∧ words.keyword t = false := by
  simp only [parseIdentifier, bind_ok, Prod.exists] at h
  obtain ⟨us, u, hconsume, h⟩ := h
  split_ifs at h with hkey
  obtain ⟨rfl, rfl⟩ := Prod.mk.injEq .. ▸ Except.ok.inj h
  exact ⟨consumeToken_ok.mp hconsume, Bool.eq_false_iff.mpr hkey⟩

/-- A WHERE clause is read up to its operator. -/
theorem parseWhereClause_ok {clause : Option WhereClause}
    (h : words.parseWhereClause ts = .ok (rest, clause)) :
    (clause = none ∧ rest = ts ∧ ∀ t us, ts = t :: us → ¬ words.Is t "WHERE") ∨
      ∃ w field op c cs, ts = w :: field :: op :: rest ∧ words.Is w "WHERE" ∧ op.toList = c :: cs ∧
        clause = some ⟨⟨field, .char c, String.ofList cs⟩⟩ := by
  unfold parseWhereClause at h
  split at h
  · next us htry =>
    obtain ⟨w, rfl, hw⟩ := tryConsume_true.mp htry
    simp only [bind_ok, Prod.exists] at h
    obtain ⟨vs, field, hfield, xs, op, hop, h⟩ := h
    obtain ⟨rfl, -⟩ := parseIdentifier_ok hfield
    obtain rfl := consumeToken_ok.mp hop
    split at h
    · next c cs hcs =>
      obtain ⟨rfl, rfl⟩ := Prod.mk.injEq .. ▸ Except.ok.inj h
      exact .inr ⟨w, field, op, c, cs, rfl, hw, hcs, rfl⟩
    · simp at h
  · next us htry =>
    obtain ⟨rfl, hnot⟩ := tryConsume_false.mp htry
    obtain ⟨rfl, rfl⟩ := Prod.mk.injEq .. ▸ Except.ok.inj h
    exact .inl ⟨rfl, rfl, hnot⟩

/-- A provenance clause has one token and then a closing brace. -/
theorem parseProvenanceClause_ok {prov : Option Document}
    (h : words.parseProvenanceClause ts = .ok (rest, prov)) :
    (prov = none ∧ rest = ts ∧ ∀ t us, ts = t :: us → ¬ words.Is t "WITH") ∨
      ∃ w p b, ts = w :: p :: b :: "\x7d" :: rest ∧ words.Is w "WITH" ∧ words.Is p "PROVENANCE" ∧
        prov = some [] := by
  unfold parseProvenanceClause at h
  split at h
  · next us htry =>
    obtain ⟨w, rfl, hw⟩ := tryConsume_true.mp htry
    simp only [bind_ok, Prod.exists] at h
    obtain ⟨vs, hexpect, xs, b, hb, h⟩ := h
    obtain ⟨p, rfl, hp⟩ := expectToken_ok.mp hexpect
    obtain rfl := consumeToken_ok.mp hb
    split_ifs at h with hpeek
    · obtain ⟨ys, rfl⟩ := peekToken_eq.mp hpeek
      simp only [bind_ok, Prod.exists] at h
      obtain ⟨zs, t, hconsume, h⟩ := h
      obtain ⟨rfl, rfl⟩ := List.cons.inj (consumeToken_ok.mp hconsume)
      obtain ⟨rfl, rfl⟩ := Prod.mk.injEq .. ▸ Except.ok.inj h
      exact .inr ⟨w, p, b, rfl, hw, hp, rfl⟩
    · simp [bind_ok] at h
  · next us htry =>
    obtain ⟨rfl, hnot⟩ := tryConsume_false.mp htry
    obtain ⟨rfl, rfl⟩ := Prod.mk.injEq .. ▸ Except.ok.inj h
    exact .inl ⟨rfl, rfl, hnot⟩

/-! ### Clauses at the end -/

/-- A provenance clause that ends the statement. -/
theorem spellsProvenance_iff {prov : Option Document}
    (h : words.parseProvenanceClause ts = .ok (rest, prov)) :
    words.SpellsProvenance prov ts ↔ words.provenanceComplete ts := by
  rcases parseProvenanceClause_ok h with ⟨rfl, rfl, hnot⟩ | ⟨w, p, b, rfl, hw, hp, rfl⟩
  · cases rest with
    | nil => simp [SpellsProvenance, provenanceComplete]
    | cons t us =>
      have hword := hnot t us rfl
      simp only [SpellsProvenance, reduceCtorEq, false_iff]
      unfold provenanceComplete
      split <;> simp_all
  · simp only [SpellsProvenance, spell, List.flatMap_nil, List.nil_append, List.cons.injEq]
    unfold provenanceComplete
    constructor
    · rintro ⟨_, _, ⟨-, -, rfl, -, rfl⟩, -, -⟩
      simpa using hw
    · intro hcomplete
      split at hcomplete
      · next heq => simp at heq
      · next heq =>
        simp only [List.cons.injEq] at heq
        exact ⟨w, p, ⟨rfl, rfl, heq.2.2.1, trivial, heq.2.2.2.2⟩, hw, hp⟩
      · simp at hcomplete

theorem whereComplete_cons {t : String} :
    words.whereComplete (t :: ts) =
      if words.Is t "WHERE" then
        match ts with
        | _ :: _ :: us => words.provenanceComplete us
        | _ => false
      else words.provenanceComplete (t :: ts) := rfl

/-- A list of tokens whose characters are those of its first one. -/
theorem eq_nil_of_flatMap {op : String} (hne : ∀ t ∈ ts, t ≠ "")
    (h : (op :: ts).flatMap String.toList = op.toList) : ts = [] := by
  rw [List.flatMap_cons, List.append_right_eq_self, List.flatMap_eq_nil_iff] at h
  exact List.eq_nil_iff_forall_not_mem.mpr fun t ht =>
    hne t ht (String.toList_eq_nil_iff.mp (h t ht))

/-- A WHERE and a provenance clause that end the statement. -/
theorem spellsWhere_iff {clause : Option WhereClause} {prov : Option Document} {us : Tokens}
    (hne : ∀ t ∈ ts, t ≠ "") (hwhere : words.parseWhereClause ts = .ok (us, clause))
    (hprov : words.parseProvenanceClause us = .ok (rest, prov)) :
    (∃ w p, ts = w ++ p ∧ words.SpellsWhere clause w ∧ words.SpellsProvenance prov p) ↔
      words.whereComplete ts := by
  have hiff := spellsProvenance_iff hprov
  rcases parseWhereClause_ok hwhere with ⟨rfl, rfl, hnot⟩ | ⟨w, field, op, c, cs, rfl, hw, hcs, rfl⟩
  · have hwhole : (∃ w p, us = w ++ p ∧ words.SpellsWhere none w ∧
        words.SpellsProvenance prov p) ↔ words.SpellsProvenance prov us := by
      constructor
      · rintro ⟨_, p, rfl, rfl, hp⟩
        exact hp
      · exact fun hp => ⟨[], us, rfl, rfl, hp⟩
    rw [hwhole, hiff]
    cases us with
    | nil => simp [whereComplete, provenanceComplete]
    | cons t vs => rw [whereComplete_cons, if_neg (hnot t vs rfl)]
  · rw [whereComplete_cons, if_pos hw, ← hiff]
    constructor
    · rintro ⟨_, p, hts, ⟨w', xs, rfl, -, hxs, hchars⟩, hp⟩
      simp only [List.cons_append, List.cons.injEq, true_and] at hts
      obtain ⟨rfl, hts⟩ := hts
      obtain ⟨x, ys, rfl⟩ := List.exists_cons_of_ne_nil hxs
      simp only [List.cons_append, List.cons.injEq] at hts
      obtain ⟨rfl, rfl⟩ := hts
      have hop : (op :: ys).flatMap String.toList = op.toList := by
        simpa [Operator.chars, hcs] using hchars
      obtain rfl := eq_nil_of_flatMap (fun t ht => hne t (by simp [ht])) hop
      exact hp
    · intro hp
      refine ⟨[w, field, op], us, rfl, ⟨w, [op], rfl, hw, by simp, ?_⟩, hp⟩
      simp [Operator.chars, hcs]

/-! ### Lists and optional clauses -/

theorem skipDocument_ok (h : skipDocument ts = .ok rest) :
    ∃ body, ts = body ++ "\x7d" :: rest ∧ "\x7d" ∉ body := by
  induction ts with
  | nil => simp [skipDocument] at h
  | cons t ts ih =>
    rw [skipDocument] at h
    split_ifs at h with ht
    · exact ⟨[], by rw [ht, Except.ok.inj h, List.nil_append], List.not_mem_nil⟩
    · obtain ⟨body, rfl, hbody⟩ := ih h
      exact ⟨t :: body, rfl, List.not_mem_cons_of_ne_of_not_mem (Ne.symm ht) hbody⟩

/-- Assignments, a WHERE and a provenance clause that end the statement. -/
theorem spellsAssignments_iff {assignments : List (String × String)} {clause : Option WhereClause}
    {prov : Option Document} {vs us : Tokens} (hne : ∀ u ∈ ts, u ≠ "") (hcomma : "," ∉ ts)
    (hassign : words.parseAssignments ts = .ok (vs, assignments))
    (hwhere : words.parseWhereClause vs = .ok (us, clause))
    (hprov : words.parseProvenanceClause us = .ok (rest, prov)) :
    (∃ w p, ts = (assignments.flatMap fun a => [a.1, "=", a.2]) ++ (w ++ p) ∧
      words.SpellsWhere clause w ∧ words.SpellsProvenance prov p) ↔
      words.assignmentsComplete ts := by
  induction ts using parseAssignments.induct words generalizing assignments with
  | case1 => simp [parseAssignments] at hassign
  | case2 ts =>
    rw [parseAssignments.eq_def] at hassign
    simp only [if_true] at hassign
    obtain ⟨rfl, rfl⟩ := Prod.mk.injEq .. ▸ Except.ok.inj hassign
    have hiff := spellsWhere_iff hne hwhere hprov
    rw [List.flatMap_nil]
    simp only [List.nil_append]
    rw [hiff, whereComplete_cons]
    rcases parseWhereClause_ok hwhere with ⟨-, -, hnot⟩ | ⟨w, field, op, c, cs, heq, hw, -⟩
    · exact absurd rfl (hnot _ _ rfl)
    · obtain ⟨rfl, rfl⟩ := List.cons.inj heq
      rw [if_pos hw, assignmentsComplete, if_pos rfl]
  | case3 field ts hfield hkey =>
    rw [parseAssignments.eq_def] at hassign
    simp [hfield, hkey] at hassign
  | case4 field hfield hkey eq value ts ih =>
    rw [parseAssignments, if_neg hfield, if_neg hkey] at hassign
    simp only [bind_ok, Prod.exists] at hassign
    obtain ⟨xs, more, hmore, hassign⟩ := hassign
    obtain ⟨rfl, rfl⟩ := Prod.mk.injEq .. ▸ Except.ok.inj hassign
    have hskip : skipComma ts = ts := skipComma_of_notMem fun h => hcomma (by simp [h])
    rw [hskip] at ih hmore
    have hmain := ih (fun u hu => hne u (by simp [hu])) (fun h => hcomma (by simp [h])) hmore
    rw [assignmentsComplete, if_neg hfield, Bool.decide_and, Bool.and_eq_true, decide_eq_true_eq,
      Bool.decide_eq_true, ← hmain]
    constructor
    · rintro ⟨w, p, heq, hw, hp⟩
      simp only [List.flatMap_cons, List.cons_append, List.nil_append, List.cons.injEq,
        true_and] at heq
      exact ⟨heq.1, w, p, heq.2, hw, hp⟩
    · rintro ⟨rfl, w, p, rfl, hw, hp⟩
      exact ⟨w, p, by simp, hw, hp⟩
  | case5 field ts hfield hkey hshort =>
    rw [parseAssignments, if_neg hfield, if_neg hkey] at hassign
    · simp at hassign
    · exact hshort

theorem parseFieldList_ok {fields : List String} (hcomma : "," ∉ ts)
    (h : parseFieldList ts = .ok (rest, fields)) :
    ts = fields ++ rest ∧ "FROM" ∉ fields ∧ ∃ us, rest = "FROM" :: us := by
  induction ts using parseFieldList.induct generalizing fields with
  | case1 => simp [parseFieldList] at h
  | case2 ts =>
    rw [parseFieldList, if_pos rfl] at h
    obtain ⟨rfl, rfl⟩ := Prod.mk.injEq .. ▸ Except.ok.inj h
    exact ⟨rfl, List.not_mem_nil, ts, rfl⟩
  | case3 t ts ht ih =>
    rw [parseFieldList, if_neg ht] at h
    simp only [bind_ok, Prod.exists] at h
    obtain ⟨xs, more, hmore, h⟩ := h
    obtain ⟨rfl, rfl⟩ := Prod.mk.injEq .. ▸ Except.ok.inj h
    have hskip : skipComma ts = ts := skipComma_of_notMem fun h => hcomma (by simp [h])
    rw [hskip] at ih hmore
    obtain ⟨rfl, hnotMem, us, rfl⟩ := ih (fun h => hcomma (by simp [h])) hmore
    exact ⟨rfl, List.not_mem_cons_of_ne_of_not_mem (Ne.symm ht) hnotMem, us, rfl⟩

theorem parseFieldDefs_ok {fields : List (String × String)} (hcomma : "," ∉ ts)
    (h : words.parseFieldDefs ts = .ok (rest, fields)) :
    ts = (fields.flatMap fun def_ => [def_.1, def_.2]) ++ ")" :: rest ∧
      words.fieldsComplete ts = words.schemaComplete rest := by
  induction ts using parseFieldDefs.induct words generalizing fields with
  | case1 => simp [parseFieldDefs] at h
  | case2 ts =>
    rw [parseFieldDefs.eq_def] at h
    simp only [if_true] at h
    obtain ⟨rfl, rfl⟩ := Prod.mk.injEq .. ▸ Except.ok.inj h
    exact ⟨rfl, rfl⟩
  | case3 field ts hfield hkey =>
    rw [parseFieldDefs.eq_def] at h
    simp [hfield, hkey] at h
  | case4 field hfield hkey type ts ih =>
    rw [parseFieldDefs, if_neg hfield, if_neg hkey] at h
    simp only [bind_ok, Prod.exists] at h
    obtain ⟨xs, more, hmore, h⟩ := h
    obtain ⟨rfl, rfl⟩ := Prod.mk.injEq .. ▸ Except.ok.inj h
    have hskip : skipComma ts = ts := skipComma_of_notMem fun h => hcomma (by simp [h])
    rw [hskip] at ih hmore
    obtain ⟨rfl, hcomplete⟩ := ih (fun h => hcomma (by simp [h])) hmore
    refine ⟨by simp, ?_⟩
    rw [fieldsComplete, hcomplete]
    exact fun h => hfield h
  | case5 field hfield hkey =>
    rw [parseFieldDefs.eq_def] at h
    simp [hfield, hkey] at h

theorem parseFieldDefinitions_ok {fields : List (String × String)} (hcomma : "," ∉ ts)
    (h : words.parseFieldDefinitions ts = .ok (rest, fields)) :
    (∃ f, ts = f ++ rest ∧ SpellsFields fields f ∧ (f = [] → peekToken ts ≠ some "(")) ∧
      ∀ k c, words.createComplete (k :: c :: ts) = words.schemaComplete rest := by
  unfold parseFieldDefinitions at h
  split_ifs at h with hpeek
  · obtain ⟨us, rfl⟩ := peekToken_eq.mp hpeek
    simp only [consumeToken, bind_ok, Except.ok.injEq, exists_eq_left'] at h
    obtain ⟨rfl, hcomplete⟩ := parseFieldDefs_ok (fun h => hcomma (by simp [h])) h
    exact ⟨⟨"(" :: (fields.flatMap fun def_ => [def_.1, def_.2]) ++ [")"], by simp, .inr rfl, by simp⟩,
      fun k c => hcomplete⟩
  · obtain ⟨rfl, rfl⟩ := Prod.mk.injEq .. ▸ Except.ok.inj h
    refine ⟨⟨[], rfl, .inl ⟨rfl, rfl⟩, fun _ => hpeek⟩, fun k c => ?_⟩
    unfold createComplete
    split
    · next heq =>
      simp only [List.cons.injEq] at heq
      exact absurd (peekToken_eq.mpr ⟨_, heq.2.2⟩) hpeek
    · next heq =>
      simp only [List.cons.injEq] at heq
      rw [heq.2.2]
    · next hnot => exact absurd rfl (hnot _ _ _)

/-- A schema clause that ends the statement. -/
theorem spellsSchema_iff {w s : String} (hw : words.Is w "WITH") (hs : words.Is s "SCHEMA") :
    words.SpellsSchema (some []) (w :: s :: rest) ↔ words.schemaComplete (w :: s :: rest) := by
  simp only [SpellsSchema, spell, List.flatMap_nil, List.nil_append, true_and]
  constructor
  · rintro ⟨_, _, us, heq, -, -, rfl | rfl⟩
    · obtain rfl := (List.cons.inj (List.cons.inj heq).2).2
      simpa [schemaComplete] using hw
    · obtain rfl := (List.cons.inj (List.cons.inj heq).2).2
      simpa [schemaComplete] using hw
  · intro hcomplete
    refine ⟨w, s, rest, rfl, hw, hs, ?_⟩
    unfold schemaComplete at hcomplete
    split at hcomplete
    · next heq => simp at heq
    · next heq => exact .inl (List.cons.inj (List.cons.inj heq).2).2
    · next heq => exact .inr (List.cons.inj (List.cons.inj heq).2).2
    · simp at hcomplete

theorem spellsFields_unique {fields : List (String × String)} {f f' : Tokens}
    (h : SpellsFields fields f) (h' : SpellsFields fields f') :
    f = f' ∨ fields = [] ∧ (f = [] ∧ f' = ["(", ")"] ∨ f = ["(", ")"] ∧ f' = []) := by
  rcases h with ⟨rfl, rfl⟩ | rfl <;> rcases h' with ⟨h', rfl⟩ | rfl
  · exact .inl rfl
  · exact .inr ⟨rfl, .inl ⟨rfl, rfl⟩⟩
  · exact .inr ⟨h', .inr ⟨by rw [h']; rfl, rfl⟩⟩
  · exact .inl rfl

theorem introspectComplete_journal {target : String} {us : Tokens}
    (ht : words.upper target = "JOURNAL") :
    words.introspectComplete (target :: us) = match us with
      | [] => true
      | [since, n] => words.Is since "SINCE" ∧ (words.stringToNumber n).isSome
      | _ => false := by
  unfold introspectComplete
  rcases us with _ | ⟨a, _ | ⟨b, _ | ⟨c, us⟩⟩⟩ <;> simp [ht]

/-- The tokens in front of a flag that is there. -/
theorem spellsWord_tryConsume (expected : String) : ∃ a, ts = a ++ (words.tryConsume ts expected).1 ∧
    words.SpellsWord expected (words.tryConsume ts expected).2 a := by
  cases hflag : (words.tryConsume ts expected).2 with
  | true =>
    obtain ⟨a, heq, ha⟩ := tryConsume_true.mp (Prod.ext rfl hflag)
    exact ⟨[a], heq, a, rfl, ha⟩
  | false =>
    obtain ⟨heq, -⟩ := tryConsume_false.mp (Prod.ext rfl hflag)
    exact ⟨[], heq.symm, rfl⟩

theorem length_spellsWord {expected : String} {flag : Bool} {a b : Tokens}
    (ha : words.SpellsWord expected flag a) (hb : words.SpellsWord expected flag b) :
    a.length = b.length := by
  cases flag with
  | false => rw [show a = [] from ha, show b = [] from hb]
  | true =>
    obtain ⟨x, rfl, -⟩ := ha
    obtain ⟨y, rfl, -⟩ := hb
    rfl

theorem mem_tryConsume {expected u : String} (h : u ∈ (words.tryConsume ts expected).1) :
    u ∈ ts := by
  obtain ⟨a, hts, -⟩ := @spellsWord_tryConsume _ words ts expected
  rw [hts]
  exact List.mem_append_right _ h

theorem parseEdgeClause_none [OfNat N 1] (h : words.parseEdgeClause ts = .ok (rest, none)) : rest = ts := by
  unfold parseEdgeClause at h
  split at h
  · simp only [bind_ok, Prod.exists] at h
    obtain ⟨us, type, -, vs, direction, -, h⟩ := h
    split at h
    · simp only [bind_ok, Prod.exists] at h
      obtain ⟨xs, depth, -, h⟩ := h
      simp at h
    · simp at h
  · exact (congrArg Prod.fst (Except.ok.inj h)).symm

theorem parseLimitClause_none [OfNat N 0] (h : words.parseLimitClause ts = .ok (rest, none)) : rest = ts := by
  unfold parseLimitClause at h
  split at h
  · simp only [bind_ok, Prod.exists] at h
    obtain ⟨us, limit, -, h⟩ := h
    split at h
    · simp only [bind_ok, Prod.exists] at h
      obtain ⟨xs, offset, -, h⟩ := h
      simp at h
    · simp at h
  · exact (congrArg Prod.fst (Except.ok.inj h)).symm

/-! ### Statements -/

variable {t : String} {ast : Statement N} [OfNat N 0] [OfNat N 1]

theorem parseInsert_ok (hkey : words.upper t = "INSERT")
    (h : words.parseInsert ts = .ok (rest, ast)) :
    words.Spells ast (t :: ts) ↔ words.insertComplete ts := by
  simp only [parseInsert, parseCollectionName, bind_ok, Prod.exists] at h
  obtain ⟨us, hinto, vs, collection, hcollection, xs, b, hb, ys, hbody, zs, prov, hprov, h⟩ := h
  obtain ⟨into, rfl, hword⟩ := expectToken_ok.mp hinto
  obtain ⟨rfl, -⟩ := parseIdentifier_ok hcollection
  obtain rfl := consumeToken_ok.mp hb
  obtain ⟨body, rfl, hbrace⟩ := skipDocument_ok hbody
  obtain ⟨rfl, rfl⟩ := Prod.mk.injEq .. ▸ Except.ok.inj h
  have hiff := spellsProvenance_iff hprov
  constructor
  · rintro ⟨i, into', p, heq, -, -, hp⟩
    simp only [spell, List.flatMap_nil, List.nil_append, List.cons.injEq, true_and] at heq
    obtain ⟨-, -, rfl, heq⟩ := heq
    cases body with
    | nil =>
      obtain rfl := (List.cons.inj heq).2
      exact hiff.mp hp
    | cons x body =>
      obtain rfl := (List.cons.inj heq).1
      exact absurd (List.mem_cons_self ..) hbrace
  · intro hcomplete
    unfold insertComplete at hcomplete
    split at hcomplete
    · next heq =>
      simp only [List.cons.injEq] at heq
      obtain ⟨-, -, rfl, heq⟩ := heq
      cases body with
      | nil =>
        obtain rfl := (List.cons.inj heq).2
        exact ⟨t, into, ys, rfl, hkey, hword, hiff.mpr hcomplete⟩
      | cons x body =>
        obtain rfl := (List.cons.inj heq).1
        exact absurd (List.mem_cons_self ..) hbrace
    · simp at hcomplete

theorem parseDelete_ok (hne : ∀ u ∈ ts, u ≠ "") (hkey : words.upper t = "DELETE")
    (h : words.parseDelete ts = .ok (rest, ast)) :
    words.Spells ast (t :: ts) ↔ words.deleteComplete ts := by
  simp only [parseDelete, parseCollectionName, bind_ok, Prod.exists] at h
  obtain ⟨us, hfrom, vs, collection, hcollection, xs, clause, hwhere, ys, prov, hprov, h⟩ := h
  obtain ⟨f, rfl, hword⟩ := expectToken_ok.mp hfrom
  obtain ⟨rfl, -⟩ := parseIdentifier_ok hcollection
  obtain ⟨rfl, rfl⟩ := Prod.mk.injEq .. ▸ Except.ok.inj h
  rw [deleteComplete, ← spellsWhere_iff (fun u hu => hne u (by simp [hu])) hwhere hprov]
  constructor
  · rintro ⟨d, f', w, p, heq, -, -, hw, hp⟩
    simp only [List.cons.injEq] at heq
    exact ⟨w, p, heq.2.2.2, hw, hp⟩
  · rintro ⟨w, p, rfl, hw, hp⟩
    exact ⟨t, f, w, p, rfl, hkey, hword, hw, hp⟩

theorem parseDrop_ok (hkey : words.upper t = "DROP") (h : words.parseDrop ts = .ok (rest, ast)) :
    words.Spells ast (t :: ts) ↔ words.dropComplete ts := by
  simp only [parseDrop, parseCollectionName, bind_ok, Prod.exists] at h
  obtain ⟨us, hexpect, vs, collection, hcollection, xs, prov, hprov, h⟩ := h
  obtain ⟨k, rfl, hword⟩ := expectToken_ok.mp hexpect
  obtain ⟨rfl, -⟩ := parseIdentifier_ok hcollection
  obtain ⟨rfl, rfl⟩ := Prod.mk.injEq .. ▸ Except.ok.inj h
  rw [dropComplete, ← spellsProvenance_iff hprov]
  constructor
  · rintro ⟨d, k', p, heq, -, -, hp⟩
    simp only [List.cons.injEq] at heq
    exact heq.2.2.2 ▸ hp
  · exact fun hp => ⟨t, k, vs, rfl, hkey, hword, hp⟩

theorem parseUpdate_ok (hne : ∀ u ∈ ts, u ≠ "") (hcomma : "," ∉ ts)
    (hkey : words.upper t = "UPDATE") (h : words.parseUpdate ts = .ok (rest, ast)) :
    words.Spells ast (t :: ts) ↔ words.updateComplete ts := by
  simp only [parseUpdate, parseCollectionName, bind_ok, Prod.exists] at h
  obtain ⟨us, collection, hcollection, vs, hset, xs, assignments, hassign, ys, clause, hwhere, zs,
    prov, hprov, h⟩ := h
  obtain ⟨rfl, -⟩ := parseIdentifier_ok hcollection
  obtain ⟨s, rfl, hword⟩ := expectToken_ok.mp hset
  obtain ⟨rfl, rfl⟩ := Prod.mk.injEq .. ▸ Except.ok.inj h
  rw [updateComplete, ← spellsAssignments_iff (fun u hu => hne u (by simp [hu]))
    (fun h => hcomma (by simp [h])) hassign hwhere hprov]
  constructor
  · rintro ⟨u, s', w, p, heq, -, -, hw, hp⟩
    simp only [List.cons.injEq] at heq
    exact ⟨w, p, heq.2.2.2, hw, hp⟩
  · rintro ⟨w, p, rfl, hw, hp⟩
    exact ⟨t, s, w, p, rfl, hkey, hword, hw, hp⟩

/-- Without the other clauses a SELECT is spelled up to its collection. -/
theorem spells_select {fields : List String} {collection f : String}
    (hkey : words.upper t = "SELECT") (hword : words.Is f "FROM") :
    words.Spells (.select ⟨fields, collection, none, none, none, false⟩)
      (t :: (fields ++ f :: collection :: rest)) ↔ rest = [] := by
  constructor
  · rintro ⟨s, f', w, e, l, p, heq, -, -, hw, he, hl, hp⟩
    obtain rfl : w = [] := hw
    obtain rfl : [] = e := parseEdgeClause_none he
    obtain rfl : [] = l := parseLimitClause_none hl
    obtain rfl : p = [] := hp
    have hlen := congrArg List.length heq
    simp only [List.length_cons, List.length_append, List.length_nil] at hlen
    exact List.eq_nil_of_length_eq_zero (by omega)
  · rintro rfl
    exact ⟨t, f, [], [], [], [], by simp, hkey, hword, rfl, rfl, rfl, rfl⟩

theorem parseSelect_ok (hcomma : "," ∉ ts) (hkey : words.upper t = "SELECT")
    (h : words.parseSelect ts = .ok (rest, ast)) :
    words.Spells ast (t :: ts) ↔ selectComplete ts := by
  simp only [parseSelect, parseCollectionName, bind_ok, Prod.exists] at h
  obtain ⟨us, fields, hfields, vs, hfrom, xs, collection, hcollection, h⟩ := h
  obtain ⟨f, rfl, hword⟩ := expectToken_ok.mp hfrom
  obtain ⟨rfl, -⟩ := parseIdentifier_ok hcollection
  obtain ⟨rfl, rfl⟩ := Prod.mk.injEq .. ▸ Except.ok.inj h
  unfold parseFields at hfields
  split_ifs at hfields with hpeek
  · obtain ⟨ys, rfl⟩ := peekToken_eq.mp hpeek
    simp only [consumeToken, bind_ok, Except.ok.injEq, exists_eq_left', Prod.mk.injEq] at hfields
    obtain ⟨rfl, rfl⟩ := hfields
    have hspells := @spells_select _ words xs _ _ _ ["*"] collection _ hkey hword
    rw [List.singleton_append] at hspells
    rw [hspells]
    simp [selectComplete]
  · obtain ⟨rfl, hnotMem, zs, hzs⟩ := parseFieldList_ok hcomma hfields
    obtain ⟨rfl, rfl⟩ := List.cons.inj hzs
    rw [spells_select hkey hword]
    have hdrop : (fields ++ "FROM" :: collection :: xs).dropWhile (· ≠ "FROM") =
        "FROM" :: collection :: xs := by
      rw [List.dropWhile_append_of_pos]
      · rfl
      · intro field hfield
        rw [decide_eq_true_eq]
        rintro rfl
        exact hnotMem hfield
    unfold selectComplete
    split
    · next heq => exact absurd (peekToken_eq.mpr ⟨_, heq⟩) hpeek
    · rw [hdrop]
      simp

/-! #### CREATE -/

/-- The fields are spelled in one way where a schema or nothing follows. -/
theorem spells_create {collection k : String} {fields : List (String × String)}
    {schema : Option Document} {f : Tokens} (hkey : words.upper t = "CREATE")
    (hk : words.Is k "COLLECTION") (hf : SpellsFields fields f)
    (hpeek : f = [] → peekToken (f ++ rest) ≠ some "(")
    (hschema : words.SpellsSchema schema rest ↔ words.schemaComplete rest)
    (hrest : schema = none ∨ ∃ w s us, rest = w :: s :: us ∧ words.Is w "WITH" ∧ schema = some []) :
    words.Spells (.create collection fields schema) (t :: k :: collection :: (f ++ rest)) ↔
      words.schemaComplete rest := by
  rw [← hschema]
  constructor
  · rintro ⟨c, k', f', s', heq, -, -, hf', hs'⟩
    simp only [List.cons.injEq, true_and] at heq
    obtain ⟨-, -, heq⟩ := heq
    rcases spellsFields_unique hf hf' with rfl | ⟨-, ⟨rfl, rfl⟩ | ⟨rfl, rfl⟩⟩
    · exact List.append_cancel_left heq ▸ hs'
    · exact absurd (peekToken_eq.mpr ⟨_, heq⟩) (hpeek rfl)
    · rcases hrest with rfl | ⟨w, s, us, rfl, hw, rfl⟩
      · exact absurd (heq.trans hs') (by simp)
      · obtain ⟨w', s', xs, hxs, -, -, hor⟩ := hs'
        have hxs : w :: s :: us = xs := by
          have htail := heq.trans hxs
          simp only [List.cons_append, List.nil_append, List.cons.injEq] at htail
          exact htail.2.2
        rcases hor with ⟨-, rfl⟩ | rfl
        · simp at hxs
        · simp only [spell, List.flatMap_nil, List.nil_append, List.cons.injEq] at hxs
          obtain ⟨-, -, rfl⟩ := hxs
          exact hschema.mpr (by simpa [schemaComplete] using hw)
  · exact fun hs => ⟨t, k, f, rest, rfl, hkey, hk, hf, hs⟩

theorem parseCreate_ok (hcomma : "," ∉ ts) (hkey : words.upper t = "CREATE")
    (h : words.parseCreate ts = .ok (rest, ast)) :
    words.Spells ast (t :: ts) ↔ words.createComplete ts := by
  simp only [parseCreate, parseCollectionName, bind_ok, Prod.exists] at h
  obtain ⟨us, hexpect, vs, collection, hcollection, xs, fields, hfields, h⟩ := h
  obtain ⟨k, rfl, hword⟩ := expectToken_ok.mp hexpect
  obtain ⟨rfl, -⟩ := parseIdentifier_ok hcollection
  obtain ⟨⟨f, rfl, hf, hpeek⟩, hcomplete⟩ :=
    parseFieldDefinitions_ok (fun h => hcomma (by simp [h])) hfields
  rw [hcomplete]
  split at h
  · next ys htry =>
    obtain ⟨w, rfl, hw⟩ := tryConsume_true.mp htry
    simp only [bind_ok] at h
    obtain ⟨zs, hexpect, h⟩ := h
    obtain ⟨s, rfl, hs⟩ := expectToken_ok.mp hexpect
    obtain ⟨rfl, rfl⟩ := Prod.mk.injEq .. ▸ Except.ok.inj h
    exact spells_create hkey hword hf hpeek (spellsSchema_iff hw hs) (.inr ⟨w, s, zs, rfl, hw, rfl⟩)
  · next ys htry =>
    obtain ⟨rfl, hnot⟩ := tryConsume_false.mp htry
    obtain ⟨rfl, rfl⟩ := Prod.mk.injEq .. ▸ Except.ok.inj h
    refine spells_create hkey hword hf hpeek ?_ (.inl rfl)
    cases ys with
    | nil => simp [SpellsSchema, schemaComplete]
    | cons w us =>
      have hw := hnot w us rfl
      simp only [SpellsSchema, reduceCtorEq, false_iff]
      unfold schemaComplete
      split <;> simp_all

/-! #### INTROSPECT and EXPLAIN -/

/-- What is spelled of an INTROSPECT is its argument. -/
theorem spells_introspect {target raw : String} {arg : Argument N} {us : Tokens}
    (hkey : words.upper t = "INTROSPECT") (hraw : words.upper raw = target) :
    words.Spells (.introspect target arg) (t :: raw :: us) ↔
      words.SpellsArgument target arg us := by
  constructor
  · rintro ⟨i, t', rest, heq, -, -, harg⟩
    simp only [List.cons.injEq] at heq
    exact heq.2.2 ▸ harg
  · exact fun harg => ⟨t, raw, us, rfl, hkey, hraw, harg⟩

theorem parseIntrospect_ok (hkey : words.upper t = "INTROSPECT")
    (h : words.parseIntrospect ts = .ok (rest, ast)) :
    words.Spells ast (t :: ts) ↔ words.introspectComplete ts := by
  simp only [parseIntrospect, bind_ok, Prod.exists] at h
  obtain ⟨us, raw, hconsume, h⟩ := h
  obtain rfl := consumeToken_ok.mp hconsume
  split_ifs at h with hjournal hschema
  · rw [introspectComplete_journal hjournal]
    split at h
    · next vs htry =>
      obtain ⟨s, rfl, hs⟩ := tryConsume_true.mp htry
      simp only [bind_ok, Prod.exists] at h
      obtain ⟨xs, since, hconsume, h⟩ := h
      obtain rfl := consumeToken_ok.mp hconsume
      split at h
      · next n hn =>
        obtain ⟨rfl, rfl⟩ := Prod.mk.injEq .. ▸ Except.ok.inj h
        rw [spells_introspect hkey rfl]
        cases xs with
        | nil => simp [SpellsArgument, hjournal, hs, hn]
        | cons x xs => simp [SpellsArgument]
      · next hn =>
        obtain ⟨rfl, rfl⟩ := Prod.mk.injEq .. ▸ Except.ok.inj h
        rw [spells_introspect hkey rfl]
        cases xs with
        | nil => simp [SpellsArgument, hn]
        | cons x xs => simp [SpellsArgument]
    · next vs htry =>
      obtain ⟨rfl, hnot⟩ := tryConsume_false.mp htry
      obtain ⟨rfl, rfl⟩ := Prod.mk.injEq .. ▸ Except.ok.inj h
      rw [spells_introspect hkey rfl]
      rcases vs with _ | ⟨a, _ | ⟨b, _ | ⟨c, vs⟩⟩⟩
      · simp [SpellsArgument, hjournal]
      · simp [SpellsArgument]
      · have ha := hnot a [b] rfl
        simp [SpellsArgument, ha]
      · simp [SpellsArgument]
  · have hne : words.upper raw ≠ "JOURNAL" := hjournal
    cases us with
    | nil =>
      obtain ⟨rfl, rfl⟩ := Prod.mk.injEq .. ▸ Except.ok.inj h
      rw [spells_introspect hkey rfl]
      simp [SpellsArgument, introspectComplete]
    | cons next us =>
      simp only at h
      split_ifs at h with hkeyword
      · obtain ⟨rfl, rfl⟩ := Prod.mk.injEq .. ▸ Except.ok.inj h
        rw [spells_introspect hkey rfl]
        rcases us with _ | ⟨b, _ | ⟨c, us⟩⟩ <;>
          simp [SpellsArgument, introspectComplete, hkeyword, hne]
      · obtain ⟨rfl, rfl⟩ := Prod.mk.injEq .. ▸ Except.ok.inj h
        rw [spells_introspect hkey rfl]
        rcases us with _ | ⟨b, _ | ⟨c, us⟩⟩ <;>
          simp [SpellsArgument, introspectComplete, hkeyword, hne, hschema]
  · obtain ⟨rfl, rfl⟩ := Prod.mk.injEq .. ▸ Except.ok.inj h
    rw [spells_introspect hkey rfl]
    rcases us with _ | ⟨a, _ | ⟨b, _ | ⟨c, us⟩⟩⟩ <;>
      simp [SpellsArgument, introspectComplete, hjournal, not_or.mp hschema]

theorem spells_explain {inner : Statement N} (hkey : words.upper t = "EXPLAIN") :
    words.Spells (.explain inner (words.tryConsume ts "ANALYZE").2
        (words.tryConsume (words.tryConsume ts "ANALYZE").1 "VERBOSE").2) (t :: ts) ↔
      words.Spells inner (words.tryConsume (words.tryConsume ts "ANALYZE").1 "VERBOSE").1 := by
  obtain ⟨a, hts, ha⟩ := @spellsWord_tryConsume _ words ts "ANALYZE"
  obtain ⟨v, hus, hv⟩ := @spellsWord_tryConsume _ words (words.tryConsume ts "ANALYZE").1
    "VERBOSE"
  have hwhole : ts =
      a ++ v ++ (words.tryConsume (words.tryConsume ts "ANALYZE").1 "VERBOSE").1 := by
    rw [List.append_assoc, ← hus, ← hts]
  constructor
  · rintro ⟨e, a', v', xs, heq, -, ha', hv', hspells⟩
    have htail := (List.cons.inj heq).2
    rw [hwhole] at htail
    have hlen : (a ++ v).length = (a' ++ v').length := by
      rw [List.length_append, List.length_append, length_spellsWord ha ha', length_spellsWord hv hv']
    rwa [(List.append_inj htail hlen).2]
  · exact fun hspells => ⟨t, a, v, _, by rw [← hwhole], hkey, ha, hv, hspells⟩

/-! ### The whole statement -/

/-- A parsed statement is spelled by its tokens just when no clause is passed over. -/
theorem spells_iff_complete (hne : ∀ u ∈ ts, u ≠ "") (hcomma : "," ∉ ts)
    (h : words.parseStatement ts = .ok (rest, ast)) : words.Spells ast ts ↔ words.complete ts := by
  induction ts using complete.induct words generalizing ast rest with
  | case1 => simp [parseStatement] at h
  | case2 t ts hkey =>
    rw [parseStatement, if_pos hkey] at h
    rw [complete, if_pos hkey]
    exact parseInsert_ok hkey h
  | case3 t ts h1 hkey =>
    rw [parseStatement, if_neg h1, if_pos hkey] at h
    rw [complete, if_neg h1, if_pos hkey]
    exact parseSelect_ok (fun hu => hcomma (by simp [hu])) hkey h
  | case4 t ts h1 h2 hkey =>
    rw [parseStatement, if_neg h1, if_neg h2, if_pos hkey] at h
    rw [complete, if_neg h1, if_neg h2, if_pos hkey]
    exact parseUpdate_ok (fun u hu => hne u (by simp [hu])) (fun hu => hcomma (by simp [hu])) hkey h
  | case5 t ts h1 h2 h3 hkey =>
    rw [parseStatement, if_neg h1, if_neg h2, if_neg h3, if_pos hkey] at h
    rw [complete, if_neg h1, if_neg h2, if_neg h3, if_pos hkey]
    exact parseDelete_ok (fun u hu => hne u (by simp [hu])) hkey h
  | case6 t ts h1 h2 h3 h4 hkey =>
    rw [parseStatement, if_neg h1, if_neg h2, if_neg h3, if_neg h4, if_pos hkey] at h
    rw [complete, if_neg h1, if_neg h2, if_neg h3, if_neg h4, if_pos hkey]
    exact parseCreate_ok (fun hu => hcomma (by simp [hu])) hkey h
  | case7 t ts h1 h2 h3 h4 h5 hkey =>
    rw [parseStatement, if_neg h1, if_neg h2, if_neg h3, if_neg h4, if_neg h5, if_pos hkey] at h
    rw [complete, if_neg h1, if_neg h2, if_neg h3, if_neg h4, if_neg h5, if_pos hkey]
    exact parseDrop_ok hkey h
  | case8 t ts h1 h2 h3 h4 h5 h6 hkey ih =>
    rw [parseStatement, if_neg h1, if_neg h2, if_neg h3, if_neg h4, if_neg h5, if_neg h6,
      if_pos hkey] at h
    rw [complete, if_neg h1, if_neg h2, if_neg h3, if_neg h4, if_neg h5, if_neg h6, if_pos hkey]
    simp only [bind_ok, Prod.exists] at h
    obtain ⟨us, inner, hinner, h⟩ := h
    obtain ⟨rfl, rfl⟩ := Prod.mk.injEq .. ▸ Except.ok.inj h
    rw [spells_explain hkey]
    refine ih (fun u hu => hne u ?_) (fun hu => hcomma ?_) hinner
    · exact List.mem_cons_of_mem _ (mem_tryConsume (mem_tryConsume hu))
    · exact List.mem_cons_of_mem _ (mem_tryConsume (mem_tryConsume hu))
  | case9 t ts h1 h2 h3 h4 h5 h6 h7 hkey =>
    rw [parseStatement, if_neg h1, if_neg h2, if_neg h3, if_neg h4, if_neg h5, if_neg h6,
      if_neg h7, if_pos hkey] at h
    rw [complete, if_neg h1, if_neg h2, if_neg h3, if_neg h4, if_neg h5, if_neg h6, if_neg h7,
      if_pos hkey]
    exact parseIntrospect_ok hkey h
  | case10 t ts h1 h2 h3 h4 h5 h6 h7 hkey =>
    rw [parseStatement, if_neg h1, if_neg h2, if_neg h3, if_neg h4, if_neg h5, if_neg h6,
      if_neg h7, if_neg hkey] at h
    simp at h

end Words

theorem tokens_ne {s u : String} (h : u ∈ tokens s) : u ≠ "" ∧ u ≠ "," := by
  simp only [tokens, splitTokens, List.mem_filter, List.mem_map, decide_eq_true_eq] at h
  obtain ⟨⟨cs, ⟨-, hcs⟩, rfl⟩, hcomma⟩ := h
  refine ⟨fun hempty => hcs ?_, hcomma⟩
  simpa using congrArg String.toList hempty

/-! ### Rows of a query -/

theorem mem_filterWhere {clause : Option WhereClause} {docs kept : List Document}
    (h : filterWhere clause docs = .ok kept) {doc : Document} (hdoc : doc ∈ kept) :
    doc ∈ docs ∧ matchWhere doc clause = .ok true := by
  induction docs generalizing kept with
  | nil =>
    obtain rfl := Except.ok.inj h
    simp at hdoc
  | cons d docs ih =>
    simp only [filterWhere, bind_ok] at h
    obtain ⟨keep, hkeep, rest, hrest, h⟩ := h
    obtain rfl := Except.ok.inj h
    split_ifs at hdoc with htrue
    · rcases List.mem_cons.mp hdoc with rfl | hdoc
      · exact ⟨List.mem_cons_self .., htrue ▸ hkeep⟩
      · exact ⟨List.mem_cons_of_mem _ (ih hrest hdoc).1, (ih hrest hdoc).2⟩
    · exact ⟨List.mem_cons_of_mem _ (ih hrest hdoc).1, (ih hrest hdoc).2⟩

theorem headClamp_subset (docs : List Document) (n : Option ℕ) : headClamp docs n ⊆ docs := by
  cases n with
  | none => exact List.Subset.refl _
  | some n => exact List.take_subset n docs

theorem tailClamp_subset (docs : List Document) (n : Option ℕ) : tailClamp docs n ⊆ docs := by
  cases n with
  | none => exact List.Subset.refl _
  | some n => exact List.drop_subset n docs

/-- Every row comes from a document that meets the WHERE clause of the query. -/
theorem executeSelect_rows (words : Words N) {query : GqlSelect N} {docs : List Document}
    {result : SelectResult} (h : words.executeSelect query docs = .ok result) :
    ∀ row ∈ result.rows, ∃ doc ∈ docs, matchWhere doc query.whereClause = .ok true ∧
      row = project query.fields doc := by
  simp only [Words.executeSelect, bind_ok] at h
  obtain ⟨filtered, hfiltered, h⟩ := h
  obtain rfl := Except.ok.inj h
  intro row hrow
  obtain ⟨doc, hdoc, rfl⟩ := List.mem_map.mp hrow
  have hmem : doc ∈ filtered := by
    cases hlim : query.limitClause with
    | none => simpa [hlim] using hdoc
    | some lim =>
      rw [hlim] at hdoc
      exact headClamp_subset _ _ (tailClamp_subset _ _ hdoc)
  obtain ⟨hin, hmatch⟩ := mem_filterWhere hfiltered hmem
  exact ⟨doc, hin, hmatch, rfl⟩

/-- The statement is spelled by all the tokens, and a query returns only rows that meet its WHERE
clause. -/
structure Whole [OfNat N 0] [OfNat N 1] (words : Words N) (s : String) (ast : Statement N) :
    Prop where
  spelled : words.Spells ast (tokens s)
  rows : ∀ query, ast = .select query → ∀ docs result,
    words.executeSelect query docs = .ok result → ∀ row ∈ result.rows,
      ∃ doc ∈ docs, matchWhere doc query.whereClause = .ok true ∧ row = project query.fields doc

/-- A parsed text is the whole statement just when its statement is complete. -/
theorem whole_iff [OfNat N 0] [OfNat N 1] (words : Words N) {s : String} {ast : Statement N}
    (h : words.parseGql s = .ok ast) : Whole words s ast ↔ words.complete (tokens s) := by
  simp only [Words.parseGql, bind_ok, Prod.exists] at h
  obtain ⟨rest, ast', hparse, h⟩ := h
  obtain rfl := Except.ok.inj h
  have hiff := Words.spells_iff_complete (fun u hu => (tokens_ne hu).1)
    (fun hu => (tokens_ne hu).2 rfl) hparse
  rw [← hiff]
  exact ⟨fun hwhole => hwhole.spelled,
    fun hspelled => ⟨hspelled, fun query _ docs result hresult => executeSelect_rows words hresult⟩⟩

/-! ### Two queries -/

/-- The words on ASCII texts and decimal digits. -/
def asciiWords : Words ℕ where
  upper s := String.ofList (s.toList.map Char.toUpper)
  stringToNumber := String.toNat?
  toIndex n := n

theorem parse_select (rest : Tokens) :
    asciiWords.parseStatement ("SELECT" :: "*" :: "FROM" :: "t" :: rest) =
      .ok (rest, .select ⟨["*"], "t", none, none, none, false⟩) := by
  rw [Words.parseStatement]
  rfl

theorem select_whole : ∃ ast, asciiWords.parseGql "SELECT * FROM t" = .ok ast ∧
    Whole asciiWords "SELECT * FROM t" ast := by
  have htokens : tokens "SELECT * FROM t" = ["SELECT", "*", "FROM", "t"] := by decide
  have hparse : asciiWords.parseGql "SELECT * FROM t" =
      .ok (.select ⟨["*"], "t", none, none, none, false⟩) := by
    rw [Words.parseGql, htokens, parse_select]
    rfl
  refine ⟨_, hparse, (whole_iff asciiWords hparse).mpr ?_⟩
  rw [htokens, Words.complete]
  rfl

/-- The WHERE clause is dropped. -/
theorem where_dropped : ∃ ast, asciiWords.parseGql "SELECT * FROM t WHERE a = 1" = .ok ast ∧
    ¬ Whole asciiWords "SELECT * FROM t WHERE a = 1" ast := by
  have htokens : tokens "SELECT * FROM t WHERE a = 1" =
      ["SELECT", "*", "FROM", "t", "WHERE", "a", "=", "1"] := by decide
  refine ⟨.select ⟨["*"], "t", none, none, none, false⟩, ?_, fun hwhole => ?_⟩
  · rw [Words.parseGql, htokens, parse_select]
    rfl
  · have hspelled := hwhole.spelled
    rw [htokens] at hspelled
    have hrest := (@Words.spells_select _ _ ["WHERE", "a", "=", "1"] _ _ _ ["*"] _ _ rfl
      rfl).mp hspelled
    exact absurd hrest (by decide)

end NextgenDatabases.Lithoglyph.Gql
