import Mathlib.Data.List.DropRight
import NextgenDatabases.Foundations.Clauses
import NextgenDatabases.Vcl.Termination

/-!
# Text that is left over

The entry points do not look at how much of the text has been read. Exactly which texts are
read as a whole.
-/
namespace NextgenDatabases.Vcl

open NextgenDatabases.Vcl.Parser
open Foundations (Clause)
open Relation (ReflTransGen)

def Blank (s : Text) : Prop := ∀ c ∈ s, isSpace c = true

instance : DecidablePred Blank := fun _ => decidable_of_iff _ List.all_eq_true

/-- If the parser succeeds, all that it has not consumed is white space. -/
def Whole {α : Type} (p : Parser α) (s : Text) : Prop :=
  ∀ value consumed, p s = .ok value consumed → Blank (s.drop consumed)

/-! ### Clauses -/

section

variable {α β : Type} {p : Parser α} {f : α → Parser β} {s t u : Text}

theorem whole_iff_blank : Whole p s ↔ ∀ a t, Reads p s a t → Blank t := by
  constructor
  · rintro h a t ⟨k, hok, rfl⟩
    exact h a k hok
  · intro h value consumed hok
    exact h value _ ⟨consumed, hok, rfl⟩

/-- A parser that comes to a result fails where it reads nothing. -/
theorem fails_iff [Halts s.length p] : (∃ e, p s = .error e) ↔ ∀ a t, ¬ Reads p s a t := by
  have hhalts : p s ≠ .diverges := Halts.ne_diverges s le_rfl
  unfold Reads
  cases h : p s with
  | ok value consumed => simp
  | error e => simp
  | diverges => exact absurd h hhalts

theorem not_prefix_of_prefix {k l : String}
    (h : ¬ (k.toList <+: l.toList ∨ l.toList <+: k.toList)) (hk : k.toList <+: s) :
    ¬ l.toList <+: s := by
  intro hl
  exact h (List.prefix_or_prefix_of_prefix hk hl)

/-- All that the parser reads opens with the keyword. -/
class Opens (k : String) (p : Parser α) : Prop where
  isPrefix : ∀ {s a t}, Reads p s a t → k.toList <+: s

instance {k : String} {f : String → Parser α} : Opens k ((keyword k).bind f) where
  isPrefix := by
    intro s a t h
    obtain ⟨_, _, hk, -⟩ := reads_bind.mp h
    exact (reads_keyword.mp hk).1

/-- The clause that a parser reads. -/
def clause (k : String) (p : Parser α) [Opens k p] : Clause Text String where
  name := k
  starts := fun s => k.toList <+: s
  read := fun s =>
    match p s with
    | .ok _ consumed => some (s.drop consumed)
    | _ => none
  starts_of_read := by
    intro s t h
    split at h
    · exact Opens.isPrefix (p := p) ⟨_, ‹_›, rfl⟩
    · cases h

variable {k : String} [Opens k p]

theorem clause_read_of_reads {a : α} (h : Reads p s a t) :
    (clause k p).read s = some t := by
  obtain ⟨consumed, hok, rfl⟩ := h
  simp [clause, hok]

theorem clause_read_of_fails (h : ∃ e, p s = .error e) : (clause k p).read s = none := by
  obtain ⟨e, he⟩ := h
  simp [clause, he]

theorem rest_of_reads_optional {o : Option α} (h : Reads (optional p) s o t) :
    t = (clause k p).rest s ∧ (o = none ↔ (clause k p).read s = none) := by
  unfold Clause.rest
  rcases reads_optional.mp h with ⟨a, rfl, hread⟩ | ⟨rfl, hfails, rfl⟩
  · rw [clause_read_of_reads hread]
    simp
  · rw [clause_read_of_fails hfails]
    simp

theorem exists_reads_optional [Halts s.length p] :
    ∃ o, Reads (optional p) s o ((clause k p).rest s) := by
  by_cases h : ∃ a t, Reads p s a t
  · obtain ⟨a, t, hread⟩ := h
    have hopt : Reads (optional p) s (some a) t := reads_optional.mpr (.inl ⟨a, rfl, hread⟩)
    rw [← (rest_of_reads_optional (k := k) hopt).1]
    exact ⟨some a, hopt⟩
  · have hfails : ∃ e, p s = .error e := fails_iff.mpr fun a t hread => h ⟨a, t, hread⟩
    have hopt : Reads (optional p) s none s := reads_optional.mpr (.inr ⟨rfl, hfails, rfl⟩)
    rw [← (rest_of_reads_optional (k := k) hopt).1]
    exact ⟨none, hopt⟩

end

open Grammar

instance : Opens "GROUP" groupByClause := by
  unfold groupByClause
  infer_instance

instance : Opens "PROOF" proofClause := by
  unfold proofClause
  infer_instance

instance : Opens "ORDER" orderByClause := by
  unfold orderByClause
  infer_instance

instance : Opens "LIMIT" limitClause := by
  unfold limitClause
  infer_instance

instance : Opens "OFFSET" offsetClause := by
  unfold offsetClause
  infer_instance

def groupByPart : Clause Text String := clause "GROUP" groupByClause

def proofPart : Clause Text String := clause "PROOF" proofClause

def orderByPart : Clause Text String := clause "ORDER" orderByClause

def limitPart : Clause Text String := clause "LIMIT" limitClause

def offsetPart : Clause Text String := clause "OFFSET" offsetClause

def queryParts : List (Clause Text String) :=
  [groupByPart, proofPart, orderByPart, limitPart, offsetPart]

theorem apart_queryParts : Clause.Apart Blank queryParts := by
  have hpending : ∀ {k : String} {s : Text}, ¬ Blank k.toList →
      k.toList <+: s → ¬ Blank s := by
    intro k s hprinted hk hblank
    exact hprinted fun c hc => hblank c (hk.subset hc)
  constructor
  · simp only [queryParts, List.pairwise_cons, List.mem_cons, List.not_mem_nil, or_false,
      forall_eq_or_imp, forall_eq, groupByPart, proofPart, orderByPart, limitPart, offsetPart, clause]
    refine ⟨⟨?_, ?_, ?_, ?_⟩, ⟨?_, ?_, ?_⟩, ⟨?_, ?_⟩, ?_, ?_, List.Pairwise.nil⟩
    all_goals first
      | exact fun s => not_prefix_of_prefix (by decide)
      | simp
  · simp only [queryParts, List.mem_cons, List.not_mem_nil, or_false,
      forall_eq_or_imp, forall_eq, groupByPart, proofPart, orderByPart, limitPart, offsetPart, clause]
    refine ⟨?_, ?_, ?_, ?_, ?_⟩
    all_goals exact fun s => hpending (by decide)

/-! ### Queries -/

/-- The text after the source of the query. -/
def AfterSource (s t : Text) : Prop :=
  ∃ src, Reads (ws.bind fun _ => selectClause.bind fun _ => fromClause) s src t

/-- A condition comes next, at the place of `WHERE` or of `HAVING`. -/
def Conditional (t : Text) : Prop :=
  "WHERE".toList <+: t ∨ "HAVING".toList <+: groupByPart.rest t

/-- After its source, the query has a condition, or well-formed clauses in their order and
nothing else. -/
def QueryComplete (s : Text) : Prop :=
  ∀ t, AfterSource s t → Conditional t ∨ ∃ ks, Clause.Sequence Blank queryParts t ks

/-- The source and clauses after it, in any order, are followed by `PROOF`. -/
def ProofFollows (s : Text) : Prop :=
  ∃ t u, AfterSource s t ∧ ReflTransGen (Clause.Advances queryParts) t u ∧ "PROOF".toList <+: u

section query

variable {n : ℕ} {s t u : Text} {q : Query}

theorem reads_optional_condition {k : String} {o : Option Condition} :
    Reads (optional ((keyword k).bind fun _ => condition n)) s o t ↔
      ¬ k.toList <+: s ∧ o = none ∧ t = s := by
  have hdiverges := keyword_condition k n s
  rw [reads_optional]
  constructor
  · rintro (⟨a, -, hread⟩ | ⟨ho, ⟨e, he⟩, ht⟩)
    · exact absurd hread (hdiverges.2 a t)
    · refine ⟨?_, ho, ht⟩
      rw [← hdiverges.1, he]
      exact nofun
  · rintro ⟨hk, ho, ht⟩
    refine .inr ⟨ho, ?_, ht⟩
    cases h : ((keyword k).bind fun _ => condition n) s with
    | ok a consumed => exact absurd ⟨consumed, h, rfl⟩ (hdiverges.2 a _)
    | error e => exact ⟨e, rfl⟩
    | diverges => exact absurd (hdiverges.1.1 h) hk

theorem query_of_reads (h : Reads (query n) s q u) : ∃ t, AfterSource s t ∧ ¬ Conditional t ∧
    u = (Clause.greedy queryParts t).2 ∧ q.proof ≠ some [] ∧
      (q.proof = none → "PROOF" ∉ (Clause.greedy queryParts t).1) := by
  simp only [query, reads_bind, reads_map] at h
  obtain ⟨_, _, hws, _, _, hselect, src, _, hfrom, whereCond, t, hwhere, groupBy, _, hgroup,
    having, t1, hhaving, proof, t2, hproof, orderBy, t3, horder, lim, t4, hlimit, off, hoffset,
    rfl⟩ := h
  obtain ⟨hnowhere, -, rfl⟩ := reads_optional_condition.mp hwhere
  obtain ⟨hnohaving, -, rfl⟩ := reads_optional_condition.mp hhaving
  have h1 : t1 = groupByPart.rest t := (rest_of_reads_optional hgroup).1
  have h2 : t2 = proofPart.rest t1 := (rest_of_reads_optional hproof).1
  have h3 : t3 = orderByPart.rest t2 := (rest_of_reads_optional horder).1
  have h4 : t4 = limitPart.rest t3 := (rest_of_reads_optional hlimit).1
  have h5 : u = offsetPart.rest t4 := (rest_of_reads_optional hoffset).1
  have hnone : proof = none ↔ proofPart.read t1 = none := (rest_of_reads_optional hproof).2
  refine ⟨t, ⟨src, ?_⟩, ?_, ?_, ?_, ?_⟩
  · simp only [reads_bind]
    exact ⟨_, _, hws, _, _, hselect, hfrom⟩
  · rw [Conditional, ← h1]
    exact not_or.mpr ⟨hnowhere, hnohaving⟩
  · simp only [queryParts, Clause.greedy_cons_snd, ← h1, ← h2, ← h3, ← h4, ← h5, Clause.greedy_nil]
  · rintro rfl
    rcases reads_optional.mp hproof with ⟨specs, hspecs, hread⟩ | ⟨hspecs, -⟩
    · obtain ⟨_, _, -, hsep⟩ := reads_bind.mp hread
      cases hspecs
      exact ne_nil_of_reads_sepBy hsep rfl
    · cases hspecs
  · intro hproofnone
    have hread := hnone.mp hproofnone
    simp only [queryParts, Clause.mem_greedy_cons, ← h1]
    rintro (⟨h, -⟩ | ⟨-, h⟩ | ⟨h, -⟩ | ⟨h, -⟩ | ⟨h, -⟩ | h)
    · exact absurd h (by decide)
    · exact h hread
    · exact absurd h (by decide)
    · exact absurd h (by decide)
    · exact absurd h (by decide)
    · cases h

theorem exists_query (h : AfterSource s t) (ht : ¬ Conditional t) : ∃ q u, Reads (query n) s q u := by
  obtain ⟨src, hread⟩ := h
  simp only [reads_bind] at hread
  obtain ⟨_, _, hws, _, _, hselect, hfrom⟩ := hread
  obtain ⟨hnowhere, hnohaving⟩ := not_or.mp ht
  obtain ⟨groupBy, hgroup⟩ := exists_reads_optional (k := "GROUP") (p := groupByClause) (s := t)
  obtain ⟨proof, hproof⟩ := exists_reads_optional (k := "PROOF") (p := proofClause)
    (s := groupByPart.rest t)
  obtain ⟨orderBy, horder⟩ := exists_reads_optional (k := "ORDER") (p := orderByClause)
    (s := proofPart.rest (groupByPart.rest t))
  obtain ⟨lim, hlimit⟩ := exists_reads_optional (k := "LIMIT") (p := limitClause)
    (s := orderByPart.rest (proofPart.rest (groupByPart.rest t)))
  obtain ⟨off, hoffset⟩ := exists_reads_optional (k := "OFFSET") (p := offsetClause)
    (s := limitPart.rest (orderByPart.rest (proofPart.rest (groupByPart.rest t))))
  simp only [query, reads_bind, reads_map]
  exact ⟨_, _, _, _, hws, _, _, hselect, src, t, hfrom,
    none, t, reads_optional_condition.mpr ⟨hnowhere, rfl, rfl⟩, groupBy, _, hgroup,
    none, _, reads_optional_condition.mpr ⟨hnohaving, rfl, rfl⟩, proof, _, hproof,
    orderBy, _, horder, lim, _, hlimit, off, hoffset, rfl⟩

theorem AfterSource.eq (h : AfterSource s t) (h' : AfterSource s u) : t = u := by
  obtain ⟨_, hread⟩ := h
  obtain ⟨_, hread'⟩ := h'
  exact (hread.eq hread').2

/-- A query does not come to a result exactly when a condition follows its source. -/
theorem query_diverges_iff : query n s = .diverges ↔ ∃ t, AfterSource s t ∧ Conditional t := by
  have hwhere (t : Text) : whereClause n t = .diverges ↔ "WHERE".toList <+: t :=
    (keyword_condition "WHERE" n t).1
  have hhaving (t : Text) : havingClause n t = .diverges ↔ "HAVING".toList <+: t :=
    (keyword_condition "HAVING" n t).1
  simp only [query, diverges_bind, diverges_optional, diverges_of_halts, or_false, false_or,
    and_false, exists_false, hwhere, hhaving]
  constructor
  · rintro ⟨_, _, hws, _, _, hselect, src, t, hfrom, ht⟩
    refine ⟨t, ⟨src, ?_⟩, ?_⟩
    · simp only [reads_bind]
      exact ⟨_, _, hws, _, _, hselect, hfrom⟩
    · refine ht.imp_right ?_
      rintro ⟨o, t', hnowhere, groupBy, u, hgroup, hu⟩
      obtain ⟨-, -, rfl⟩ := reads_optional_condition.mp hnowhere
      have hrest : u = groupByPart.rest t' := (rest_of_reads_optional hgroup).1
      rwa [← hrest]
  · rintro ⟨t, ⟨src, hread⟩, ht⟩
    simp only [reads_bind] at hread
    obtain ⟨_, _, hws, _, _, hselect, hfrom⟩ := hread
    refine ⟨_, _, hws, _, _, hselect, src, t, hfrom, ?_⟩
    by_cases hnowhere : "WHERE".toList <+: t
    · exact .inl hnowhere
    · obtain ⟨groupBy, hgroup⟩ :=
        exists_reads_optional (k := "GROUP") (p := groupByClause) (s := t)
      exact .inr ⟨none, t, reads_optional_condition.mpr ⟨hnowhere, rfl, rfl⟩, groupBy, _, hgroup,
        ht.resolve_left hnowhere⟩

theorem parse_eq_none_iff : parse n s = none ↔ query n s = .diverges := by
  unfold parse
  cases query n s <;> simp

theorem whole_query_iff : Whole (query n) s ↔ QueryComplete s := by
  rw [whole_iff_blank]
  constructor
  · intro h t hsource
    by_cases ht : Conditional t
    · exact .inl ht
    · obtain ⟨q, u, hq⟩ := exists_query (n := n) hsource ht
      obtain ⟨t', hsource', -, rfl, -, -⟩ := query_of_reads hq
      obtain rfl := hsource'.eq hsource
      exact .inr ⟨_, (Clause.sequence_iff apart_queryParts).mpr ⟨rfl, h q _ hq⟩⟩
  · intro h q u hq
    obtain ⟨t, hsource, ht, rfl, -, -⟩ := query_of_reads hq
    obtain ⟨ks, hseq⟩ := (h t hsource).resolve_left ht
    exact ((Clause.sequence_iff apart_queryParts).mp hseq).2

theorem query_of_parseSlipstream (h : parseSlipstream n s = some (.ok q)) :
    (∃ u, Reads (query n) s q u) ∧ q.proof = none := by
  unfold parseSlipstream parse at h
  cases hquery : query n s with
  | ok q' consumed =>
    have hread : Reads (query n) s q' (s.drop consumed) := ⟨consumed, hquery, rfl⟩
    obtain ⟨_, -, -, -, hne, -⟩ := query_of_reads hread
    simp only [hquery] at h
    cases hproof : q'.proof with
    | none =>
      simp only [hproof] at h
      cases h
      exact ⟨⟨_, hread⟩, hproof⟩
    | some proofs =>
      have hpos : 0 < proofs.length := by
        rw [List.length_pos_iff]
        rintro rfl
        exact hne hproof
      simp only [hproof, gt_iff_lt, if_pos hpos] at h
      cases h
  | error e =>
    simp only [hquery] at h
    cases h
  | diverges =>
    simp only [hquery] at h
    cases h

theorem not_proofFollows (h : QueryComplete s) (hq : parseSlipstream n s = some (.ok q)) :
    ¬ ProofFollows s := by
  rintro ⟨t, u, hsource, hadvances, hproof⟩
  obtain ⟨⟨v, hv⟩, hnone⟩ := query_of_parseSlipstream hq
  obtain ⟨t', hsource', ht, -, -, hnotmem⟩ := query_of_reads hv
  obtain rfl := hsource'.eq hsource
  obtain ⟨ks, hseq⟩ := (h _ hsource).resolve_left ht
  have hmem : proofPart.name ∈ ks := hseq.mem_of_advances apart_queryParts (List.Subset.refl _)
    (by simp [queryParts]) hadvances hproof
  rw [← ((Clause.sequence_iff apart_queryParts).mp hseq).1] at hmem
  exact hnotmem hnone hmem

end query

/-! ### Mutations -/

def insertTarget : Parser Unit :=
  (keyword "INSERT").bind fun _ =>
  (keyword "HEXAD").bind fun _ =>
  (keyword "WITH").bind fun _ =>
  (sepBy MutationParser.modalityData (keyword ",")).map fun _ => ()

def updateTarget : Parser Unit :=
  (keyword "UPDATE").bind fun _ =>
  (keyword "HEXAD").bind fun _ =>
  uuid.bind fun _ =>
  (keyword "SET").bind fun _ =>
  (MutationParser.assignments fieldRef).map fun _ => ()

def deleteTarget : Parser Unit :=
  (keyword "DELETE").bind fun _ =>
  (keyword "HEXAD").bind fun _ =>
  uuid.map fun _ => ()

/-- The text after what the mutation inserts, sets or deletes. -/
def AfterTarget (s t : Text) : Prop :=
  Reads insertTarget s () t ∨ Reads updateTarget s () t ∨ Reads deleteTarget s () t

/-- After its target, the mutation has at most one well-formed `PROOF` clause and nothing else. -/
def MutationComplete (s : Text) : Prop :=
  ∀ t, AfterTarget s t → ∃ ks, Clause.Sequence Blank [proofPart] t ks

section mutation

variable {n : ℕ} {s t u : Text}

/-- The parser reads what the head reads and then a `PROOF` clause, which may be absent. -/
def Extends {α : Type} (p : Parser α) (head : Parser Unit) : Prop :=
  ∀ s u, (∃ a, Reads p s a u) ↔ ∃ t, Reads head s () t ∧ u = proofPart.rest t

theorem extends_proof {α β : Type} {p : Parser α} {g : α → Option (List ProofSpec) → β} :
    Extends (p.bind fun a => (optional proofClause).map (g a)) (p.map fun _ => ()) := by
  intro s u
  simp only [reads_bind, reads_map]
  constructor
  · rintro ⟨_, a, t, hp, o, hproof, rfl⟩
    exact ⟨t, ⟨a, hp, trivial⟩, (rest_of_reads_optional hproof).1⟩
  · rintro ⟨t, ⟨a, hp, -⟩, rfl⟩
    obtain ⟨o, hproof⟩ := exists_reads_optional (k := "PROOF") (p := proofClause) (s := t)
    exact ⟨_, a, t, hp, o, hproof, rfl⟩

theorem extends_bind {α β : Type} {p : Parser α} {f : α → Parser β} {head : Parser Unit}
    (h : ∀ a, Extends (f a) head) : Extends (p.bind f) (p.bind fun _ => head) := by
  intro s u
  simp only [reads_bind]
  constructor
  · rintro ⟨b, a, t, hp, hf⟩
    obtain ⟨v, hhead, hu⟩ := (h a t u).mp ⟨b, hf⟩
    exact ⟨v, ⟨a, t, hp, hhead⟩, hu⟩
  · rintro ⟨v, ⟨a, t, hp, hhead⟩, hu⟩
    obtain ⟨b, hf⟩ := (h a t u).mpr ⟨v, hhead, hu⟩
    exact ⟨b, a, t, hp, hf⟩

instance : Opens "INSERT" MutationParser.insertMutation := by
  unfold MutationParser.insertMutation
  infer_instance

instance : Opens "UPDATE" MutationParser.updateMutation := by
  unfold MutationParser.updateMutation
  infer_instance

instance : Opens "DELETE" MutationParser.deleteMutation := by
  unfold MutationParser.deleteMutation
  infer_instance

theorem extends_insert : Extends MutationParser.insertMutation insertTarget :=
  extends_bind fun _ => extends_bind fun _ => extends_bind fun _ => extends_proof

theorem extends_update : Extends MutationParser.updateMutation updateTarget :=
  extends_bind fun _ => extends_bind fun _ => extends_bind fun _ => extends_bind fun _ =>
    extends_proof

theorem extends_delete : Extends MutationParser.deleteMutation deleteTarget :=
  extends_bind fun _ => extends_bind fun _ => extends_proof

theorem fails_of_prefix {α : Type} {p : Parser α} {k l : String} [Halts s.length p] [Opens k p]
    (h : ¬ (l.toList <+: k.toList ∨ k.toList <+: l.toList)) (hl : l.toList <+: s) :
    ∃ e, p s = .error e := by
  rw [fails_iff]
  intro a t hread
  exact not_prefix_of_prefix h hl (Opens.isPrefix hread)

theorem reads_mutation_iff : (∃ m, Reads MutationParser.mutation s m u) ↔
    ∃ t, AfterTarget s t ∧ u = proofPart.rest t := by
  constructor
  · rintro ⟨m, h⟩
    rcases reads_orElse.mp h with h | ⟨-, h⟩
    · obtain ⟨t, ht, hu⟩ := (extends_insert s u).mp ⟨m, h⟩
      exact ⟨t, .inl ht, hu⟩
    · rcases reads_orElse.mp h with h | ⟨-, h⟩
      · obtain ⟨t, ht, hu⟩ := (extends_update s u).mp ⟨m, h⟩
        exact ⟨t, .inr (.inl ht), hu⟩
      · obtain ⟨t, ht, hu⟩ := (extends_delete s u).mp ⟨m, h⟩
        exact ⟨t, .inr (.inr ht), hu⟩
  · rintro ⟨t, ht | ht | ht, hu⟩
    · obtain ⟨m, h⟩ := (extends_insert s u).mpr ⟨t, ht, hu⟩
      exact ⟨m, reads_orElse.mpr (.inl h)⟩
    · obtain ⟨m, h⟩ := (extends_update s u).mpr ⟨t, ht, hu⟩
      have hkeyword : "UPDATE".toList <+: s := Opens.isPrefix h
      have hinsert : ∃ e, MutationParser.insertMutation s = .error e :=
        fails_of_prefix (k := "INSERT") (by decide) hkeyword
      exact ⟨m, reads_orElse.mpr (.inr ⟨hinsert, reads_orElse.mpr (.inl h)⟩)⟩
    · obtain ⟨m, h⟩ := (extends_delete s u).mpr ⟨t, ht, hu⟩
      have hkeyword : "DELETE".toList <+: s := Opens.isPrefix h
      have hinsert : ∃ e, MutationParser.insertMutation s = .error e :=
        fails_of_prefix (k := "INSERT") (by decide) hkeyword
      have hupdate : ∃ e, MutationParser.updateMutation s = .error e :=
        fails_of_prefix (k := "UPDATE") (by decide) hkeyword
      exact ⟨m, reads_orElse.mpr (.inr ⟨hinsert, reads_orElse.mpr (.inr ⟨hupdate, h⟩)⟩)⟩

theorem apart_proofPart : Clause.Apart Blank [proofPart] := by
  constructor
  · exact List.pairwise_singleton _ _
  · intro c hc
    have hmem : c ∈ queryParts := by
      rw [List.mem_singleton.mp hc]
      simp [queryParts]
    exact apart_queryParts.pending c hmem

theorem whole_mutation_iff : Whole MutationParser.mutation s ↔ MutationComplete s := by
  have hrest (t : Text) : (Clause.greedy [proofPart] t).2 = proofPart.rest t := by
    rw [Clause.greedy_cons_snd, Clause.greedy_nil]
  rw [whole_iff_blank]
  constructor
  · intro h t ht
    obtain ⟨m, hm⟩ := reads_mutation_iff.mpr ⟨t, ht, rfl⟩
    refine ⟨_, (Clause.sequence_iff apart_proofPart).mpr ⟨rfl, ?_⟩⟩
    rw [hrest]
    exact h m _ hm
  · intro h m u hm
    obtain ⟨t, ht, rfl⟩ := reads_mutation_iff.mp ⟨m, hm⟩
    obtain ⟨ks, hseq⟩ := h t ht
    rw [← hrest]
    exact ((Clause.sequence_iff apart_proofPart).mp hseq).2

/-! ### Statements -/

instance : Opens "INSERT" insertTarget := by
  unfold insertTarget
  infer_instance

instance : Opens "UPDATE" updateTarget := by
  unfold updateTarget
  infer_instance

instance : Opens "DELETE" deleteTarget := by
  unfold deleteTarget
  infer_instance

/-- A text is not both a mutation and a query. -/
theorem not_afterTarget_of_reads {q : Query} (h : Reads (query n) (s.dropWhile isSpace) q u) :
    ¬ AfterTarget (s.dropWhile isSpace) t := by
  obtain ⟨v, ⟨src, hsource⟩, -⟩ := query_of_reads h
  simp only [reads_bind, selectClause, reads_map] at hsource
  obtain ⟨_, _, hws, _, _, ⟨_, ⟨_, _, hkeyword, -⟩, -⟩, -⟩ := hsource
  have hselect := (reads_keyword.mp hkeyword).1
  rw [reads_ws.mp hws, List.dropWhile_idempotent] at hselect
  rintro (h | h | h)
  · exact not_prefix_of_prefix (by decide) hselect (Opens.isPrefix (k := "INSERT") h)
  · exact not_prefix_of_prefix (by decide) hselect (Opens.isPrefix (k := "UPDATE") h)
  · exact not_prefix_of_prefix (by decide) hselect (Opens.isPrefix (k := "DELETE") h)

theorem whole_statement_iff : Whole (MutationParser.statement n) s ↔
    MutationComplete (s.dropWhile isSpace) ∧ QueryComplete (s.dropWhile isSpace) := by
  rw [← whole_mutation_iff, ← whole_query_iff (n := n), whole_iff_blank, whole_iff_blank,
    whole_iff_blank]
  have hstatement (st : Statement) (u : Text) : Reads (MutationParser.statement n) s st u ↔
      Reads (MutationParser.mutation.map Statement.mutation <|> (query n).map Statement.query)
        (s.dropWhile isSpace) st u := by
    simp only [MutationParser.statement, reads_bind, reads_ws]
    constructor
    · rintro ⟨_, _, rfl, h⟩
      exact h
    · intro h
      exact ⟨(), _, rfl, h⟩
  simp only [hstatement, reads_orElse]
  constructor
  · intro h
    constructor
    · intro m u hm
      exact h _ u (.inl (reads_map.mpr ⟨m, hm, rfl⟩))
    · intro q u hq
      have hfails : ∃ e, (MutationParser.mutation.map Statement.mutation)
          (s.dropWhile isSpace) = .error e := by
        rw [fails_iff]
        intro st v hread
        obtain ⟨m, hm, -⟩ := reads_map.mp hread
        obtain ⟨t, ht, -⟩ := reads_mutation_iff.mp ⟨m, hm⟩
        exact not_afterTarget_of_reads hq ht
      exact h _ u (.inr ⟨hfails, reads_map.mpr ⟨q, hq, rfl⟩⟩)
  · rintro ⟨hmutation, hquery⟩ st u (h | ⟨-, h⟩)
    · obtain ⟨m, hm, -⟩ := reads_map.mp h
      exact hmutation m u hm
    · obtain ⟨q, hq, -⟩ := reads_map.mp h
      exact hquery q u hq

end mutation

/-! ### The whole input -/

/-- The entry points read the whole of exactly the complete texts. In a complete query that the
slipstream path accepts, no `PROOF` follows the source. -/
theorem whole_input_read (n : ℕ) (s : Text) :
    (Whole (query n) s ↔ QueryComplete s) ∧
      (Whole MutationParser.mutation s ↔ MutationComplete s) ∧
      (Whole (MutationParser.statement n) s ↔
        MutationComplete (s.dropWhile isSpace) ∧ QueryComplete (s.dropWhile isSpace)) ∧
      (QueryComplete s → ∀ q, parseSlipstream n s = some (.ok q) → ¬ ProofFollows s) :=
  ⟨whole_query_iff, whole_mutation_iff, whole_statement_iff,
    fun hcomplete _ hq => not_proofFollows hcomplete hq⟩

def limited : Text := "SELECT GRAPH FROM STORE s LIMIT 5".toList

theorem whole_input_read_limited : Whole (query 0) limited ∧ ¬ ProofFollows limited := by
  have hsource : AfterSource limited "LIMIT 5".toList := ⟨.store "s", 26, rfl, rfl⟩
  have hcomplete : QueryComplete limited := by
    intro t ht
    obtain rfl := ht.eq hsource
    exact .inr ⟨["LIMIT"], .skip (.skip (.skip (.read rfl (.done (by decide)))))⟩
  have hread := whole_input_read 0 limited
  exact ⟨hread.1.mpr hcomplete, hread.2.2.2 hcomplete _ rfl⟩

/-- A malformed `PROOF` clause is passed over. -/
def badProof : Text := "SELECT GRAPH FROM STORE s PROOF BAD".toList

theorem badProof_accepted : ¬ Whole (query 0) badProof ∧ ProofFollows badProof ∧
    ∃ q, parseSlipstream 0 badProof = some (.ok q) := by
  refine ⟨?_, ⟨"PROOF BAD".toList, _, ?_, .refl, ?_⟩, ⟨_, rfl⟩⟩
  · intro h
    exact absurd (h _ 26 rfl) (by decide)
  · exact ⟨.store "s", 26, rfl, rfl⟩
  · decide

/-! ### Well-foundedness -/

/-- The parser comes to a result if it may call itself often enough. -/
def Returns {α : Type} (p : ℕ → Parser α) (s : Text) : Prop := ∃ n, p n s ≠ .diverges

/-- A condition calls itself on the text that it was called on, so it returns on no text, and a query
returns only where it has none. -/
theorem condition_never_returns (s : Text) :
    ¬ Returns condition s ∧
      ((∃ n, parse n s ≠ none) ↔ ¬ ∃ t, AfterSource s t ∧ Conditional t) := by
  constructor
  · rintro ⟨n, hn⟩
    exact hn (condition_diverges n s)
  · constructor
    · rintro ⟨n, hn⟩ hcond
      exact hn (parse_eq_none_iff.mpr (query_diverges_iff.mpr hcond))
    · intro hcond
      exact ⟨0, fun hnone => hcond (query_diverges_iff.mp (parse_eq_none_iff.mp hnone))⟩

def filtered : Text := "SELECT GRAPH FROM STORE s WHERE FIELD a == 1".toList

theorem filtered_never_returns : ¬ Returns condition "FIELD a == 1".toList ∧
    ∀ n, parse n filtered = none := by
  have hsource : AfterSource filtered "WHERE FIELD a == 1".toList := ⟨.store "s", 26, rfl, rfl⟩
  refine ⟨fun h => ?_, fun n => ?_⟩
  · obtain ⟨n, hn⟩ := h
    exact hn (condition_diverges n _)
  · exact parse_eq_none_iff.mpr (query_diverges_iff.mpr ⟨_, hsource, .inl (by decide)⟩)

end NextgenDatabases.Vcl
