import NextgenDatabases.Vcl.Mutations

/-!
# Which parsers come to a result

A condition never comes to a result, so a query ends without one exactly where the parser meets
`WHERE` or `HAVING`. Every other parser comes to a result on every text.
-/
namespace NextgenDatabases.Vcl

open NextgenDatabases.Vcl.Parser

namespace Grammar

variable {n : ℕ} {s : Text}

/-! ### Conditions -/

theorem condition_diverges (n : ℕ) (s : Text) : condition n s = .diverges := by
  induction n with
  | zero => rfl
  | succ n ih =>
    change orElse (Parser.bind (condition n) _) _ s = .diverges
    simp only [orElse, Parser.bind, ih]

theorem keyword_condition (k : String) (n : ℕ) (s : Text) :
    (((keyword k).bind fun _ => condition n) s = .diverges ↔ k.toList <+: s) ∧
      ∀ a t, ¬ Reads ((keyword k).bind fun _ => condition n) s a t := by
  constructor
  · have hhalts : keyword k s ≠ .diverges := Halts.ne_diverges (n := s.length) s le_rfl
    have hkeyword : (∃ a t, Reads (keyword k) s a t) ↔ k.toList <+: s := by
      constructor
      · rintro ⟨a, t, h⟩
        exact (reads_keyword.mp h).1
      · intro h
        exact ⟨_, _, reads_keyword.mpr ⟨h, rfl, rfl⟩⟩
    rw [← hkeyword]
    unfold Parser.bind
    cases h : keyword k s with
    | ok value consumed =>
      simp only [condition_diverges, true_iff]
      exact ⟨value, _, consumed, h, rfl⟩
    | error e =>
      simp only [reduceCtorEq, false_iff]
      rintro ⟨a, t, k, hk, -⟩
      rw [h] at hk
      cases hk
    | diverges => exact absurd h hhalts
  · intro a t h
    obtain ⟨_, u, -, k, hcond, -⟩ := reads_bind.mp h
    rw [condition_diverges] at hcond
    cases hcond

/-! ### Literals -/

instance {α : Type} {k : String} {value : α} : Halts n (token k value) := by
  unfold token
  infer_instance

instance : Halts n boolLit := by
  unfold boolLit
  infer_instance

/-- An array of literals comes to a result where its elements do on every shorter text. -/
theorem halts_arrayLit {p : Parser Literal} [Halts n p] :
    Halts (n + 1) ((keyword "[").bind fun _ => (sepBy p (keyword ",")).bind fun values =>
      (keyword "]").map fun _ => Literal.array values) := by
  have hopen : Consumes (keyword "[") := consumes_keyword (by decide)
  apply halts_bind
  intro s a t hs hread
  have hlt := Consumes.length_lt hread
  exact Halts.ne_diverges (n := n) t (by omega)

instance halts_literalFrom : Halts n (literalFrom (n + 1)) := by
  induction n with
  | zero =>
    constructor
    intro s hs
    obtain rfl : s = [] := List.length_eq_zero_iff.mp (Nat.le_zero.mp hs)
    exact nofun
  | succ n ih =>
    have harray := halts_arrayLit (n := n) (p := literalFrom (n + 1))
    rw [literalFrom]
    infer_instance

instance : Halts n literal where
  ne_diverges := fun s _ => halts_literalFrom.ne_diverges s le_rfl

/-! ### Clauses -/

instance : Halts n modality := by
  unfold modality
  infer_instance

instance : Halts n fieldRef := by
  unfold fieldRef
  infer_instance

instance : Halts n aggregateExpr := by
  dsimp only [aggregateExpr, aggregateFunc]
  infer_instance

instance : Halts n selectClause := by
  unfold selectClause selectItemList selectItem
  infer_instance

instance : Halts n driftPolicy := by
  unfold driftPolicy
  infer_instance

instance : Halts n fromClause := by
  dsimp only [fromClause, source]
  infer_instance

instance : Halts n groupByClause := by
  unfold groupByClause
  infer_instance

instance : Halts n proofClause := by
  unfold proofClause proofSpec proofType
  infer_instance

instance : Halts n orderByClause := by
  unfold orderByClause orderByItem sortDirection
  infer_instance

instance : Halts n limitClause := by
  unfold limitClause
  infer_instance

instance : Halts n offsetClause := by
  unfold offsetClause
  infer_instance

end Grammar

namespace MutationParser

variable {n : ℕ}

open Grammar

instance {κ : Type} {key : Parser κ} [Halts n key] : Halts n (assignments key) := by
  unfold assignments
  infer_instance

set_option synthInstance.maxSize 512 in
instance : Halts n modalityData := by
  unfold modalityData documentData vectorData graphData tensorData semanticData temporalData
    provenanceData spatialData
  infer_instance

instance : Halts n insertMutation := by
  unfold insertMutation
  infer_instance

instance : Halts n updateMutation := by
  unfold updateMutation
  infer_instance

instance : Halts n deleteMutation := by
  unfold deleteMutation
  infer_instance

instance : Halts n mutation := by
  unfold mutation
  infer_instance

end MutationParser

end NextgenDatabases.Vcl
