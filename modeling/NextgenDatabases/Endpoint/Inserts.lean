import NextgenDatabases.Endpoint.Panics

/-!
# Values of an insertion

What an `INSERT INTO` with two quoted values stores: its commas have become spaces.
-/
namespace NextgenDatabases.Endpoint

open Foundations
open Planner (Str isWhitespace upperChar)

def insertPrefix : Str := "INSERT INTO octads (title, body) VALUES".toList

/-- `INSERT INTO octads (title, body) VALUES ('<title>', '<body>')` -/
def insertText (title body : Str) : Str :=
  insertPrefix ++ (" ('".toList ++ (title ++ ("', '".toList ++ (body ++ "')".toList))))

variable {F : Type} {tables : Tables F} {title body : Str}

/-! ### Tokens in quotes -/

/-- In single quotes everything up to the next one belongs to the token. -/
theorem tokenizeFrom_quoted {w : Str} (h : '\'' ∉ w) (current rest : Str) :
    tokenizeFrom current true false (w ++ '\'' :: rest) =
      tokenizeFrom (current ++ w ++ ['\'']) false false rest := by
  induction w generalizing current with
  | nil => simp [tokenizeFrom]
  | cons c w ih =>
    have hc : c ≠ '\'' := by
      intro heq
      exact h (heq ▸ List.mem_cons_self)
    have hw := ih (fun hmem => h (List.mem_cons_of_mem c hmem)) (current ++ [c])
    have hstep : tokenizeFrom current true false (c :: w ++ '\'' :: rest) =
        tokenizeFrom (current ++ [c]) true false (w ++ '\'' :: rest) := by
      simp [tokenizeFrom, hc]
    rw [hstep, hw]
    simp

/-- Two quoted values are two tokens. -/
theorem tokenize_values (htitle : '\'' ∉ title) (hbody : '\'' ∉ body) :
    tokenize ('\'' :: title ++ '\'' :: ' ' :: ' ' :: '\'' :: body ++ ['\'']) =
      ['\'' :: title ++ ['\''], '\'' :: body ++ ['\'']] := by
  have hfirst := tokenizeFrom_quoted htitle ['\''] (' ' :: ' ' :: '\'' :: body ++ ['\''])
  have hsecond := tokenizeFrom_quoted hbody ['\''] []
  have hstart : tokenize ('\'' :: title ++ '\'' :: ' ' :: ' ' :: '\'' :: body ++ ['\'']) =
      tokenizeFrom ['\''] true false (title ++ '\'' :: (' ' :: ' ' :: '\'' :: body ++ ['\''])) := by
    simp [tokenize, tokenizeFrom]
  have hmiddle : tokenizeFrom (['\''] ++ title ++ ['\'']) false false
      (' ' :: ' ' :: '\'' :: body ++ ['\'']) =
      ('\'' :: title ++ ['\'']) :: tokenizeFrom ['\''] true false (body ++ ['\'']) := by
    simp [tokenizeFrom]
  rw [hstart, hfirst, hmiddle, hsecond]
  simp [tokenizeFrom]

/-! ### The values of the text -/

theorem toUppercase_ascii (tables : Tables F) {s : Str} (h : ∀ c ∈ s, c.toNat < 128) :
    tables.toUppercase s = Planner.toUppercase s := by
  rw [Tables.toUppercase, Planner.toUppercase]
  apply List.flatMap_congr
  intro c hc
  exact tables.upper_ascii c (h c hc)

theorem find_values (tables : Tables F) (rest : Str) : Utf8.find "VALUES".toList
    (tables.toUppercase (insertPrefix ++ rest)) = some 33 := by
  rw [Tables.toUppercase, List.flatMap_append]
  apply Utf8.find_append
  rw [← Tables.toUppercase, toUppercase_ascii tables (Utf8.forall_of_all (by decide))]
  decide

/-- The values without their parentheses. -/
def quotedValues (title body : Str) : Str :=
  '\'' :: title ++ '\'' :: ',' :: ' ' :: '\'' :: body ++ ['\'']

theorem insertText_eq (title body : Str) : insertText title body =
    insertPrefix ++ ' ' :: ('(' :: quotedValues title body ++ [')']) := by
  have hstart : " ('".toList = [' ', '(', '\''] := rfl
  have hmiddle : "', '".toList = ['\'', ',', ' ', '\''] := rfl
  have hend : "')".toList = ['\'', ')'] := rfl
  simp only [insertText, quotedValues, hstart, hmiddle, hend, List.cons_append, List.nil_append,
    List.append_assoc]

theorem valuesPart_eq {raw rest : Str} {i : ℕ}
    (hfind : Utf8.find "VALUES".toList (tables.toUppercase raw) = some i)
    (hdrop : Utf8.dropBytes raw (i + 6) = some rest) : valuesPart tables raw =
      .ok (((Utf8.trim isWhitespace rest).dropWhile (· = '(')).rdropWhile (· = ')')) := by
  simp only [valuesPart, hfind, hdrop]
  rfl

/-- The parentheses around the values are trimmed. -/
theorem valuesPart_insertText (tables : Tables F) (title body : Str) :
    valuesPart tables (insertText title body) = .ok (quotedValues title body) := by
  have hdrop := Utf8.dropBytes_append insertPrefix
    (' ' :: ('(' :: quotedValues title body ++ [')']))
  have hsize : Utf8.size insertPrefix = 33 + 6 := by decide
  have htrim : Utf8.trim isWhitespace (' ' :: ('(' :: quotedValues title body ++ [')'])) =
      '(' :: quotedValues title body ++ [')'] := by
    rw [Utf8.trim_cons _ (by decide), Utf8.trim_between _ (by decide) (by decide)]
  have hstart : ('(' :: quotedValues title body ++ [')']).dropWhile (· = '(') =
      quotedValues title body ++ [')'] := by
    simp [quotedValues]
  have hend : (quotedValues title body ++ [')']).rdropWhile (· = ')') =
      quotedValues title body := by
    rw [List.rdropWhile_concat_pos _ _ _ (by decide), quotedValues,
      List.rdropWhile_concat_neg _ _ _ (by decide)]
  rw [hsize] at hdrop
  rw [insertText_eq, valuesPart_eq (find_values tables _) hdrop, htrim, hstart, hend]

theorem replace_quotedValues (title body : Str) : Utf8.replace ',' ' ' (quotedValues title body) =
    '\'' :: Utf8.replace ',' ' ' title ++
      '\'' :: ' ' :: ' ' :: '\'' :: Utf8.replace ',' ' ' body ++ ['\''] := by
  simp [quotedValues, Utf8.replace]

theorem notMem_replace {s : Str} (h : '\'' ∉ s) : '\'' ∉ Utf8.replace ',' ' ' s := by
  intro hmem
  obtain ⟨c, hc, heq⟩ := List.mem_map.mp hmem
  split_ifs at heq
  · cases heq
  · exact h (heq ▸ hc)

/-- An insertion stores its values with spaces for their commas. -/
theorem parseInsertValues_insertText (tables : Tables F) (htitle : '\'' ∉ title)
    (hbody : '\'' ∉ body) : parseInsertValues tables (insertText title body) =
      .ok (Utf8.replace ',' ' ' title, Utf8.replace ',' ' ' body) := by
  have htokens := tokenize_values (notMem_replace htitle) (notMem_replace hbody)
  rw [← replace_quotedValues] at htokens
  have hunquote := fun s => unquote_quoted (.inl rfl : '\'' = '\'' ∨ '\'' = '"') s
  rw [parseInsertValues, valuesPart_insertText]
  change (do
    let t ← unquoteOrDefault (tokenize (Utf8.replace ',' ' ' (quotedValues title body)))[0]?
    let b ← unquoteOrDefault (tokenize (Utf8.replace ',' ' ' (quotedValues title body)))[1]?
    return (t, b) : Outcome (Str × Str)) = _
  rw [htokens]
  change (do
    let t ← unquote ('\'' :: Utf8.replace ',' ' ' title ++ ['\''])
    let b ← unquote ('\'' :: Utf8.replace ',' ' ' body ++ ['\''])
    return (t, b) : Outcome (Str × Str)) = _
  rw [hunquote, hunquote]
  rfl

theorem insert_stores_iff (tables : Tables F) (htitle : '\'' ∉ title) (hbody : '\'' ∉ body) :
    parseInsertValues tables (insertText title body) = .ok (title, body) ↔
      ',' ∉ title ∧ ',' ∉ body := by
  rw [parseInsertValues_insertText tables htitle hbody, Except.ok.injEq, Prod.mk.injEq,
    Utf8.replace_eq_self_iff (by decide), Utf8.replace_eq_self_iff (by decide)]

theorem insert_stores_plain :
    parseInsertValues plain (insertText "Title".toList "The body".toList) =
      .ok ("Title".toList, "The body".toList) :=
  (insert_stores_iff plain (by decide) (by decide)).mpr ⟨by decide, by decide⟩

/-- The title `a,b` is stored as `a b`. -/
theorem comma_lost : parseInsertValues plain (insertText "a,b".toList "c".toList) ≠
    .ok ("a,b".toList, "c".toList) := by
  rw [parseInsertValues_insertText plain (by decide) (by decide)]
  decide

end NextgenDatabases.Endpoint
