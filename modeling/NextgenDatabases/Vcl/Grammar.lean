import NextgenDatabases.Vcl.Ast
import NextgenDatabases.Vcl.Combinators

/-!
# The grammar of VCL queries

The parsers of the clauses of a query and of the query itself. A condition begins by parsing a
condition, so its parser takes the number of nested calls after which it is given up.
-/
namespace NextgenDatabases.Vcl

namespace Grammar

open NextgenDatabases.Vcl.Parser

/-! ### The selection -/

/-- `map(keyword(k), _ => value)` -/
def token {α : Type} (k : String) (value : α) : Parser α := (keyword k).map fun _ => value

def modality : Parser Modality :=
  token "GRAPH" Modality.graph <|>
  token "VECTOR" Modality.vector <|>
  token "TENSOR" Modality.tensor <|>
  token "SEMANTIC" Modality.semantic <|>
  token "DOCUMENT" Modality.document <|>
  token "TEMPORAL" Modality.temporal <|>
  token "PROVENANCE" Modality.provenance <|>
  token "SPATIAL" Modality.spatial <|>
  token "*" Modality.all

def fieldRef : Parser FieldRef :=
  modality.bind fun mod =>
  (keyword ".").bind fun _ =>
  identifier.map fun field => { modality := mod, field := field }

def aggregateFunc : Parser AggregateFunc :=
  token "COUNT" AggregateFunc.count <|>
  token "SUM" AggregateFunc.sum <|>
  token "AVG" AggregateFunc.avg <|>
  token "MIN" AggregateFunc.min <|>
  token "MAX" AggregateFunc.max

def aggregateExpr : Parser AggregateExpr :=
  let countAll : Parser AggregateExpr :=
    (keyword "COUNT").bind fun _ =>
    (keyword "(").bind fun _ =>
    (keyword "*").bind fun _ =>
    (keyword ")").map fun _ => .countAll
  let aggregateField : Parser AggregateExpr :=
    aggregateFunc.bind fun func =>
    (keyword "(").bind fun _ =>
    fieldRef.bind fun ref =>
    (keyword ")").map fun _ => .aggregateField func ref
  countAll <|> aggregateField

inductive SelectItem
  | aggregate (a : AggregateExpr)
  | field (f : FieldRef)
  | modality (m : Modality)

def selectItem : Parser SelectItem :=
  (aggregateExpr.map SelectItem.aggregate) <|>
  (fieldRef.map SelectItem.field) <|>
  (modality.map SelectItem.modality)

def selectItemList : Parser (List SelectItem) := sepBy selectItem (keyword ",")

structure ClassifiedSelect where
  modalities : List Modality
  projections : Option (List FieldRef)
  aggregates : Option (List AggregateExpr)

def addModality (mods : List Modality) (m : Modality) : List Modality :=
  if m ∈ mods then mods else mods ++ [m]

def someUnlessEmpty {α : Type} (items : List α) : Option (List α) :=
  if items.length > 0 then some items else none

def classifySelect (items : List SelectItem) : ClassifiedSelect :=
  let (mods, projs, aggs) := items.foldl
    (fun (mods, projs, aggs) item =>
      match item with
      | .modality m => (mods ++ [m], projs, aggs)
      | .field f => (addModality mods f.modality, projs ++ [f], aggs)
      | .aggregate (.aggregateField func ref) =>
        (addModality mods ref.modality, projs, aggs ++ [.aggregateField func ref])
      | .aggregate .countAll => (mods, projs, aggs ++ [.countAll]))
    (([] : List Modality), ([] : List FieldRef), ([] : List AggregateExpr))
  { modalities := mods
    projections := someUnlessEmpty projs
    aggregates := someUnlessEmpty aggs }

def selectClause : Parser ClassifiedSelect :=
  ((keyword "SELECT").bind fun _ => selectItemList).map classifySelect

/-! ### The source -/

def driftPolicy : Parser DriftPolicy :=
  (keyword "WITH").bind fun _ =>
  (keyword "DRIFT").bind fun _ =>
    token "STRICT" DriftPolicy.strict <|>
    token "REPAIR" DriftPolicy.repair <|>
    token "TOLERATE" DriftPolicy.tolerate <|>
    token "LATEST" DriftPolicy.latest

def source : Parser Source :=
  let hexadSource : Parser Source :=
    (keyword "HEXAD").bind fun _ => uuid.map Source.hexad
  let federationSource : Parser Source :=
    (keyword "FEDERATION").bind fun _ =>
    identifier.bind fun pattern =>
    (optional driftPolicy).map fun drift => .federation pattern drift
  let storeSource : Parser Source :=
    (keyword "STORE").bind fun _ => identifier.map Source.store
  hexadSource <|> federationSource <|> storeSource

def fromClause : Parser Source := (keyword "FROM").bind fun _ => source

/-! ### Literals and conditions -/

def operator : Parser Operator :=
  token "==" Operator.eq <|>
  token "!=" Operator.neq <|>
  token ">=" Operator.gte <|>
  token "<=" Operator.lte <|>
  token ">" Operator.gt <|>
  token "<" Operator.lt <|>
  token "LIKE" Operator.like <|>
  token "CONTAINS" Operator.contains <|>
  token "MATCHES" Operator.matches

def boolLit : Parser Literal :=
  token "true" (Literal.bool true) <|> token "false" (Literal.bool false)

def literalFrom : ℕ → Parser Literal
  | 0 => fun _ => .diverges
  | n + 1 =>
    let arrayLit : Parser Literal :=
      (keyword "[").bind fun _ =>
      (sepBy (literalFrom n) (keyword ",")).bind fun values =>
      (keyword "]").map fun _ => .array values
    arrayLit <|> (float.map Literal.float) <|> (integer.map Literal.int) <|>
      (stringLiteral.map Literal.string) <|> boolLit

/-- An array opens with a character, so it is nested no deeper than the text is long. -/
def literal : Parser Literal := fun input => literalFrom (input.length + 1) input

/-- The numbers of an array. What is not a number counts as zero. -/
def embeddingOf : Literal → List ℚ
  | .array arr => arr.map fun lit =>
    match lit with
    | .float f => f
    | .int i => i
    | _ => 0
  | _ => []

def simpleCondition : Parser SimpleCondition :=
  let fulltextContains : Parser SimpleCondition :=
    (keyword "FULLTEXT").bind fun _ =>
    (keyword "CONTAINS").bind fun _ =>
    stringLiteral.map fun text => .fulltextContains text
  let fulltextMatches : Parser SimpleCondition :=
    (keyword "FULLTEXT").bind fun _ =>
    (keyword "MATCHES").bind fun _ =>
    stringLiteral.map fun pattern => .fulltextMatches pattern
  let fieldCondition : Parser SimpleCondition :=
    (keyword "FIELD").bind fun _ =>
    identifier.bind fun field =>
    operator.bind fun op =>
    literal.map fun value => .fieldCondition field op value
  let vectorSimilar : Parser SimpleCondition :=
    identifier.bind fun _ =>
    (keyword "SIMILAR").bind fun _ =>
    (keyword "TO").bind fun _ =>
    literal.bind fun embedding =>
    (optional ((keyword "WITHIN").bind fun _ => float)).map fun threshold =>
      .vectorSimilar (embeddingOf embedding) threshold
  let graphPattern : Parser SimpleCondition :=
    stringLiteral.map fun pattern => .graphPattern pattern
  let driftCondition : Parser SimpleCondition :=
    (keyword "DRIFT").bind fun _ =>
    (keyword "(").bind fun _ =>
    modality.bind fun mod1 =>
    (keyword ",").bind fun _ =>
    modality.bind fun mod2 =>
    (keyword ")").bind fun _ =>
    operator.bind fun _ =>
    float.map fun threshold => .modalityDrift mod1 mod2 threshold
  let consistencyCondition : Parser SimpleCondition :=
    (keyword "CONSISTENT").bind fun _ =>
    (keyword "(").bind fun _ =>
    modality.bind fun mod1 =>
    (keyword ",").bind fun _ =>
    modality.bind fun mod2 =>
    (keyword ")").bind fun _ =>
    (keyword "USING").bind fun _ =>
    identifier.map fun metric => .modalityConsistency mod1 mod2 metric
  let existsCondition : Parser SimpleCondition :=
    modality.bind fun mod =>
    (keyword "EXISTS").map fun _ => .modalityExists mod
  let notExistsCondition : Parser SimpleCondition :=
    modality.bind fun mod =>
    (keyword "NOT").bind fun _ =>
    (keyword "EXISTS").map fun _ => .modalityNotExists mod
  let crossModalFieldCompare : Parser SimpleCondition :=
    modality.bind fun mod1 =>
    (keyword ".").bind fun _ =>
    identifier.bind fun field1 =>
    operator.bind fun op =>
    modality.bind fun mod2 =>
    (keyword ".").bind fun _ =>
    identifier.map fun field2 => .crossModalFieldCompare mod1 field1 op mod2 field2
  driftCondition <|> consistencyCondition <|> notExistsCondition <|> existsCondition <|>
    crossModalFieldCompare <|> fulltextContains <|> fulltextMatches <|> fieldCondition <|>
    vectorSimilar <|> graphPattern

def condition : ℕ → Parser Condition
  | 0 => fun _ => .diverges
  | n + 1 =>
    let simple : Parser Condition := simpleCondition.map Condition.simple
    let andCond : Parser Condition :=
      (condition n).bind fun left =>
      (keyword "AND").bind fun _ =>
      (condition n).map fun right => .and left right
    let orCond : Parser Condition :=
      (condition n).bind fun left =>
      (keyword "OR").bind fun _ =>
      (condition n).map fun right => .or left right
    let notCond : Parser Condition :=
      (keyword "NOT").bind fun _ => (condition n).map Condition.not
    andCond <|> orCond <|> notCond <|> simple

def whereClause (n : ℕ) : Parser Condition := (keyword "WHERE").bind fun _ => condition n

def havingClause (n : ℕ) : Parser Condition := (keyword "HAVING").bind fun _ => condition n

/-! ### The other clauses -/

def proofType : Parser ProofType :=
  token "EXISTENCE" ProofType.existence <|>
  token "CITATION" ProofType.citation <|>
  token "ACCESS" ProofType.access <|>
  token "INTEGRITY" ProofType.integrity <|>
  token "PROVENANCE" ProofType.provenance <|>
  token "CUSTOM" ProofType.custom

def proofSpec : Parser ProofSpec :=
  proofType.bind fun pType =>
  (keyword "(").bind fun _ =>
  identifier.bind fun contract =>
  (keyword ")").map fun _ => { proofType := pType, contractName := contract }

def proofClause : Parser (List ProofSpec) :=
  (keyword "PROOF").bind fun _ => sepBy proofSpec (keyword "AND")

def limitClause : Parser ℤ := (keyword "LIMIT").bind fun _ => integer

def offsetClause : Parser ℤ := (keyword "OFFSET").bind fun _ => integer

def groupByClause : Parser (List FieldRef) :=
  (keyword "GROUP").bind fun _ =>
  (keyword "BY").bind fun _ =>
  sepBy fieldRef (keyword ",")

def sortDirection : Parser SortDirection :=
  token "ASC" SortDirection.asc <|> token "DESC" SortDirection.desc

def orderByItem : Parser OrderByItem :=
  fieldRef.bind fun ref =>
  (optional sortDirection).map fun dir => { field := ref, direction := dir.getD .asc }

def orderByClause : Parser (List OrderByItem) :=
  (keyword "ORDER").bind fun _ =>
  (keyword "BY").bind fun _ =>
  sepBy orderByItem (keyword ",")

def query (n : ℕ) : Parser Query :=
  ws.bind fun _ =>
  selectClause.bind fun classified =>
  fromClause.bind fun src =>
  (optional (whereClause n)).bind fun whereCond =>
  (optional groupByClause).bind fun groupBy =>
  (optional (havingClause n)).bind fun having =>
  (optional proofClause).bind fun proof =>
  (optional orderByClause).bind fun orderBy =>
  (optional limitClause).bind fun lim =>
  (optional offsetClause).map fun off =>
    { modalities := classified.modalities
      projections := classified.projections
      aggregates := classified.aggregates
      source := src
      where_ := whereCond
      groupBy := groupBy
      having := having
      proof := proof
      orderBy := orderBy
      limit := lim
      offset := off }

end Grammar

/-! ### Entry points for queries -/

/-- `none` when the parser does not return. -/
def parse (n : ℕ) (input : Text) : Option (Except ParseError Query) :=
  match Grammar.query n input with
  | .ok query _ => some (.ok query)
  | .error e => some (.error e)
  | .diverges => none

def parseSlipstream (n : ℕ) (input : Text) : Option (Except ParseError Query) :=
  match parse n input with
  | some (.ok query) =>
    match query.proof with
    | some proofs =>
      if proofs.length > 0 then
        some (.error ⟨"Slipstream queries cannot have PROOF clause", 0⟩)
      else
        some (.ok query)
    | none => some (.ok query)
  | some (.error e) => some (.error e)
  | none => none

def parseDependentType (n : ℕ) (input : Text) : Option (Except ParseError Query) :=
  match parse n input with
  | some (.ok query) =>
    if query.proof.isNone then
      some (.error ⟨"Dependent-type queries require PROOF clause", 0⟩)
    else
      some (.ok query)
  | some (.error e) => some (.error e)
  | none => none

end NextgenDatabases.Vcl
