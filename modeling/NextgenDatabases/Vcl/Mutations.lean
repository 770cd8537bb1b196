import NextgenDatabases.Vcl.Grammar

/-!
# The grammar of VCL mutations

The parsers of mutations and of statements, which are mutations or queries.
-/
namespace NextgenDatabases.Vcl

namespace MutationParser

open NextgenDatabases.Vcl.Parser

/-! ### The data of a modality -/

/-- `key=value, ...` -/
def assignments {κ : Type} (key : Parser κ) : Parser (List (κ × Literal)) :=
  sepBy
    (key.bind fun field =>
      (keyword "=").bind fun _ =>
      Grammar.literal.map fun value => (field, value))
    (keyword ",")

def documentData : Parser ModalityData :=
  (keyword "DOCUMENT").bind fun _ =>
  (keyword "(").bind fun _ =>
  (assignments identifier).bind fun fields =>
  (keyword ")").map fun _ => .documentData fields

def vectorData : Parser ModalityData :=
  (keyword "VECTOR").bind fun _ =>
  (keyword "(").bind fun _ =>
  (keyword "[").bind fun _ =>
  (sepBy float (keyword ",")).bind fun values =>
  (keyword "]").bind fun _ =>
  (keyword ")").map fun _ => .vectorData values

def graphData : Parser ModalityData :=
  (keyword "GRAPH").bind fun _ =>
  (keyword "(").bind fun _ =>
  identifier.bind fun edgeType =>
  (keyword ",").bind fun _ =>
  identifier.bind fun targetId =>
  (keyword ")").map fun _ => .graphData edgeType targetId

def tensorData : Parser ModalityData :=
  (keyword "TENSOR").bind fun _ =>
  (keyword "(").bind fun _ =>
  (sepBy Grammar.literal (keyword ",")).bind fun values =>
  (keyword ")").map fun _ => .tensorData values

def semanticData : Parser ModalityData :=
  (keyword "SEMANTIC").bind fun _ =>
  (keyword "(").bind fun _ =>
  identifier.bind fun contractName =>
  (keyword ")").map fun _ => .semanticData contractName

def temporalData : Parser ModalityData :=
  (keyword "TEMPORAL").bind fun _ =>
  (keyword "(").bind fun _ =>
  stringLiteral.bind fun timestamp =>
  (keyword ")").map fun _ => .temporalData timestamp

def provenanceData : Parser ModalityData :=
  (keyword "PROVENANCE").bind fun _ =>
  (keyword "(").bind fun _ =>
  (assignments identifier).bind fun fields =>
  (keyword ")").map fun _ => .provenanceData fields

def spatialData : Parser ModalityData :=
  (keyword "SPATIAL").bind fun _ =>
  (keyword "(").bind fun _ =>
  (assignments identifier).bind fun fields =>
  (keyword ")").map fun _ => .spatialData fields

def modalityData : Parser ModalityData :=
  documentData <|> vectorData <|> graphData <|> tensorData <|> semanticData <|> temporalData <|>
    provenanceData <|> spatialData

/-! ### Mutations and statements -/

def insertMutation : Parser Mutation :=
  (keyword "INSERT").bind fun _ =>
  (keyword "HEXAD").bind fun _ =>
  (keyword "WITH").bind fun _ =>
  (sepBy modalityData (keyword ",")).bind fun data =>
  (optional Grammar.proofClause).map fun proof => .insert data proof

def updateMutation : Parser Mutation :=
  (keyword "UPDATE").bind fun _ =>
  (keyword "HEXAD").bind fun _ =>
  uuid.bind fun id =>
  (keyword "SET").bind fun _ =>
  (assignments Grammar.fieldRef).bind fun sets =>
  (optional Grammar.proofClause).map fun proof => .update id sets proof

def deleteMutation : Parser Mutation :=
  (keyword "DELETE").bind fun _ =>
  (keyword "HEXAD").bind fun _ =>
  uuid.bind fun id =>
  (optional Grammar.proofClause).map fun proof => .delete id proof

def mutation : Parser Mutation :=
  insertMutation <|> updateMutation <|> deleteMutation

def statement (n : ℕ) : Parser Statement :=
  let queryP : Parser Statement := (Grammar.query n).map Statement.query
  let mutationP : Parser Statement := mutation.map Statement.mutation
  ws.bind fun _ => mutationP <|> queryP

end MutationParser

/-! ### Entry points -/

def parseMutation (input : Text) : Option (Except ParseError Mutation) :=
  match MutationParser.mutation input with
  | .ok m _ => some (.ok m)
  | .error e => some (.error e)
  | .diverges => none

def parseStatement (n : ℕ) (input : Text) : Option (Except ParseError Statement) :=
  match MutationParser.statement n input with
  | .ok s _ => some (.ok s)
  | .error e => some (.error e)
  | .diverges => none

end NextgenDatabases.Vcl
