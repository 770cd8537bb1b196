import NextgenDatabases.Wal.Entry
import Mathlib.Data.List.AList
import Mathlib.Algebra.Order.Ring.Rat

/-!
# Circuits

Circuit definitions, their compilation into constraints and the verification of a witness
against a compiled circuit. Floating point numbers are rationals; serialization and the
hash are those of the runtime.
-/
namespace NextgenDatabases.Semantic

open Foundations (Bytes Digest toHex toLe)

inductive CircuitError
  | notFound (name : String)
  | compilationFailed (message : String)
  | invalidWitness (message : String)
  deriving DecidableEq

/-- How a call ends without a result: with an error, or with a panic. -/
inductive Halt
  | error (e : CircuitError)
  | panic
  deriving DecidableEq

/-! ### Definitions of circuits -/

structure WireDef where
  name : String
  isPublic : Bool
  isOutput : Bool
  deriving DecidableEq

inductive GateType
  | and | or | xor | not | linearCombination
  deriving DecidableEq

structure GateDef where
  gateType : GateType
  inputs : List String
  output : String
  deriving DecidableEq

structure CircuitDef where
  name : String
  wires : List WireDef
  gates : List GateDef
  parameters : List String
  /-- A vector has fewer elements. -/
  wires_lt : wires.length < 2 ^ 63

/-! ### Compiled circuits -/

/-- Coefficients by the index of their wire. -/
abbrev Terms := AList fun _ : ℕ => ℚ

/-- `HashMap::from`: an entry replaces an earlier one of its key. -/
def Terms.ofList (entries : List (ℕ × ℚ)) : Terms :=
  entries.foldl (fun terms e => terms.insert e.1 e.2) ∅

/-- `a * b = c` -/
structure R1CSConstraint where
  a : Terms
  b : Terms
  c : Terms

structure CircuitIR where
  name : String
  numPublicInputs : ℕ
  numWitnessWires : ℕ
  numWires : ℕ
  constraints : List R1CSConstraint
  parameterMap : AList fun _ : String => ℕ

structure CompiledCircuit where
  ir : CircuitIR
  circuitHash : String
  verificationKey : Bytes

/-- The library functions that the compiler uses. -/
structure Backend where
  sha256 : Bytes → Digest
  /-- `serde_json::to_vec` -/
  irToVec : CircuitIR → Bytes
  constraintToVec : R1CSConstraint → Bytes

/-! ### Compilation -/

abbrev WireMap := AList fun _ : String => ℕ

/-- What the loop over the wires builds. -/
structure Declared where
  wireMap : WireMap := ∅
  publicInputs : List String := []
  witnessWires : List String := []

def Declared.add (s : Declared) (wire : WireDef) : Declared :=
  let wireMap := s.wireMap.insert wire.name s.wireMap.keys.length
  if wire.isPublic || wire.isOutput then
    { s with wireMap := wireMap, publicInputs := s.publicInputs ++ [wire.name] }
  else { s with wireMap := wireMap, witnessWires := s.witnessWires ++ [wire.name] }

def declare (wires : List WireDef) : Declared := wires.foldl .add {}

/-- `usize::MAX`, which the compiler takes for the index of the constant 1. -/
def constantWire : ℕ := 2 ^ 64 - 1

def resolveWire (wireMap : WireMap) (name : String) : Except Halt ℕ :=
  match wireMap.lookup name with
  | some idx => .ok idx
  | none => .error (.error (.compilationFailed ("Unknown wire: " ++ name)))

def outputWire (wireMap : WireMap) (name : String) : Except Halt ℕ :=
  match wireMap.lookup name with
  | some idx => .ok idx
  | none => .error (.error (.compilationFailed ("Unknown output wire: " ++ name)))

/-- `gate.inputs[i]` -/
def GateDef.input (gate : GateDef) (i : ℕ) : Except Halt String :=
  match gate.inputs[i]? with
  | some name => .ok name
  | none => .error .panic

/-- The constraint of a gate. -/
def compileGate (wireMap : WireMap) (gate : GateDef) : Except Halt R1CSConstraint := do
  let outputIdx ← outputWire wireMap gate.output
  match gate.gateType with
  | .and =>
    if gate.inputs.length ≠ 2 then
      throw (.error (.compilationFailed "AND gate requires exactly 2 inputs"))
    let aIdx ← resolveWire wireMap (← gate.input 0)
    let bIdx ← resolveWire wireMap (← gate.input 1)
    return ⟨.ofList [(aIdx, 1)], .ofList [(bIdx, 1)], .ofList [(outputIdx, 1)]⟩
  | .or =>
    let aIdx ← resolveWire wireMap (← gate.input 0)
    let bIdx ← resolveWire wireMap (← gate.input 1)
    return ⟨.ofList [(aIdx, 1)], .ofList [(bIdx, 1)], .ofList [(outputIdx, 1)]⟩
  | .xor =>
    let aIdx ← resolveWire wireMap (← gate.input 0)
    let bIdx ← resolveWire wireMap (← gate.input 1)
    return ⟨.ofList [(aIdx, 1)], .ofList [(bIdx, 2)],
      .ofList [(aIdx, 1), (bIdx, 1), (outputIdx, -1)]⟩
  | .not =>
    if gate.inputs.length ≠ 1 then
      throw (.error (.compilationFailed "NOT gate requires exactly 1 input"))
    let aIdx ← resolveWire wireMap (← gate.input 0)
    return ⟨.ofList [(aIdx, 1)], .ofList [(constantWire, 1)],
      .ofList [(aIdx, 1), (outputIdx, -1)]⟩
  | .linearCombination =>
    let sum ← gate.inputs.mapM fun name => do return (← resolveWire wireMap name, (1 : ℚ))
    return ⟨.ofList sum, .ofList [(constantWire, 1)], .ofList [(outputIdx, 1)]⟩

/-- The parameters that name a wire. -/
def parameterMap (wireMap : WireMap) (parameters : List String) : AList fun _ : String => ℕ :=
  parameters.foldl (fun m p =>
    match wireMap.lookup p with
    | some idx => m.insert p idx
    | none => m) ∅

section compile

variable (backend : Backend)

def generateVerificationKey (ir : CircuitIR) : Bytes :=
  (backend.sha256 (Wal.asBytes ir.name ++ toLe 8 ir.numPublicInputs ++ toLe 8 ir.numWires ++
    ir.constraints.flatMap backend.constraintToVec)).toList

def compileCircuit (circuit : CircuitDef) : Except Halt CompiledCircuit := do
  let declared := declare circuit.wires
  let constraints ← circuit.gates.mapM (compileGate declared.wireMap)
  let ir := {
    name := circuit.name
    numPublicInputs := declared.publicInputs.length
    numWitnessWires := declared.witnessWires.length
    numWires := declared.wireMap.keys.length
    constraints := constraints
    parameterMap := parameterMap declared.wireMap circuit.parameters }
  return ⟨ir, toHex (backend.sha256 (backend.irToVec ir)), generateVerificationKey backend ir⟩

end compile

/-! ### Verification -/

/-- The sum of the coefficients times the values of their wires; a missing value is 0. -/
def evalLinear (terms : Terms) (assignment : List ℚ) : ℚ :=
  (terms.entries.map fun e => e.2 * assignment.getD e.1 0).sum

def R1CSConstraint.holds (constraint : R1CSConstraint) (assignment : List ℚ) : Bool :=
  let product := evalLinear constraint.a assignment * evalLinear constraint.b assignment
  ¬ |product - evalLinear constraint.c assignment| > 1 / 10 ^ 10

def CompiledCircuit.verify (circuit : CompiledCircuit) (witness publicInputs : List ℚ) :
    Except CircuitError Bool :=
  let expectedWitnessLen := circuit.ir.numWires - circuit.ir.numPublicInputs
  if publicInputs.length ≠ circuit.ir.numPublicInputs then
    .error (.invalidWitness ("Expected " ++ toString circuit.ir.numPublicInputs ++
      " public inputs, got " ++ toString publicInputs.length))
  else if witness.length ≠ expectedWitnessLen then
    .error (.invalidWitness ("Expected " ++ toString expectedWitnessLen ++
      " witness values, got " ++ toString witness.length))
  else .ok (circuit.ir.constraints.all fun constraint =>
    constraint.holds (publicInputs ++ witness))

/-! ### The registry -/

/-- The compiled circuits by name. -/
abbrev CircuitRegistry := AList fun _ : String => CompiledCircuit

def CircuitRegistry.verifyWithCircuit (registry : CircuitRegistry) (name : String)
    (witness publicInputs : List ℚ) : Except CircuitError Bool :=
  match registry.lookup name with
  | none => .error (.notFound name)
  | some circuit => circuit.verify witness publicInputs

end NextgenDatabases.Semantic
