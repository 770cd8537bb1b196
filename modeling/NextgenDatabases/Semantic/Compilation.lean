import NextgenDatabases.Foundations.Traverse
import NextgenDatabases.Semantic.Circuit
import Mathlib.Data.List.Induction
import Mathlib.Tactic.Linarith
import Mathlib.Tactic.NormNum

/-!
# What compiled circuits accept

The meaning of the gates of a circuit, and what their constraints say instead: disjunction
is compiled like conjunction, the constant 1 is no wire, and the verifier numbers the public
wires before the others. Exactly when a compiled circuit accepts what its gates mean.
-/
namespace NextgenDatabases.Semantic

open Foundations (mapM_eq_ok_iff mapM_eq_error_iff mapM_ok_of_forall ok_of_mapM_ok)

/-! ### Meaning -/

/-- The value of a wire. -/
def bit (b : Bool) : ℚ := if b then 1 else 0

/-- The output wire has the value of the gate on its input wires. -/
def GateDef.Holds (x : String → Bool) (gate : GateDef) : Prop :=
  match gate.gateType with
  | .and => x gate.output = gate.inputs.all x
  | .or => x gate.output = gate.inputs.any x
  | .xor => x gate.output = (gate.inputs.map x).foldl Bool.xor false
  | .not => ∀ a ∈ gate.inputs, x gate.output = !x a
  | .linearCombination => bit (x gate.output) = (gate.inputs.map fun a => bit (x a)).sum

/-- What the constraint of a gate says of the values of its wires. -/
def GateDef.Misread (y : String → Bool) (gate : GateDef) : Prop :=
  match gate.gateType, gate.inputs with
  | .and, a :: b :: _ => y gate.output = (y a && y b)
  | .or, a :: b :: _ => y gate.output = (y a && y b)
  | .xor, a :: b :: _ =>
    if [a, b, gate.output].Nodup then y gate.output = Bool.xor (y a) (y b)
    else y a = false ∧ y b = false ∧ y gate.output = false
  | .not, a :: _ => if a = gate.output then y a = false else y gate.output = y a
  | .linearCombination, _ => y gate.output = false
  | _, _ => False

/-- The gate is compiled, if these are the wires. -/
def GateDef.WellFormed (names : List String) (gate : GateDef) : Prop :=
  gate.output ∈ names ∧
    match gate.gateType with
    | .and => gate.inputs.length = 2 ∧ ∀ a ∈ gate.inputs, a ∈ names
    | .or | .xor => 2 ≤ gate.inputs.length ∧ ∀ a ∈ gate.inputs.take 2, a ∈ names
    | .not => gate.inputs.length = 1 ∧ ∀ a ∈ gate.inputs, a ∈ names
    | .linearCombination => ∀ a ∈ gate.inputs, a ∈ names

/-- The gate makes the compiler read past the end of its inputs. -/
def GateDef.Short (names : List String) (gate : GateDef) : Prop :=
  gate.output ∈ names ∧ (gate.gateType = .or ∨ gate.gateType = .xor) ∧
    gate.inputs.length < 2 ∧ ∀ a ∈ gate.inputs, a ∈ names

/-- The gate has too few inputs. -/
def GateDef.TooFew (gate : GateDef) : Prop :=
  match gate.gateType with
  | .and | .or | .xor => gate.inputs.length < 2
  | .not => gate.inputs.length < 1
  | .linearCombination => False

namespace CircuitDef

variable (circuit : CircuitDef)

def names : List String := circuit.wires.map WireDef.name

/-- The public and output wires, in the order of their declaration. -/
def publicWires : List String :=
  (circuit.wires.filter fun w => w.isPublic || w.isOutput).map WireDef.name

/-- The other wires. -/
def witnessWires : List String :=
  (circuit.wires.filter fun w => !(w.isPublic || w.isOutput)).map WireDef.name

def publicValues (x : String → Bool) : List ℚ := circuit.publicWires.map fun w => bit (x w)

def witnessValues (x : String → Bool) : List ℚ := circuit.witnessWires.map fun w => bit (x w)

/-- The wire whose value the verifier finds where the compiler has put this one. -/
def readAs (name : String) : String :=
  (circuit.publicWires ++ circuit.witnessWires).getD (circuit.names.idxOf name) name

/-- The compiler meets a short gate behind gates that it has compiled. -/
def Panics : Prop :=
  ∃ before gate after, circuit.gates = before ++ gate :: after ∧
    (∀ g ∈ before, g.WellFormed circuit.names) ∧ gate.Short circuit.names

end CircuitDef

/-! ### Numbering -/

theorem declare_append (wires : List WireDef) (wire : WireDef) :
    declare (wires ++ [wire]) = (declare wires).add wire := by
  simp [declare, List.foldl_append]

/-- The loop over the wires numbers them in order and sorts them into two lists. -/
theorem declare_spec {wires : List WireDef} (h : (wires.map WireDef.name).Nodup) :
    (declare wires).wireMap.keys.length = wires.length ∧
      (∀ name, (declare wires).wireMap.lookup name =
        if name ∈ wires.map WireDef.name then some ((wires.map WireDef.name).idxOf name)
        else none) ∧
      (declare wires).publicInputs =
        (wires.filter fun w => w.isPublic || w.isOutput).map WireDef.name ∧
      (declare wires).witnessWires =
        (wires.filter fun w => !(w.isPublic || w.isOutput)).map WireDef.name := by
  induction wires using List.reverseRecOn with
  | nil => simp [declare]
  | append_singleton wires wire ih =>
    rw [List.map_append, List.nodup_append] at h
    obtain ⟨hwires, -, hdisjoint⟩ := h
    obtain ⟨hlength, hlookup, hpublic, hwitness⟩ := ih hwires
    have hfresh : wire.name ∉ wires.map WireDef.name := fun hmem =>
      hdisjoint _ hmem _ (by simp) rfl
    have habsent : wire.name ∉ (declare wires).wireMap := by
      rw [← AList.lookup_eq_none, hlookup, if_neg hfresh]
    have hmap : ((declare wires).add wire).wireMap =
        (declare wires).wireMap.insert wire.name wires.length := by
      rw [Declared.add, hlength]
      split <;> rfl
    rw [declare_append]
    refine ⟨?_, ?_, ?_, ?_⟩
    · rw [hmap, AList.keys_insert, List.erase_of_not_mem habsent, List.length_cons, hlength]
      simp
    · intro name
      rw [hmap]
      by_cases hname : name = wire.name
      · subst hname
        rw [AList.lookup_insert, if_pos (by simp), List.map_append,
          List.idxOf_append_of_notMem hfresh]
        simp
      · rw [AList.lookup_insert_ne hname, hlookup]
        by_cases hmem : name ∈ wires.map WireDef.name
        · rw [if_pos hmem, if_pos (by simp_all), List.map_append, List.idxOf_append_of_mem hmem]
        · rw [if_neg hmem, if_neg (by simp_all)]
    · rw [Declared.add, List.filter_append, List.map_append, ← hpublic]
      cases hp : wire.isPublic <;> cases ho : wire.isOutput <;> simp [hp, ho]
    · rw [Declared.add, List.filter_append, List.map_append, ← hwitness]
      cases hp : wire.isPublic <;> cases ho : wire.isOutput <;> simp [hp, ho]

/-! ### Linear combinations -/

theorem evalLinear_single (k : ℕ) (v : ℚ) (assignment : List ℚ) :
    evalLinear (.ofList [(k, v)]) assignment = v * assignment.getD k 0 := by
  simp [evalLinear, Terms.ofList, AList.singleton_entries]

/-- An entry replaces an earlier one of its key. -/
theorem evalLinear_pair (i j : ℕ) (v w : ℚ) (assignment : List ℚ) :
    evalLinear (.ofList [(i, v), (j, w)]) assignment =
      w * assignment.getD j 0 + if i = j then 0 else v * assignment.getD i 0 := by
  by_cases h : i = j
  · subst h
    simp [evalLinear, Terms.ofList, AList.singleton_entries]
  · simp [evalLinear, Terms.ofList, AList.entries_insert, AList.singleton_entries, h, Ne.symm h]

theorem evalLinear_triple (i j k : ℕ) (u v w : ℚ) (assignment : List ℚ) :
    evalLinear (.ofList [(i, u), (j, v), (k, w)]) assignment =
      w * assignment.getD k 0 + (if j = k then 0 else v * assignment.getD j 0) +
        if i = k ∨ i = j then 0 else u * assignment.getD i 0 := by
  by_cases hij : i = j
  · subst hij
    by_cases hik : i = k
    · subst hik
      simp [evalLinear, Terms.ofList, AList.singleton_entries]
    · simp [evalLinear, Terms.ofList, AList.entries_insert, AList.singleton_entries, hik,
        Ne.symm hik]
  · by_cases hik : i = k
    · subst hik
      simp [evalLinear, Terms.ofList, AList.entries_insert, AList.singleton_entries, hij,
        Ne.symm hij]
    · by_cases hjk : j = k
      · subst hjk
        simp [evalLinear, Terms.ofList, AList.entries_insert, AList.singleton_entries, hij,
          Ne.symm hij]
      · simp [evalLinear, Terms.ofList, AList.entries_insert, AList.singleton_entries, hij, hik,
          hjk, Ne.symm hij, Ne.symm hik, Ne.symm hjk]
        ring

/-! ### One gate -/

/-- A constraint of two single wires is a conjunction. -/
theorem and_holds (a b o : Bool) :
    |bit a * bit b - bit o| ≤ 1 / 10 ^ 10 ↔ o = (a && b) := by
  cases a <;> cases b <;> cases o <;> norm_num [bit]

/-- A wire that occurs twice in an exclusive disjunction keeps one of its coefficients. -/
theorem xor_holds (x : String → Bool) (readAs : String → String) (a b output : String) :
    |1 * bit (x (readAs a)) * (2 * bit (x (readAs b))) -
      (-1 * bit (x (readAs output)) + (if b = output then 0 else 1 * bit (x (readAs b))) +
        if a = output ∨ a = b then 0 else 1 * bit (x (readAs a)))| ≤ 1 / 10 ^ 10 ↔
      if [a, b, output].Nodup then
        x (readAs output) = Bool.xor (x (readAs a)) (x (readAs b))
      else x (readAs a) = false ∧ x (readAs b) = false ∧ x (readAs output) = false := by
  by_cases hab : a = b
  · subst hab
    by_cases hao : a = output
    · subst hao
      cases x (readAs a) <;> norm_num [bit]
    · cases x (readAs a) <;> cases x (readAs output) <;> norm_num [bit, hao]
  · by_cases hao : a = output
    · subst hao
      cases x (readAs a) <;> cases x (readAs b) <;> norm_num [bit, hab, Ne.symm hab]
    · by_cases hbo : b = output
      · subst hbo
        cases x (readAs a) <;> cases x (readAs b) <;> norm_num [bit, hab]
      · cases x (readAs a) <;> cases x (readAs b) <;> cases x (readAs output) <;>
          norm_num [bit, hab, hao, hbo]

theorem not_holds (x : String → Bool) (readAs : String → String) (a output : String) :
    |1 * bit (x (readAs a)) * (1 * 0) -
      (-1 * bit (x (readAs output)) + if a = output then 0 else 1 * bit (x (readAs a)))| ≤
        1 / 10 ^ 10 ↔
      if a = output then x (readAs a) = false else x (readAs output) = x (readAs a) := by
  by_cases hao : a = output
  · subst hao
    cases x (readAs a) <;> norm_num [bit]
  · cases x (readAs a) <;> cases x (readAs output) <;> norm_num [bit, hao]

theorem zero_holds (o : Bool) : |0 - bit o| ≤ 1 / 10 ^ 10 ↔ o = false := by
  cases o <;> norm_num [bit]

theorem two_le_length {α : Type} {l : List α} (h : 2 ≤ l.length) :
    ∃ a b rest, l = a :: b :: rest := by
  match l, h with
  | a :: b :: rest, _ => exact ⟨a, b, rest, rfl⟩

section gates

variable {circuit : CircuitDef}

theorem length_values (x : String → Bool) :
    (circuit.publicValues x ++ circuit.witnessValues x).length = circuit.wires.length := by
  have hsplit := List.length_eq_length_filter_add (l := circuit.wires)
    fun w => w.isPublic || w.isOutput
  simp only [CircuitDef.publicValues, CircuitDef.publicWires, CircuitDef.witnessValues,
    CircuitDef.witnessWires, List.length_append, List.length_map]
  exact hsplit.symm

theorem value_constant (x : String → Bool) :
    (circuit.publicValues x ++ circuit.witnessValues x).getD constantWire 0 = 0 := by
  have hlength := @length_values circuit x
  have hwires := circuit.wires_lt
  rw [List.getD_eq_getElem?_getD, List.getElem?_eq_none (by unfold constantWire; omega)]
  rfl

theorem value_position (x : String → Bool) {name : String} (h : name ∈ circuit.names) :
    (circuit.publicValues x ++ circuit.witnessValues x).getD (circuit.names.idxOf name) 0 =
      bit (x (circuit.readAs name)) := by
  have hlt : circuit.names.idxOf name < (circuit.publicWires ++ circuit.witnessWires).length := by
    have hlength := @length_values circuit x
    have hidx := List.idxOf_lt_length_of_mem h
    simp only [CircuitDef.publicValues, CircuitDef.witnessValues, CircuitDef.names,
      List.length_append, List.length_map] at hlength hidx ⊢
    omega
  rw [CircuitDef.publicValues, CircuitDef.witnessValues, ← List.map_append, CircuitDef.readAs,
    List.getD_eq_getElem?_getD, List.getElem?_map, List.getElem?_eq_getElem hlt,
    List.getD_eq_getElem?_getD, List.getElem?_eq_getElem hlt]
  rfl

/-- The values that a circuit is verified with, and the constraint of a gate on them. -/
theorem holds_iff (c : R1CSConstraint) (assignment : List ℚ) :
    c.holds assignment = true ↔
      |evalLinear c.a assignment * evalLinear c.b assignment - evalLinear c.c assignment| ≤
        1 / 10 ^ 10 := by
  simp [R1CSConstraint.holds]

variable (hnames : circuit.names.Nodup)
include hnames

theorem resolveWire_eq (name : String) :
    resolveWire (declare circuit.wires).wireMap name =
      if name ∈ circuit.names then .ok (circuit.names.idxOf name)
      else .error (.error (.compilationFailed ("Unknown wire: " ++ name))) := by
  rw [resolveWire, (declare_spec hnames).2.1 name]
  by_cases h : name ∈ circuit.names
  · rw [if_pos h, if_pos (show name ∈ circuit.wires.map WireDef.name from h)]
    rfl
  · rw [if_neg h, if_neg (show name ∉ circuit.wires.map WireDef.name from h)]

theorem outputWire_eq (name : String) :
    outputWire (declare circuit.wires).wireMap name =
      if name ∈ circuit.names then .ok (circuit.names.idxOf name)
      else .error (.error (.compilationFailed ("Unknown output wire: " ++ name))) := by
  rw [outputWire, (declare_spec hnames).2.1 name]
  by_cases h : name ∈ circuit.names
  · rw [if_pos h, if_pos (show name ∈ circuit.wires.map WireDef.name from h)]
    rfl
  · rw [if_neg h, if_neg (show name ∉ circuit.wires.map WireDef.name from h)]

/-- A compiled gate says of the values given to the verifier what the gate is misread as. -/
theorem compileGate_ok {gate : GateDef} (h : gate.WellFormed circuit.names) :
    ∃ c, compileGate (declare circuit.wires).wireMap gate = .ok c ∧ ∀ x,
      (c.holds (circuit.publicValues x ++ circuit.witnessValues x) = true ↔
        gate.Misread (x ∘ circuit.readAs)) := by
  obtain ⟨gateType, inputs, output⟩ := gate
  obtain ⟨houtput, hinputs⟩ := h
  have hresolved : outputWire (declare circuit.wires).wireMap output =
      .ok (circuit.names.idxOf output) := by
    rw [outputWire_eq hnames, if_pos houtput]
  have hinput : ∀ a ∈ circuit.names, resolveWire (declare circuit.wires).wireMap a =
      .ok (circuit.names.idxOf a) := by
    intro a ha
    rw [resolveWire_eq hnames, if_pos ha]
  cases gateType with
  | and =>
    obtain ⟨hlength, hmem⟩ := hinputs
    obtain ⟨a, b, rfl⟩ := List.length_eq_two.1 hlength
    have ha := hmem a (by simp)
    have hb := hmem b (by simp)
    refine ⟨⟨.ofList [(circuit.names.idxOf a, 1)], .ofList [(circuit.names.idxOf b, 1)],
      .ofList [(circuit.names.idxOf output, 1)]⟩, ?_, fun x => ?_⟩
    · simp [compileGate, GateDef.input, bind, Except.bind, pure, Except.pure, hresolved,
        hinput a ha, hinput b hb]
    · rw [holds_iff, evalLinear_single, evalLinear_single, evalLinear_single,
        value_position x ha, value_position x hb, value_position x houtput, one_mul, one_mul,
        one_mul, and_holds]
      rfl
  | or =>
    obtain ⟨hlength, hmem⟩ := hinputs
    obtain ⟨a, b, rest, rfl⟩ := two_le_length hlength
    have ha := hmem a (by simp)
    have hb := hmem b (by simp)
    refine ⟨⟨.ofList [(circuit.names.idxOf a, 1)], .ofList [(circuit.names.idxOf b, 1)],
      .ofList [(circuit.names.idxOf output, 1)]⟩, ?_, fun x => ?_⟩
    · simp [compileGate, GateDef.input, bind, Except.bind, pure, Except.pure, hresolved,
        hinput a ha, hinput b hb]
    · rw [holds_iff, evalLinear_single, evalLinear_single, evalLinear_single,
        value_position x ha, value_position x hb, value_position x houtput, one_mul, one_mul,
        one_mul, and_holds]
      rfl
  | xor =>
    obtain ⟨hlength, hmem⟩ := hinputs
    obtain ⟨a, b, rest, rfl⟩ := two_le_length hlength
    have ha := hmem a (by simp)
    have hb := hmem b (by simp)
    refine ⟨⟨.ofList [(circuit.names.idxOf a, 1)], .ofList [(circuit.names.idxOf b, 2)],
      .ofList [(circuit.names.idxOf a, 1), (circuit.names.idxOf b, 1),
        (circuit.names.idxOf output, -1)]⟩, ?_, fun x => ?_⟩
    · simp [compileGate, GateDef.input, bind, Except.bind, pure, Except.pure, hresolved,
        hinput a ha, hinput b hb]
    · rw [holds_iff, evalLinear_single, evalLinear_single, evalLinear_triple,
        value_position x ha, value_position x hb, value_position x houtput]
      simp only [List.idxOf_inj ha, List.idxOf_inj hb]
      exact xor_holds x circuit.readAs a b output
  | not =>
    obtain ⟨hlength, hmem⟩ := hinputs
    obtain ⟨a, rfl⟩ := List.length_eq_one_iff.1 hlength
    have ha := hmem a (by simp)
    refine ⟨⟨.ofList [(circuit.names.idxOf a, 1)], .ofList [(constantWire, 1)],
      .ofList [(circuit.names.idxOf a, 1), (circuit.names.idxOf output, -1)]⟩, ?_, fun x => ?_⟩
    · simp [compileGate, GateDef.input, bind, Except.bind, pure, Except.pure, hresolved,
        hinput a ha]
    · rw [holds_iff, evalLinear_single, evalLinear_single, evalLinear_pair,
        value_position x ha, value_position x houtput, value_constant]
      simp only [List.idxOf_inj ha]
      exact not_holds x circuit.readAs a output
  | linearCombination =>
    obtain ⟨sum, hsum⟩ := mapM_ok_of_forall (f := fun name => do
        return (← resolveWire (declare circuit.wires).wireMap name, (1 : ℚ)))
      (l := inputs) (by
        intro a ha
        exact ⟨(circuit.names.idxOf a, 1), by rw [hinput a (hinputs a ha)]; rfl⟩)
    refine ⟨⟨.ofList sum, .ofList [(constantWire, 1)],
      .ofList [(circuit.names.idxOf output, 1)]⟩, ?_, fun x => ?_⟩
    · simp only [compileGate, hresolved]
      simp only [bind, Except.bind, pure, Except.pure] at hsum ⊢
      rw [hsum]
    · rw [holds_iff, evalLinear_single, evalLinear_single, value_position x houtput,
        value_constant, mul_zero, mul_zero, one_mul, zero_holds]
      rfl

omit hnames in
theorem not_wellFormed_of_short {gate : GateDef} (h : gate.Short circuit.names) :
    ¬ gate.WellFormed circuit.names := by
  obtain ⟨-, htype | htype, hlength, -⟩ := h
  all_goals
    rintro ⟨-, hinputs⟩
    rw [htype] at hinputs
    have := hinputs.1
    omega

/-- A short gate makes the compiler panic, every other gate that is not well formed is an
error. -/
theorem compileGate_halts {gate : GateDef} (h : ¬ gate.WellFormed circuit.names) :
    (gate.Short circuit.names ∧
        compileGate (declare circuit.wires).wireMap gate = .error .panic) ∨
      (¬ gate.Short circuit.names ∧
        ∃ e, compileGate (declare circuit.wires).wireMap gate = .error (.error e)) := by
  obtain ⟨gateType, inputs, output⟩ := gate
  by_cases houtput : output ∈ circuit.names
  · have hresolved : outputWire (declare circuit.wires).wireMap output =
        .ok (circuit.names.idxOf output) := by
      rw [outputWire_eq hnames, if_pos houtput]
    have hinput := resolveWire_eq hnames
    cases gateType with
    | and =>
      right
      constructor
      · simp [GateDef.Short]
      · by_cases hlength : inputs.length = 2
        · obtain ⟨a, b, rfl⟩ := List.length_eq_two.1 hlength
          by_cases ha : a ∈ circuit.names
          · have hb : b ∉ circuit.names := fun hb => h ⟨houtput, hlength, by simp [ha, hb]⟩
            simp [compileGate, GateDef.input, bind, Except.bind, hresolved, hinput, ha, hb]
          · simp [compileGate, GateDef.input, bind, Except.bind, hresolved, hinput, ha]
        · simp [compileGate, bind, Except.bind, throw, throwThe, MonadExceptOf.throw, hresolved,
            hlength]
    | or | xor =>
      match inputs with
      | [] =>
        left
        constructor
        · simp [GateDef.Short, houtput]
        · simp [compileGate, GateDef.input, bind, Except.bind, hresolved]
      | [a] =>
        by_cases ha : a ∈ circuit.names
        · left
          constructor
          · simp [GateDef.Short, houtput, ha]
          · simp [compileGate, GateDef.input, bind, Except.bind, hresolved, hinput, ha]
        · right
          constructor
          · simp [GateDef.Short, ha]
          · simp [compileGate, GateDef.input, bind, Except.bind, hresolved, hinput, ha]
      | a :: b :: rest =>
        right
        constructor
        · simp [GateDef.Short]
        · by_cases ha : a ∈ circuit.names
          · have hb : b ∉ circuit.names := fun hb => h ⟨houtput, by simp, by simp [ha, hb]⟩
            simp [compileGate, GateDef.input, bind, Except.bind, hresolved, hinput, ha, hb]
          · simp [compileGate, GateDef.input, bind, Except.bind, hresolved, hinput, ha]
    | not =>
      right
      constructor
      · simp [GateDef.Short]
      · by_cases hlength : inputs.length = 1
        · obtain ⟨a, rfl⟩ := List.length_eq_one_iff.1 hlength
          have ha : a ∉ circuit.names := fun ha => h ⟨houtput, hlength, by simp [ha]⟩
          simp [compileGate, GateDef.input, bind, Except.bind, hresolved, hinput, ha]
        · simp [compileGate, bind, Except.bind, throw, throwThe, MonadExceptOf.throw, hresolved,
            hlength]
    | linearCombination =>
      right
      constructor
      · simp [GateDef.Short]
      · cases hsum : inputs.mapM fun name => do
            return (← resolveWire (declare circuit.wires).wireMap name, (1 : ℚ)) with
        | ok sum =>
          refine absurd ⟨houtput, fun a ha => ?_⟩ h
          by_contra hmem
          obtain ⟨b, hb⟩ := ok_of_mapM_ok hsum a ha
          rw [hinput a, if_neg hmem] at hb
          cases hb
        | error e =>
          obtain ⟨before, a, after, -, -, ha⟩ := mapM_eq_error_iff.1 hsum
          rw [hinput a] at ha
          split at ha
          · cases ha
          · cases ha
            simp only [compileGate, hresolved]
            simp only [bind, Except.bind, pure, Except.pure] at hsum ⊢
            rw [hsum]
            exact ⟨_, rfl⟩
  · right
    refine ⟨fun hshort => houtput hshort.1, .compilationFailed ("Unknown output wire: " ++ output),
      ?_⟩
    rw [compileGate, outputWire_eq hnames, if_neg houtput]
    rfl

theorem wellFormed_of_ok {gate : GateDef} {c : R1CSConstraint}
    (h : compileGate (declare circuit.wires).wireMap gate = .ok c) :
    gate.WellFormed circuit.names := by
  by_contra hwf
  rcases compileGate_halts hnames hwf with ⟨-, hp⟩ | ⟨-, e, he⟩
  · rw [hp] at h
    cases h
  · rw [he] at h
    cases h

/-! ### Whole circuits -/

theorem compileCircuit_panics_iff (backend : Backend) :
    compileCircuit backend circuit = .error .panic ↔ circuit.Panics := by
  have hgates : compileCircuit backend circuit = .error .panic ↔
      circuit.gates.mapM (compileGate (declare circuit.wires).wireMap) = .error .panic := by
    simp only [compileCircuit, bind, Except.bind]
    cases circuit.gates.mapM (compileGate (declare circuit.wires).wireMap) <;>
      simp [pure, Except.pure]
  rw [hgates, mapM_eq_error_iff]
  constructor
  · rintro ⟨before, gate, after, hsplit, hbefore, hgate⟩
    refine ⟨before, gate, after, hsplit, fun g hg => ?_, ?_⟩
    · obtain ⟨c, hc⟩ := hbefore g hg
      exact wellFormed_of_ok hnames hc
    · by_cases hwf : gate.WellFormed circuit.names
      · obtain ⟨c, hc, -⟩ := compileGate_ok hnames hwf
        rw [hc] at hgate
        cases hgate
      · rcases compileGate_halts hnames hwf with ⟨hshort, -⟩ | ⟨-, e, he⟩
        · exact hshort
        · rw [he] at hgate
          cases hgate
  · rintro ⟨before, gate, after, hsplit, hbefore, hshort⟩
    refine ⟨before, gate, after, hsplit, fun g hg => ?_, ?_⟩
    · obtain ⟨c, hc, -⟩ := compileGate_ok hnames (hbefore g hg)
      exact ⟨c, hc⟩
    · rcases compileGate_halts hnames (not_wellFormed_of_short hshort) with ⟨-, hp⟩ | ⟨hno, -⟩
      · exact hp
      · exact absurd hshort hno

/-- A circuit of well formed gates is compiled, and what is compiled accepts the values of an
assignment exactly when they meet every gate as it is misread. -/
theorem compileCircuit_ok (backend : Backend)
    (h : ∀ gate ∈ circuit.gates, gate.WellFormed circuit.names) :
    ∃ compiled, compileCircuit backend circuit = .ok compiled ∧ ∀ x,
      (compiled.verify (circuit.witnessValues x) (circuit.publicValues x) = .ok true ↔
        ∀ gate ∈ circuit.gates, gate.Misread (x ∘ circuit.readAs)) := by
  obtain ⟨hkeys, -, hpublic, hwitness⟩ := declare_spec hnames
  obtain ⟨constraints, hconstraints⟩ := mapM_ok_of_forall
    (f := compileGate (declare circuit.wires).wireMap) (l := circuit.gates) (by
      intro gate hgate
      obtain ⟨c, hc, -⟩ := compileGate_ok hnames (h gate hgate)
      exact ⟨c, hc⟩)
  refine ⟨_, by simp only [compileCircuit, hconstraints]; rfl, fun x => ?_⟩
  have hnumPublic : (circuit.publicValues x).length =
      (declare circuit.wires).publicInputs.length := by
    rw [hpublic, CircuitDef.publicValues, List.length_map]
    rfl
  have hnumWitness : (circuit.witnessValues x).length =
      (declare circuit.wires).wireMap.keys.length -
        (declare circuit.wires).publicInputs.length := by
    have hlength := @length_values circuit x
    rw [List.length_append] at hlength
    rw [hkeys, ← hnumPublic]
    omega
  have hall : constraints.all (fun c =>
      c.holds (circuit.publicValues x ++ circuit.witnessValues x)) = true ↔
      ∀ gate ∈ circuit.gates, gate.Misread (x ∘ circuit.readAs) := by
    rw [mapM_eq_ok_iff] at hconstraints
    clear hnumPublic hnumWitness hkeys hpublic hwitness
    generalize circuit.gates = gates at h hconstraints
    induction hconstraints with
    | nil => simp
    | @cons gate c gates constraints hgate _ ih =>
      obtain ⟨c', hc', hmeaning⟩ := compileGate_ok hnames (h gate (by simp))
      rw [hgate] at hc'
      cases hc'
      rw [List.all_cons, Bool.and_eq_true, hmeaning x,
        ih fun g hg => h g (List.mem_cons_of_mem _ hg), List.forall_mem_cons]
  rw [← hall, CompiledCircuit.verify]
  simp only [hnumPublic, hnumWitness, ne_eq, not_true_eq_false, if_false, Except.ok.injEq]

theorem wellFormed_of_compiled {backend : Backend} {compiled : CompiledCircuit}
    (h : compileCircuit backend circuit = .ok compiled) :
    ∀ gate ∈ circuit.gates, gate.WellFormed circuit.names := by
  intro gate hgate
  cases hconstraints : circuit.gates.mapM (compileGate (declare circuit.wires).wireMap) with
  | error e =>
    rw [compileCircuit, hconstraints] at h
    cases h
  | ok constraints =>
    obtain ⟨c, hc⟩ := ok_of_mapM_ok hconstraints gate hgate
    exact wellFormed_of_ok hnames hc

/-- A circuit with a gate of too few inputs is not compiled. -/
theorem not_ok_of_tooFew (backend : Backend) {gate : GateDef} (hgate : gate ∈ circuit.gates)
    (h : gate.TooFew) (compiled : CompiledCircuit) :
    compileCircuit backend circuit ≠ .ok compiled := by
  intro hcompiled
  have hwf := wellFormed_of_compiled hnames hcompiled gate hgate
  obtain ⟨gateType, inputs, output⟩ := gate
  obtain ⟨-, hinputs⟩ := hwf
  cases gateType with
  | and | or | xor | not =>
    have hlength := hinputs.1
    have hfew : inputs.length < _ := h
    simp only at hlength
    omega
  | linearCombination => exact h

end gates

/-! ### Preservation of meaning -/

/-- The compiler refuses the circuit with an error, or what it returns accepts exactly the
assignments that give every output wire the value of its gate. -/
def CircuitDef.Preserved (backend : Backend) (circuit : CircuitDef) : Prop :=
  compileCircuit backend circuit ≠ .error .panic ∧
    (∀ gate ∈ circuit.gates, gate.TooFew →
      ∃ e, compileCircuit backend circuit = .error (.error e)) ∧
    ∀ compiled, compileCircuit backend circuit = .ok compiled → ∀ x,
      (compiled.verify (circuit.witnessValues x) (circuit.publicValues x) = .ok true ↔
        ∀ gate ∈ circuit.gates, gate.Holds x)

/-- No short gate is met, and if all gates are compiled then reading them as they are misread,
on the wires as the verifier numbers them, changes nothing. -/
def CircuitDef.Faithful (circuit : CircuitDef) : Prop :=
  ¬ circuit.Panics ∧
    ((∀ gate ∈ circuit.gates, gate.WellFormed circuit.names) → ∀ x,
      ((∀ gate ∈ circuit.gates, gate.Misread (x ∘ circuit.readAs)) ↔
        ∀ gate ∈ circuit.gates, gate.Holds x))

section preserved

variable {backend : Backend} {circuit : CircuitDef} (hnames : circuit.names.Nodup)
include hnames

theorem faithful_of_preserved (h : circuit.Preserved backend) : circuit.Faithful := by
  obtain ⟨hpanic, -, hmeaning⟩ := h
  constructor
  · intro h
    exact hpanic ((compileCircuit_panics_iff hnames backend).2 h)
  · intro hwf x
    obtain ⟨compiled, hcompiled, haccepts⟩ := compileCircuit_ok hnames backend hwf
    rw [← haccepts x]
    exact hmeaning compiled hcompiled x

theorem preserved_of_faithful (h : circuit.Faithful) : circuit.Preserved backend := by
  obtain ⟨hpanic, hmeaning⟩ := h
  have hnot := mt (compileCircuit_panics_iff hnames backend).1 hpanic
  refine ⟨hnot, fun gate hgate hfew => ?_, fun compiled hcompiled x => ?_⟩
  · cases hresult : compileCircuit backend circuit with
    | ok compiled => exact absurd hresult (not_ok_of_tooFew hnames backend hgate hfew compiled)
    | error halt =>
      cases halt with
      | error e => exact ⟨e, rfl⟩
      | panic => exact absurd hresult hnot
  · have hwf := wellFormed_of_compiled hnames hcompiled
    obtain ⟨compiled', hcompiled', haccepts⟩ := compileCircuit_ok hnames backend hwf
    rw [hcompiled] at hcompiled'
    cases hcompiled'
    rw [haccepts x]
    exact hmeaning hwf x

end preserved

/-- The compiler preserves the meaning of exactly the faithful circuits. -/
theorem preserved_iff (backend : Backend) (circuit : CircuitDef) (hnames : circuit.names.Nodup) :
    circuit.Preserved backend ↔ circuit.Faithful :=
  ⟨faithful_of_preserved hnames, preserved_of_faithful hnames⟩

/-- Only conjunctions, and exclusive disjunctions of two wires neither of which is the output. -/
def GateDef.Plain (gate : GateDef) : Prop :=
  gate.gateType = .and ∨
    gate.gateType = .xor ∧ gate.inputs.length = 2 ∧ (gate.output :: gate.inputs).Nodup

/-- The verifier numbers the wires like the compiler if the public ones are declared first. -/
theorem readAs_eq {circuit : CircuitDef}
    (hfirst : circuit.publicWires ++ circuit.witnessWires = circuit.names) {name : String}
    (h : name ∈ circuit.names) : circuit.readAs name = name := by
  rw [CircuitDef.readAs, hfirst, List.getD_eq_getElem?_getD,
    List.getElem?_eq_getElem (List.idxOf_lt_length_of_mem h), Option.getD_some]
  exact List.getElem_idxOf (List.idxOf_lt_length_of_mem h)

theorem misread_iff_of_plain {circuit : CircuitDef}
    (hfirst : circuit.publicWires ++ circuit.witnessWires = circuit.names) {gate : GateDef}
    (hplain : gate.Plain) (hwf : gate.WellFormed circuit.names) (x : String → Bool) :
    gate.Misread (x ∘ circuit.readAs) ↔ gate.Holds x := by
  obtain ⟨gateType, inputs, output⟩ := gate
  have houtput := readAs_eq hfirst hwf.1
  rcases hplain with htype | ⟨htype, hlength, hnodup⟩
  · cases htype
    obtain ⟨-, hlength, hmem⟩ := hwf
    obtain ⟨a, b, rfl⟩ := List.length_eq_two.1 hlength
    have ha := readAs_eq hfirst (hmem a (by simp))
    have hb := readAs_eq hfirst (hmem b (by simp))
    simp only at houtput
    simp [GateDef.Misread, GateDef.Holds, ha, hb, houtput]
  · cases htype
    obtain ⟨a, b, rfl⟩ := List.length_eq_two.1 hlength
    obtain ⟨-, -, hmem⟩ := hwf
    have ha := readAs_eq hfirst (hmem a (by simp))
    have hb := readAs_eq hfirst (hmem b (by simp))
    have hrotated : [a, b, output].Nodup := by
      simp only [List.nodup_cons, List.mem_cons, List.not_mem_nil, or_false, not_or] at hnodup ⊢
      tauto
    simp only at houtput
    simp [GateDef.Misread, GateDef.Holds, hrotated, ha, hb, houtput]

/-- A circuit of such gates keeps its meaning if it declares its public wires first. -/
theorem preserved_of_plain (backend : Backend) {circuit : CircuitDef}
    (hnames : circuit.names.Nodup)
    (hfirst : circuit.publicWires ++ circuit.witnessWires = circuit.names)
    (hplain : ∀ gate ∈ circuit.gates, gate.Plain) : circuit.Preserved backend := by
  apply preserved_of_faithful hnames
  constructor
  · rintro ⟨before, gate, after, hsplit, -, -, htype, hlength, -⟩
    rcases hplain gate (by simp [hsplit]) with hand | ⟨-, htwo, -⟩
    · rw [hand] at htype
      simp at htype
    · omega
  · intro hwf x
    constructor
    · intro h gate hgate
      exact (misread_iff_of_plain hfirst (hplain gate hgate) (hwf gate hgate) x).1 (h gate hgate)
    · intro h gate hgate
      exact (misread_iff_of_plain hfirst (hplain gate hgate) (hwf gate hgate) x).2 (h gate hgate)

/-- The circuit of one gate on two inputs. -/
def twoInputs (gateType : GateType) : CircuitDef where
  name := "two-inputs"
  wires := [⟨"a", true, false⟩, ⟨"b", true, false⟩, ⟨"c", true, true⟩]
  gates := [⟨gateType, ["a", "b"], "c"⟩]
  parameters := []
  wires_lt := by decide

/-- A conjunction is preserved. -/
theorem preserved_iff_conjunction : (twoInputs .and).names.Nodup ∧
    ∀ backend, (twoInputs .and).Preserved backend ∧ (twoInputs .and).Faithful := by
  refine ⟨by decide, fun backend => ?_⟩
  have hpreserved : (twoInputs .and).Preserved backend :=
    preserved_of_plain backend (by decide) (by decide) (by simp [twoInputs, GateDef.Plain])
  exact ⟨hpreserved, (preserved_iff backend (twoInputs .and) (by decide)).1 hpreserved⟩

/-- A disjunction of 1 and 0 with the value 1 is refused, as if it were a conjunction. -/
theorem disjunction_refused :
    (twoInputs .or).names.Nodup ∧ (∀ gate ∈ (twoInputs .or).gates, gate.Holds (· ≠ "b")) ∧
      ∀ backend, ∃ compiled, compileCircuit backend (twoInputs .or) = .ok compiled ∧
        compiled.verify ((twoInputs .or).witnessValues (· ≠ "b"))
          ((twoInputs .or).publicValues (· ≠ "b")) ≠ .ok true := by
  refine ⟨by decide, by simp [twoInputs, GateDef.Holds], fun backend => ?_⟩
  obtain ⟨compiled, hcompiled, haccepts⟩ := @compileCircuit_ok (twoInputs .or)
    (by decide) backend (by simp [twoInputs, GateDef.WellFormed, CircuitDef.names])
  refine ⟨compiled, hcompiled, fun h => ?_⟩
  have hgate := (haccepts (· ≠ "b")).1 h ⟨.or, ["a", "b"], "c"⟩ (by simp [twoInputs])
  simp only [GateDef.Misread, Function.comp_apply] at hgate
  revert hgate
  decide

end NextgenDatabases.Semantic
