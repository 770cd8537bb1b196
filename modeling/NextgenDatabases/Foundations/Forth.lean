import NextgenDatabases.Foundations.Bytes

/-!
# Forth words

Words over a data stack of 64-bit cells and byte-addressed memory. A word that finds too few
cells throws; what it has done to memory and to the world outside stays done.
-/
namespace NextgenDatabases.Foundations.Forth

abbrev Cell := BitVec 64

abbrev Memory := Cell → UInt8

structure Machine (ω : Type) where
  stack : List Cell
  mem : Memory
  world : ω

inductive Outcome (ω : Type)
  | done (m : Machine ω)
  | thrown (m : Machine ω)

def Outcome.machine {ω : Type} : Outcome ω → Machine ω
  | .done m => m
  | .thrown m => m

abbrev Word (ω : Type) := Machine ω → Outcome ω

/-! ### Memory -/

/-- The `n` bytes from an address on. -/
def Memory.fetch (mem : Memory) (addr : Cell) (n : ℕ) : Bytes :=
  (List.range n).map fun i => mem (addr + .ofNat 64 i)

def Memory.store (mem : Memory) (addr : Cell) (bs : Bytes) : Memory :=
  fun a => (bs[(a - addr).toNat]?).getD (mem a)

@[simp] theorem length_fetch (mem : Memory) (addr : Cell) (n : ℕ) :
    (mem.fetch addr n).length = n := by
  simp [Memory.fetch]

theorem getElem?_fetch (mem : Memory) (addr : Cell) {n i : ℕ} (h : i < n) :
    (mem.fetch addr n)[i]? = some (mem (addr + .ofNat 64 i)) := by
  simp [Memory.fetch, h]

theorem fetch_append (mem : Memory) (addr : Cell) (n k : ℕ) :
    mem.fetch addr (n + k) = mem.fetch addr n ++ mem.fetch (addr + .ofNat 64 n) k := by
  rw [Memory.fetch, List.range_add, List.map_append, List.map_map]
  congr 1
  apply List.map_congr_left
  intro i _
  rw [Function.comp_apply, BitVec.ofNat_add, BitVec.add_assoc]

/-- A part of a larger part of memory. -/
theorem fetch_slice (mem : Memory) (addr : Cell) {off k n : ℕ} (h : off + k ≤ n) :
    mem.fetch (addr + .ofNat 64 off) k = slice (mem.fetch addr n) off k := by
  apply List.ext_getElem?
  intro i
  rw [slice, List.getElem?_take]
  split_ifs with hi
  · rw [getElem?_fetch _ _ hi, List.getElem?_drop, getElem?_fetch _ _ (by omega),
      BitVec.add_assoc, ← BitVec.ofNat_add]
  · exact List.getElem?_eq_none (by simpa using hi)

/-- How far apart two addresses of a part of memory are. -/
theorem toNat_offset_sub (addr : Cell) {i off : ℕ} (hi : i < 2 ^ 64) (hoff : off < 2 ^ 64) :
    (addr + .ofNat 64 i - (addr + .ofNat 64 off)).toNat =
      if off ≤ i then i - off else 2 ^ 64 + i - off := by
  have haddr := addr.isLt
  rw [BitVec.toNat_sub, BitVec.toNat_add, BitVec.toNat_add, BitVec.toNat_ofNat,
    BitVec.toNat_ofNat, Nat.mod_eq_of_lt hi, Nat.mod_eq_of_lt hoff]
  split_ifs <;> omega

theorem fetch_congr {mem mem' : Memory} {addr : Cell} {n : ℕ}
    (h : ∀ i < n, mem (addr + .ofNat 64 i) = mem' (addr + .ofNat 64 i)) :
    mem.fetch addr n = mem'.fetch addr n := by
  apply List.map_congr_left
  intro i hi
  exact h i (List.mem_range.mp hi)

theorem fetch_store_same (mem : Memory) (addr : Cell) {bs : Bytes} {n : ℕ} (hn : bs.length = n)
    (h : n < 2 ^ 64) : (mem.store addr bs).fetch addr n = bs := by
  apply List.ext_getElem (by rw [length_fetch, hn])
  intro i hi hi'
  have hoff := @toNat_offset_sub addr i 0 (by omega) (by omega)
  have hzero : addr + BitVec.ofNat 64 0 = addr := BitVec.add_zero addr
  rw [hzero, if_pos (Nat.zero_le i), Nat.sub_zero] at hoff
  have hget : mem.store addr bs (addr + .ofNat 64 i) = bs[i] := by
    rw [Memory.store, hoff, List.getElem?_eq_getElem hi', Option.getD_some]
  simp only [Memory.fetch, List.getElem_map, List.getElem_range]
  exact hget

/-- A store leaves the other parts of a piece of memory alone. -/
theorem fetch_store_apart (mem : Memory) (base : Cell) {off o k : ℕ} {bs : Bytes}
    (h : o + k ≤ off ∨ off + bs.length ≤ o) (hoff : off < 2 ^ 64) (ho : o + k < 2 ^ 64)
    (hlen : o + k ≤ off → off + bs.length ≤ 2 ^ 64) :
    (mem.store (base + .ofNat 64 off) bs).fetch (base + .ofNat 64 o) k =
      mem.fetch (base + .ofNat 64 o) k := by
  apply fetch_congr
  intro i hi
  have hdist := @toNat_offset_sub base (o + i) off (by omega) hoff
  have hfar : bs.length ≤
      (base + .ofNat 64 o + .ofNat 64 i - (base + .ofNat 64 off)).toNat := by
    rw [BitVec.add_assoc, ← BitVec.ofNat_add, hdist]
    split_ifs <;> omega
  rw [Memory.store, List.getElem?_eq_none hfar, Option.getD_none]

/-- `len` bytes that lie outside the `n` bytes from `base` on. -/
def Outside (base : Cell) (n : ℕ) (addr : Cell) (len : ℕ) : Prop :=
  ∀ i < len, n ≤ (addr + .ofNat 64 i - base).toNat

theorem fetch_store_outside (mem : Memory) {base addr : Cell} {n len off : ℕ} {bs : Bytes}
    (h : Outside base n addr len) (hfit : off + bs.length ≤ n) :
    (mem.store (base + .ofNat 64 off) bs).fetch addr len = mem.fetch addr len := by
  apply fetch_congr
  intro i hi
  have hout := h i hi
  have hfar : bs.length ≤ (addr + .ofNat 64 i - (base + .ofNat 64 off)).toNat := by
    have hsub : addr + .ofNat 64 i - (base + .ofNat 64 off) =
        addr + .ofNat 64 i - base - .ofNat 64 off := by
      grind
    have hlt := (addr + .ofNat 64 i - base).isLt
    rw [hsub, BitVec.toNat_sub, BitVec.toNat_ofNat]
    omega
  rw [Memory.store, List.getElem?_eq_none hfar, Option.getD_none]

/-- Parts of the memory from `base` on, written one after another. -/
def Memory.storeAll (mem : Memory) (base : Cell) (ws : List (ℕ × Bytes)) : Memory :=
  ws.foldl (fun mem w => mem.store (base + .ofNat 64 w.1) w.2) mem

theorem storeAll_cons (mem : Memory) (base : Cell) (w : ℕ × Bytes) (ws : List (ℕ × Bytes)) :
    mem.storeAll base (w :: ws) = (mem.store (base + .ofNat 64 w.1) w.2).storeAll base ws := rfl

theorem storeAll_append (mem : Memory) (base : Cell) (ws ws' : List (ℕ × Bytes)) :
    mem.storeAll base (ws ++ ws') = (mem.storeAll base ws).storeAll base ws' := List.foldl_append

theorem fetch_storeAll_outside (mem : Memory) {base addr : Cell} {n len : ℕ}
    {ws : List (ℕ × Bytes)} (h : Outside base n addr len)
    (hws : ∀ w ∈ ws, w.1 + w.2.length ≤ n) :
    (mem.storeAll base ws).fetch addr len = mem.fetch addr len := by
  induction ws generalizing mem with
  | nil => rfl
  | cons w ws ih =>
    rw [storeAll_cons, ih _ fun w' hw' => hws w' (List.mem_cons_of_mem _ hw'),
      fetch_store_outside mem h (hws w List.mem_cons_self)]

theorem fetch_storeAll_apart (mem : Memory) (base : Cell) {n o k : ℕ} {ws : List (ℕ × Bytes)}
    (hn : n < 2 ^ 64) (ho : o + k ≤ n) (hws : ∀ w ∈ ws, w.1 + w.2.length ≤ n)
    (hapart : ∀ w ∈ ws, o + k ≤ w.1 ∨ w.1 + w.2.length ≤ o) :
    (mem.storeAll base ws).fetch (base + .ofNat 64 o) k = mem.fetch (base + .ofNat 64 o) k := by
  induction ws generalizing mem with
  | nil => rfl
  | cons w ws ih =>
    have hfit := hws w List.mem_cons_self
    rw [storeAll_cons, ih _ (fun w' hw' => hws w' (List.mem_cons_of_mem _ hw'))
        fun w' hw' => hapart w' (List.mem_cons_of_mem _ hw'),
      fetch_store_apart mem base (hapart w List.mem_cons_self) (by omega) (by omega)
        fun _ => by omega]

/-- The last write to a part of memory, the `i`-th of all, is what stands there. -/
theorem fetch_storeAll_last (mem : Memory) (base : Cell) {n o k i : ℕ} {bs : Bytes}
    {ws : List (ℕ × Bytes)} (hi : ws[i]? = some (o, bs)) (hk : bs.length = k) (hn : n < 2 ^ 64)
    (hws : ∀ w ∈ ws, w.1 + w.2.length ≤ n)
    (hapart : ∀ w ∈ ws.drop (i + 1), o + k ≤ w.1 ∨ w.1 + w.2.length ≤ o) :
    (mem.storeAll base ws).fetch (base + .ofNat 64 o) k = bs := by
  obtain ⟨hlt, hget⟩ := List.getElem?_eq_some_iff.mp hi
  have hsplit : ws = ws.take i ++ (o, bs) :: ws.drop (i + 1) := by
    rw [← hget, List.getElem_cons_drop, List.take_append_drop]
  have hfit := hws (o, bs) (List.mem_of_getElem? hi)
  have hlen : k < 2 ^ 64 := by
    dsimp only at hfit
    omega
  conv_lhs => rw [hsplit]
  rw [storeAll_append, storeAll_cons, fetch_storeAll_apart _ _ hn (hk ▸ hfit)
      (fun w hw => hws w (List.mem_of_mem_drop hw)) hapart, fetch_store_same _ _ hk hlen]

/-! ### Words -/

variable {ω : Type}

def Outcome.andThen : Outcome ω → Word ω → Outcome ω
  | .done m, word => word m
  | .thrown m, _ => .thrown m

/-- Words one after another. -/
def phrase : List (Word ω) → Word ω
  | [], m => .done m
  | word :: words, m => (word m).andThen (phrase words)

/-- A word that only moves cells. -/
def onStack (f : List Cell → Option (List Cell)) : Word ω := fun m =>
  match f m.stack with
  | some stack => .done { m with stack }
  | none => .thrown m

def push (x : Cell) : Word ω := onStack fun s => some (x :: s)

def dup : Word ω := onStack fun
  | x :: s => some (x :: x :: s)
  | _ => none

def drop : Word ω := onStack fun
  | _ :: s => some s
  | _ => none

def swap : Word ω := onStack fun
  | y :: x :: s => some (x :: y :: s)
  | _ => none

def over' : Word ω := onStack fun
  | y :: x :: s => some (x :: y :: x :: s)
  | _ => none

/-- A word of two operands, the second one on top. -/
def binary (f : Cell → Cell → Cell) : Word ω := onStack fun
  | y :: x :: s => some (f x y :: s)
  | _ => none

def flag (b : Bool) : Cell := if b then .allOnes 64 else 0

def isZero : Word ω := onStack fun
  | x :: s => some (flag (x == 0) :: s)
  | _ => none

/-- `0>` -/
def isPositive : Word ω := onStack fun
  | x :: s => some (flag (BitVec.slt 0 x) :: s)
  | _ => none

def add : Word ω := binary fun x y => x + y
def sub : Word ω := binary fun x y => x - y
def times : Word ω := binary fun x y => x * y
def and : Word ω := binary fun x y => x &&& y
def or : Word ω := binary fun x y => x ||| y
def xor : Word ω := binary fun x y => x ^^^ y
def rshift : Word ω := binary fun x y => x >>> y.toNat
def equals : Word ω := binary fun x y => flag (x == y)
def differs : Word ω := binary fun x y => flag (x != y)

/-- Cells compare as signed numbers. -/
def atMost : Word ω := binary fun x y => flag (x.sle y)
def greater : Word ω := binary fun x y => flag (y.slt x)

/-- `if`, which takes the flag. -/
def ifElse (yes no : Word ω) : Word ω := fun m =>
  match m.stack with
  | [] => .thrown m
  | c :: stack => if c = 0 then no { m with stack } else yes { m with stack }

/-- The words `c@`, `w@`, `l@` and `@`, least significant byte first. -/
def fetchBytes (n : ℕ) : Word ω := fun m =>
  match m.stack with
  | addr :: stack => .done { m with stack := .ofNat 64 (ofLe (m.mem.fetch addr n)) :: stack }
  | _ => .thrown m

/-- The words `w!`, `l!` and `!`. -/
def storeBytes (n : ℕ) : Word ω := fun m =>
  match m.stack with
  | addr :: x :: stack => .done { m with stack, mem := m.mem.store addr (toLe n x.toNat) }
  | _ => .thrown m

def fill : Word ω := fun m =>
  match m.stack with
  | b :: u :: addr :: stack =>
    .done { m with stack, mem := m.mem.store addr (List.replicate u.toNat (UInt8.ofNat b.toNat)) }
  | _ => .thrown m

def move : Word ω := fun m =>
  match m.stack with
  | u :: dest :: src :: stack =>
    .done { m with stack, mem := m.mem.store dest (m.mem.fetch src u.toNat) }
  | _ => .thrown m

/-- A variable of the dictionary. -/
structure Variable (ω : Type) where
  get : ω → Cell
  set : Cell → ω → ω

/-- `@` -/
def Variable.fetch (v : Variable ω) : Word ω := fun m => push (v.get m.world) m

/-- `!` -/
def Variable.store (v : Variable ω) : Word ω := fun m =>
  match m.stack with
  | x :: stack => .done { m with stack, world := v.set x m.world }
  | _ => .thrown m

/-- `+!` -/
def Variable.addTo (v : Variable ω) : Word ω := fun m =>
  match m.stack with
  | x :: stack => .done { m with stack, world := v.set (v.get m.world + x) m.world }
  | _ => .thrown m

/-- A word that uses a part of the world only. -/
def within {ω' : Type} (part : ω → ω') (put : ω' → ω → ω) (word : Word ω') : Word ω := fun m =>
  match word ⟨m.stack, m.mem, part m.world⟩ with
  | .done m' => .done ⟨m'.stack, m'.mem, put m'.world m.world⟩
  | .thrown m' => .thrown ⟨m'.stack, m'.mem, put m'.world m.world⟩

/-- `n` rounds of a loop, the index counting up. -/
def rounds (body : Cell → Word ω) : ℕ → Cell → Word ω
  | 0, _, m => .done m
  | n + 1, i, m => (body i m).andThen (rounds body n (i + 1))

/-- `?do`, which takes the limit and the first index. -/
def qDo (body : Cell → Word ω) : Word ω := fun m =>
  match m.stack with
  | start :: limit :: stack => rounds body (limit - start).toNat start { m with stack }
  | _ => .thrown m

/-- `do`, which goes all the way round when the limit is the first index. -/
def doLoop (body : Cell → Word ω) : Word ω := fun m =>
  match m.stack with
  | start :: limit :: stack =>
    rounds body (if limit = start then 2 ^ 64 else (limit - start).toNat) start { m with stack }
  | _ => .thrown m

/-! ### Running words -/

section

variable (x y z : Cell) (s : List Cell) (mem : Memory) (w : ω)

@[simp] theorem andThen_done (m : Machine ω) (word : Word ω) :
    (Outcome.done m).andThen word = word m := rfl

@[simp] theorem andThen_thrown (m : Machine ω) (word : Word ω) :
    (Outcome.thrown m).andThen word = .thrown m := rfl

@[simp] theorem phrase_nil (m : Machine ω) : phrase [] m = .done m := rfl

/-- Nothing comes after the last word. -/
@[simp] theorem andThen_nil (o : Outcome ω) : o.andThen (phrase []) = o := by
  cases o <;> rfl

@[simp] theorem phrase_cons (word : Word ω) (words : List (Word ω)) (m : Machine ω) :
    phrase (word :: words) m = (word m).andThen (phrase words) := rfl

@[simp] theorem push_run : push x ⟨s, mem, w⟩ = .done ⟨x :: s, mem, w⟩ := rfl

@[simp] theorem dup_run : dup ⟨x :: s, mem, w⟩ = .done ⟨x :: x :: s, mem, w⟩ := rfl

@[simp] theorem drop_run : drop ⟨x :: s, mem, w⟩ = .done ⟨s, mem, w⟩ := rfl

@[simp] theorem swap_run : swap ⟨y :: x :: s, mem, w⟩ = .done ⟨x :: y :: s, mem, w⟩ := rfl

@[simp] theorem over_run : over' ⟨y :: x :: s, mem, w⟩ = .done ⟨x :: y :: x :: s, mem, w⟩ := rfl

@[simp] theorem isZero_run : isZero ⟨x :: s, mem, w⟩ = .done ⟨flag (x == 0) :: s, mem, w⟩ := rfl

@[simp] theorem isPositive_run :
    isPositive ⟨x :: s, mem, w⟩ = .done ⟨flag (BitVec.slt 0 x) :: s, mem, w⟩ := rfl

@[simp] theorem add_run : add ⟨y :: x :: s, mem, w⟩ = .done ⟨(x + y) :: s, mem, w⟩ := rfl

@[simp] theorem sub_run : sub ⟨y :: x :: s, mem, w⟩ = .done ⟨(x - y) :: s, mem, w⟩ := rfl

@[simp] theorem and_run : and ⟨y :: x :: s, mem, w⟩ = .done ⟨(x &&& y) :: s, mem, w⟩ := rfl

@[simp] theorem or_run : or ⟨y :: x :: s, mem, w⟩ = .done ⟨(x ||| y) :: s, mem, w⟩ := rfl

@[simp] theorem xor_run : xor ⟨y :: x :: s, mem, w⟩ = .done ⟨(x ^^^ y) :: s, mem, w⟩ := rfl

@[simp] theorem rshift_run :
    rshift ⟨y :: x :: s, mem, w⟩ = .done ⟨(x >>> y.toNat) :: s, mem, w⟩ := rfl

@[simp] theorem equals_run :
    equals ⟨y :: x :: s, mem, w⟩ = .done ⟨flag (x == y) :: s, mem, w⟩ := rfl

@[simp] theorem differs_run :
    differs ⟨y :: x :: s, mem, w⟩ = .done ⟨flag (x != y) :: s, mem, w⟩ := rfl

@[simp] theorem atMost_run :
    atMost ⟨y :: x :: s, mem, w⟩ = .done ⟨flag (x.sle y) :: s, mem, w⟩ := rfl

@[simp] theorem greater_run :
    greater ⟨y :: x :: s, mem, w⟩ = .done ⟨flag (y.slt x) :: s, mem, w⟩ := rfl

@[simp] theorem fetchBytes_run (n : ℕ) : fetchBytes n ⟨x :: s, mem, w⟩ =
    .done ⟨.ofNat 64 (ofLe (mem.fetch x n)) :: s, mem, w⟩ := rfl

@[simp] theorem storeBytes_run (n : ℕ) : storeBytes n ⟨y :: x :: s, mem, w⟩ =
    .done ⟨s, mem.store y (toLe n x.toNat), w⟩ := rfl

@[simp] theorem fill_run : fill ⟨z :: y :: x :: s, mem, w⟩ =
    .done ⟨s, mem.store x (List.replicate y.toNat (UInt8.ofNat z.toNat)), w⟩ := rfl

@[simp] theorem move_run : move ⟨z :: y :: x :: s, mem, w⟩ =
    .done ⟨s, mem.store y (mem.fetch x z.toNat), w⟩ := rfl

@[simp] theorem variable_fetch_run (v : Variable ω) :
    v.fetch ⟨s, mem, w⟩ = .done ⟨v.get w :: s, mem, w⟩ := rfl

@[simp] theorem variable_store_run (v : Variable ω) :
    v.store ⟨x :: s, mem, w⟩ = .done ⟨s, mem, v.set x w⟩ := rfl

@[simp] theorem variable_addTo_run (v : Variable ω) :
    v.addTo ⟨x :: s, mem, w⟩ = .done ⟨s, mem, v.set (v.get w + x) w⟩ := rfl

theorem ifElse_cell (yes no : Word ω) :
    ifElse yes no ⟨x :: s, mem, w⟩ = if x = 0 then no ⟨s, mem, w⟩ else yes ⟨s, mem, w⟩ := rfl

@[simp] theorem flag_eq_zero (b : Bool) : flag b = 0 ↔ b = false := by
  cases b <;> decide

@[simp] theorem flag_or (a b : Bool) : flag a ||| flag b = flag (a || b) := by
  cases a <;> cases b <;> decide

@[simp] theorem ifElse_run (b : Bool) (yes no : Word ω) :
    ifElse yes no ⟨flag b :: s, mem, w⟩ = if b then yes ⟨s, mem, w⟩ else no ⟨s, mem, w⟩ := by
  cases b <;> rfl

end

theorem within_done {ω' : Type} {part : ω → ω'} {put : ω' → ω → ω} {word : Word ω'}
    {s s' : List Cell} {mem mem' : Memory} {w : ω} {w' : ω'}
    (h : word ⟨s, mem, part w⟩ = .done ⟨s', mem', w'⟩) :
    within part put word ⟨s, mem, w⟩ = .done ⟨s', mem', put w' w⟩ := by
  rw [within]
  simp only [h]

theorem doLoop_run (body : Cell → Word ω) {start limit : Cell} (s : List Cell) (mem : Memory)
    (w : ω) (h : limit ≠ start) : doLoop body ⟨start :: limit :: s, mem, w⟩ =
      rounds body (limit - start).toNat start ⟨s, mem, w⟩ := by
  change rounds body (if limit = start then 2 ^ 64 else (limit - start).toNat) start ⟨s, mem, w⟩ = _
  rw [if_neg h]

theorem qDo_run (body : Cell → Word ω) (start limit : Cell) (s : List Cell) (mem : Memory)
    (w : ω) : qDo body ⟨start :: limit :: s, mem, w⟩ =
      rounds body (limit - start).toNat start ⟨s, mem, w⟩ := rfl

/-- What every round keeps holds after the loop. -/
theorem rounds_done {body : Cell → Word ω} {n : ℕ} {i : Cell} {m : Machine ω}
    (P : ℕ → Machine ω → Prop) (h0 : P 0 m)
    (hstep : ∀ k < n, ∀ m, P k m → ∃ m', body (i + .ofNat 64 k) m = .done m' ∧ P (k + 1) m') :
    ∃ m', rounds body n i m = .done m' ∧ P n m' := by
  induction n generalizing i m P with
  | zero => exact ⟨m, rfl, h0⟩
  | succ n ih =>
    obtain ⟨m₁, hbody, h1⟩ := hstep 0 (by omega) m h0
    rw [BitVec.add_zero] at hbody
    have hnext := ih (i := i + 1) (fun k => P (k + 1)) h1 fun k hk m hm => by
      have hindex : i + 1 + BitVec.ofNat 64 k = i + BitVec.ofNat 64 (k + 1) := by
        rw [BitVec.ofNat_add, BitVec.add_assoc, BitVec.add_comm 1]
        rfl
      rw [hindex]
      exact hstep (k + 1) (by omega) m hm
    obtain ⟨m', hrun, hm'⟩ := hnext
    refine ⟨m', ?_, hm'⟩
    rw [rounds, hbody, andThen_done]
    exact hrun

end NextgenDatabases.Foundations.Forth
