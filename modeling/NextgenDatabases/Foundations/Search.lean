import Mathlib.Logic.Relation
import Mathlib.Algebra.Order.BigOperators.Group.Finset
import Mathlib.Data.List.Chain

/-!
# Breadth-first search for a cycle

The queue holds paths that start at a fixed vertex, and the search returns the first one
that leads back to it. Each vertex is extended once, so the number of edges bounds the
number of paths that are taken from the queue. A search that is not cut short and finds
nothing has closed the set of vertices that it saw, and no cycle leads through the start. Paths are
taken in the order of their lengths, so what it returns is shortest.
-/
namespace NextgenDatabases.Foundations

variable {α : Type*} [DecidableEq α]

/-- Extend the paths of the queue until one leads back to `start`. -/
def cycleSearch (next : α → List α) (start : α) : ℕ → List (List α) → List α → Option (List α)
  | 0, _, _ => none
  | _, [], _ => none
  | fuel + 1, path :: queue, visited =>
    match path.getLast? with
    | none => cycleSearch next start fuel queue visited
    | some current =>
      if current = start then some path
      else if current ∈ visited then cycleSearch next start fuel queue visited
      else
        cycleSearch next start fuel (queue ++ (next current).map fun v => path ++ [v])
          (current :: visited)

/-- The edges that a search may still follow. -/
def remaining (next : α → List α) (start : α) (vertices : Finset α) (visited : List α) : ℕ :=
  ∑ u ∈ vertices with u ∉ visited ∧ u ≠ start, (next u).length

variable {next : α → List α} {start : α} {vertices : Finset α}

/-- Extending a vertex uses up its edges. -/
theorem remaining_visit (hvertices : ∀ u, next u ≠ [] → u ∈ vertices) {current : α}
    {visited : List α} (hstart : current ≠ start) (hnew : current ∉ visited) :
    (next current).length + remaining next start vertices (current :: visited) =
      remaining next start vertices visited := by
  have herase : (vertices.filter fun u => u ∉ current :: visited ∧ u ≠ start) =
      (vertices.filter fun u => u ∉ visited ∧ u ≠ start).erase current := by
    ext u
    simp only [Finset.mem_filter, Finset.mem_erase, List.mem_cons]
    tauto
  unfold remaining
  rw [herase]
  by_cases hmem : current ∈ vertices
  · exact Finset.add_sum_erase _ (fun u => (next u).length)
      (Finset.mem_filter.mpr ⟨hmem, hnew, hstart⟩)
  · have hnil : next current = [] := by
      by_contra hne
      exact hmem (hvertices current hne)
    rw [hnil, Finset.erase_eq_of_notMem fun h => hmem (Finset.mem_filter.mp h).1]
    exact Nat.zero_add _

/-- Each edge is followed once at most. -/
theorem length_add_remaining (hvertices : ∀ u, next u ≠ [] → u ∈ vertices) :
    (next start).length + remaining next start vertices [] = ∑ u ∈ vertices, (next u).length := by
  have herase : (vertices.filter fun u => u ∉ ([] : List α) ∧ u ≠ start) =
      vertices.erase start := by
    ext u
    simp only [Finset.mem_filter, Finset.mem_erase, List.not_mem_nil, not_false_eq_true,
      true_and]
    tauto
  rw [remaining, herase]
  by_cases hmem : start ∈ vertices
  · exact Finset.add_sum_erase _ (fun u => (next u).length) hmem
  · have hnil : next start = [] := by
      by_contra hne
      exact hmem (hvertices start hne)
    rw [hnil, Finset.erase_eq_of_notMem hmem]
    exact Nat.zero_add _

/-- A search with enough fuel that finds nothing has seen a set of vertices, without the
start, that no edge leaves. -/
theorem exists_closed_of_cycleSearch (hvertices : ∀ u, next u ≠ [] → u ∈ vertices) {fuel : ℕ} :
    ∀ {queue : List (List α)} {visited : List α},
      queue.length + remaining next start vertices visited < fuel →
      cycleSearch next start fuel queue visited = none →
      ∃ seen : Set α, (∀ u ∈ visited, u ∈ seen) ∧
        (∀ path ∈ queue, ∀ u, path.getLast? = some u → u ∈ seen) ∧
        ∀ u ∈ seen, u ∉ visited → u ≠ start ∧ ∀ v ∈ next u, v ∈ seen := by
  induction fuel with
  | zero =>
    intro queue visited hfuel
    exact absurd hfuel (Nat.not_lt_zero _)
  | succ fuel ih =>
    intro queue visited hfuel hnone
    cases queue with
    | nil =>
      refine ⟨{u | u ∈ visited}, fun u hu => hu, ?_, fun u hu hnew => absurd hu hnew⟩
      intro path hpath
      cases hpath
    | cons path queue =>
      rw [List.length_cons] at hfuel
      rw [cycleSearch] at hnone
      cases hlast : path.getLast? with
      | none =>
        rw [hlast] at hnone
        obtain ⟨seen, hvisited, hqueue, hclosed⟩ := ih (by omega) hnone
        refine ⟨seen, hvisited, ?_, hclosed⟩
        intro p hp u hu
        rcases List.mem_cons.mp hp with rfl | hp
        · rw [hlast] at hu
          cases hu
        · exact hqueue p hp u hu
      | some current =>
        rw [hlast] at hnone
        dsimp only at hnone
        split at hnone
        · cases hnone
        · next hstart =>
          split at hnone
          · next hold =>
            obtain ⟨seen, hvisited, hqueue, hclosed⟩ := ih (by omega) hnone
            refine ⟨seen, hvisited, ?_, hclosed⟩
            intro p hp u hu
            rcases List.mem_cons.mp hp with rfl | hp
            · rw [hlast] at hu
              cases hu
              exact hvisited current hold
            · exact hqueue p hp u hu
          · next hnew =>
            have hspent := remaining_visit hvertices hstart hnew
            have henough : (queue ++ (next current).map fun v => path ++ [v]).length +
                remaining next start vertices (current :: visited) < fuel := by
              rw [List.length_append, List.length_map]
              omega
            obtain ⟨seen, hvisited, hqueue, hclosed⟩ := ih henough hnone
            refine ⟨seen, fun u hu => hvisited u (List.mem_cons_of_mem _ hu), ?_, ?_⟩
            · intro p hp u hu
              rcases List.mem_cons.mp hp with rfl | hp
              · rw [hlast] at hu
                cases hu
                exact hvisited current List.mem_cons_self
              · exact hqueue p (List.mem_append_left _ hp) u hu
            · intro u hu hunew
              by_cases hcurrent : u = current
              · subst hcurrent
                refine ⟨hstart, fun v hv => ?_⟩
                refine hqueue (path ++ [v]) (List.mem_append_right _ ?_) v (by simp)
                exact List.mem_map.mpr ⟨v, hv, rfl⟩
              · exact hclosed u hu (by simp [hcurrent, hunew])

/-- If the search finds nothing, no cycle leads through the start. -/
theorem not_cyclic_of_cycleSearch (hvertices : ∀ u, next u ≠ [] → u ∈ vertices) {fuel : ℕ}
    (hfuel : ∑ u ∈ vertices, (next u).length < fuel)
    (hnone : cycleSearch next start fuel ((next start).map fun v => [start, v]) [] = none) :
    ¬ Relation.TransGen (fun u v => v ∈ next u) start start := by
  have henough : ((next start).map fun v => [start, v]).length +
      remaining next start vertices [] < fuel := by
    rw [List.length_map, length_add_remaining hvertices]
    exact hfuel
  obtain ⟨seen, -, hqueue, hclosed⟩ := exists_closed_of_cycleSearch hvertices henough hnone
  have hreach : ∀ v, Relation.TransGen (fun u v => v ∈ next u) start v → v ∈ seen := by
    intro v hv
    induction hv with
    | single hedge =>
      exact hqueue _ (List.mem_map.mpr ⟨_, hedge, rfl⟩) _ (by simp)
    | tail _ hedge ih => exact (hclosed _ ih List.not_mem_nil).2 _ hedge
  intro hcycle
  exact (hclosed start (hreach start hcycle) List.not_mem_nil).1 rfl

/-! ### What the search returns -/

/-- The search ends with this result, however many paths it takes from the queue. -/
inductive SearchEnds (next : α → List α) (start : α) :
    List (List α) → List α → Option (List α) → Prop
  | exhausted {visited : List α} : SearchEnds next start [] visited none
  | empty {path : List α} {queue : List (List α)} {visited : List α} {r : Option (List α)}
    (hlast : path.getLast? = none) (hrest : SearchEnds next start queue visited r) :
    SearchEnds next start (path :: queue) visited r
  | found {path : List α} {queue : List (List α)} {visited : List α}
    (hlast : path.getLast? = some start) :
    SearchEnds next start (path :: queue) visited (some path)
  | seen {path : List α} {queue : List (List α)} {visited : List α} {r : Option (List α)}
    {current : α} (hlast : path.getLast? = some current) (hstart : current ≠ start)
    (hold : current ∈ visited) (hrest : SearchEnds next start queue visited r) :
    SearchEnds next start (path :: queue) visited r
  | extend {path : List α} {queue : List (List α)} {visited : List α} {r : Option (List α)}
    {current : α} (hlast : path.getLast? = some current) (hstart : current ≠ start)
    (hnew : current ∉ visited)
    (hrest : SearchEnds next start (queue ++ (next current).map fun v => path ++ [v])
      (current :: visited) r) :
    SearchEnds next start (path :: queue) visited r

/-- Enough fuel is enough for the search to end. -/
theorem searchEnds_of_fuel (hvertices : ∀ u, next u ≠ [] → u ∈ vertices) {fuel : ℕ} :
    ∀ {queue : List (List α)} {visited : List α},
      queue.length + remaining next start vertices visited < fuel →
      SearchEnds next start queue visited (cycleSearch next start fuel queue visited) := by
  induction fuel with
  | zero =>
    intro queue visited hfuel
    exact absurd hfuel (Nat.not_lt_zero _)
  | succ fuel ih =>
    intro queue visited hfuel
    cases queue with
    | nil => exact .exhausted
    | cons path queue =>
      rw [List.length_cons] at hfuel
      rw [cycleSearch]
      cases hlast : path.getLast? with
      | none => exact .empty hlast (ih (by omega))
      | some current =>
        dsimp only
        split_ifs with hstart hold
        · exact .found (hstart ▸ hlast)
        · exact .seen hlast hstart hold (ih (by omega))
        · have hspent := remaining_visit hvertices hstart hold
          refine .extend hlast hstart hold (ih ?_)
          rw [List.length_append, List.length_map]
          omega

/-- A walk from the start back to it, with at least one edge. -/
structure ClosedWalk (next : α → List α) (start : α) (walk : List α) : Prop where
  nonempty : 2 ≤ walk.length
  head : walk.head? = some start
  last : walk.getLast? = some start
  chain : walk.IsChain fun u v => v ∈ next u

/-- The paths of the queue start at the start. -/
structure Path (next : α → List α) (start : α) (path : List α) : Prop where
  nonempty : 2 ≤ path.length
  head : path.head? = some start
  chain : path.IsChain fun u v => v ∈ next u

omit [DecidableEq α] in
theorem Path.extend {path : List α} {current v : α} (h : Path next start path)
    (hlast : path.getLast? = some current) (hv : v ∈ next current) :
    Path next start (path ++ [v]) where
  nonempty := by
    rw [List.length_append]
    exact Nat.le_add_right_of_le h.nonempty
  head := by
    rw [List.head?_append, h.head]
    rfl
  chain := by
    refine List.isChain_append.mpr ⟨h.chain, List.isChain_singleton v, ?_⟩
    rintro x hx y hy
    rw [hlast, Option.mem_some_iff] at hx
    obtain rfl : v = y := by simpa using hy
    exact hx ▸ hv

/-- The start is `m` edges away from the vertex, by vertices that the search has not visited. -/
inductive Ahead (next : α → List α) (start : α) (visited : List α) : ℕ → α → Prop
  | here : Ahead next start visited 0 start
  | edge {m : ℕ} {u v : α} (hstart : u ≠ start) (hnew : u ∉ visited) (hv : v ∈ next u)
    (hahead : Ahead next start visited m v) : Ahead next start visited (m + 1) u

omit [DecidableEq α] in
/-- After the last visit of a vertex the walk avoids it. -/
theorem Ahead.avoid {visited : List α} {m : ℕ} {u : α} (h : Ahead next start visited m u)
    (c : α) : Ahead next start (c :: visited) m u ∨
      ∃ m' v, v ∈ next c ∧ Ahead next start (c :: visited) m' v ∧ m' + 1 ≤ m := by
  induction h with
  | here => exact .inl .here
  | @edge m u v hstart hnew hv _ ih =>
    rcases ih with hleft | ⟨m', w, hw, hahead, hle⟩
    · by_cases hu : u = c
      · exact .inr ⟨m, v, hu ▸ hv, hleft, le_rfl⟩
      · exact .inl (.edge hstart (by simp [hu, hnew]) hv hleft)
    · exact .inr ⟨m', w, hw, hahead, by omega⟩

omit [DecidableEq α] in
theorem exists_ahead {walk : List α} : ∀ {u : α},
    (u :: walk).IsChain (fun u v => v ∈ next u) → (u :: walk).getLast? = some start →
    ∃ m, m ≤ walk.length ∧ Ahead next start [] m u := by
  induction walk with
  | nil =>
    intro u _ hlast
    obtain rfl : u = start := by simpa using hlast
    exact ⟨0, le_rfl, .here⟩
  | cons v walk ih =>
    intro u hchain hlast
    by_cases hu : u = start
    · exact ⟨0, Nat.zero_le _, hu ▸ .here⟩
    · obtain ⟨hv, hrest⟩ := List.isChain_cons_cons.mp hchain
      rw [List.getLast?_cons_cons] at hlast
      obtain ⟨m, hm, hahead⟩ := ih hrest hlast
      exact ⟨m + 1, Nat.succ_le_succ hm, .edge hu List.not_mem_nil hv hahead⟩

/-- The queue is sorted by length, its lengths differ by one at most, and a shortest way back leads
on from one of its paths. -/
structure Frontier (next : α → List α) (start : α) (queue : List (List α)) (visited : List α) :
    Prop where
  paths : ∀ path ∈ queue, Path next start path
  sorted : queue.Pairwise fun p q => p.length ≤ q.length ∧ q.length ≤ p.length + 1
  ahead : ∀ walk, ClosedWalk next start walk → ∃ path ∈ queue, ∃ u m, path.getLast? = some u ∧
    Ahead next start visited m u ∧ path.length + m ≤ walk.length

omit [DecidableEq α] in
theorem frontier_start : Frontier next start ((next start).map fun v => [start, v]) [] where
  paths := by
    intro path hpath
    obtain ⟨v, hv, rfl⟩ := List.mem_map.mp hpath
    exact ⟨le_rfl, rfl, List.isChain_pair.mpr hv⟩
  sorted := by
    rw [List.pairwise_map]
    exact List.pairwise_of_forall fun _ _ => ⟨le_rfl, Nat.le_succ _⟩
  ahead := by
    intro walk hwalk
    match walk, hwalk with
    | [], hwalk => exact absurd hwalk.nonempty (by simp)
    | [_], hwalk => exact absurd hwalk.nonempty (by simp)
    | u :: v :: walk, hwalk =>
      obtain rfl : u = start := by simpa using hwalk.head
      obtain ⟨hv, hrest⟩ := List.isChain_cons_cons.mp hwalk.chain
      have hlast := hwalk.last
      rw [List.getLast?_cons_cons] at hlast
      obtain ⟨m, hm, hahead⟩ := exists_ahead hrest hlast
      refine ⟨[u, v], List.mem_map.mpr ⟨v, hv, rfl⟩, v, m, rfl, hahead, ?_⟩
      simp only [List.length_cons, List.length_nil]
      omega

variable {path : List α} {queue : List (List α)} {visited : List α} {current : α}

omit [DecidableEq α] in
/-- A path whose end has been visited is not needed. -/
theorem Frontier.drop (h : Frontier next start (path :: queue) visited)
    (hpath : ∀ u m, path.getLast? = some u → ¬ Ahead next start visited m u) :
    Frontier next start queue visited where
  paths := fun p hp => h.paths p (List.mem_cons_of_mem _ hp)
  sorted := (List.pairwise_cons.mp h.sorted).2
  ahead := by
    intro walk hwalk
    obtain ⟨p, hp, u, m, hlast, hahead, hle⟩ := h.ahead walk hwalk
    rcases List.mem_cons.mp hp with rfl | hp
    · exact absurd hahead (hpath u m hlast)
    · exact ⟨p, hp, u, m, hlast, hahead, hle⟩

omit [DecidableEq α] in
theorem Frontier.extend (h : Frontier next start (path :: queue) visited)
    (hlast : path.getLast? = some current) (hstart : current ≠ start) :
    Frontier next start (queue ++ (next current).map fun v => path ++ [v]) (current :: visited) := by
  have hpath := h.paths path List.mem_cons_self
  obtain ⟨hfirst, hsorted⟩ := List.pairwise_cons.mp h.sorted
  refine ⟨?_, ?_, ?_⟩
  · intro p hp
    rcases List.mem_append.mp hp with hp | hp
    · exact h.paths p (List.mem_cons_of_mem _ hp)
    · obtain ⟨v, hv, rfl⟩ := List.mem_map.mp hp
      exact hpath.extend hlast hv
  · refine List.pairwise_append.mpr ⟨hsorted, ?_, ?_⟩
    · rw [List.pairwise_map]
      exact List.pairwise_of_forall fun _ _ => by simp
    · intro p hp q hq
      obtain ⟨v, -, rfl⟩ := List.mem_map.mp hq
      have hp := hfirst p hp
      simp only [List.length_append, List.length_singleton]
      omega
  · intro walk hwalk
    obtain ⟨p, hp, u, m, hplast, hahead, hle⟩ := h.ahead walk hwalk
    have hlen : path.length ≤ p.length := by
      rcases List.mem_cons.mp hp with rfl | hp
      · exact le_rfl
      · exact (hfirst p hp).1
    rcases hahead.avoid current with hkept | ⟨m', v, hv, hahead', hm⟩
    · rcases List.mem_cons.mp hp with rfl | hp
      · -- the way back from the path that is extended passes its end
        obtain rfl : u = current := by rw [hlast] at hplast; exact (Option.some.inj hplast).symm
        cases hkept with
        | here => exact absurd rfl hstart
        | edge _ hnew => exact absurd List.mem_cons_self hnew
      · exact ⟨p, List.mem_append_left _ hp, u, m, hplast, hkept, hle⟩
    · refine ⟨path ++ [v], List.mem_append_right _ (List.mem_map.mpr ⟨v, hv, rfl⟩), v, m',
        List.getLast?_concat, hahead', ?_⟩
      rw [List.length_append, List.length_singleton]
      omega

/-- A shortest closed walk, or none if there is none. -/
def Shortest (next : α → List α) (start : α) : Option (List α) → Prop
  | none => ∀ walk, ¬ ClosedWalk next start walk
  | some path => ClosedWalk next start path ∧
    ∀ walk, ClosedWalk next start walk → path.length ≤ walk.length

omit [DecidableEq α] in
theorem SearchEnds.shortest {r : Option (List α)} (hends : SearchEnds next start queue visited r)
    (h : Frontier next start queue visited) : Shortest next start r := by
  induction hends with
  | exhausted =>
    intro walk hwalk
    obtain ⟨p, hp, -⟩ := h.ahead walk hwalk
    cases hp
  | empty hlast _ ih =>
    refine ih (h.drop fun u m hu => ?_)
    rw [hlast] at hu
    cases hu
  | @found path queue visited hlast =>
    have hpath := h.paths path List.mem_cons_self
    refine ⟨⟨hpath.nonempty, hpath.head, hlast, hpath.chain⟩, fun walk hwalk => ?_⟩
    obtain ⟨p, hp, u, m, -, -, hle⟩ := h.ahead walk hwalk
    rcases List.mem_cons.mp hp with rfl | hp
    · exact (Nat.le_add_right _ _).trans hle
    · have hfirst := (List.pairwise_cons.mp h.sorted).1 p hp
      omega
  | seen hlast hstart hold _ ih =>
    refine ih (h.drop fun u m hu hahead => ?_)
    rw [hlast] at hu
    cases hu
    cases hahead with
    | here => exact hstart rfl
    | edge _ hnew => exact hnew hold
  | extend hlast hstart _ _ ih => exact ih (h.extend hlast hstart)

/-! ### Ways that do not come back -/

section Ways

variable {β : Type*} {r : β → β → Prop} {p q : β → Prop} {x y : β}

/-- A way from `x` to `y` with all its vertices in `p`. -/
def Within (r : β → β → Prop) (p : β → Prop) (x y : β) : Prop :=
  p x ∧ Relation.ReflTransGen (fun a b => r a b ∧ p b) x y

theorem Within.mono (hr : ∀ a b, r a b → p b → q b) (hx : q x) (h : Within r p x y) :
    Within r q x y := by
  have hedge : ∀ a b, r a b ∧ p b → r a b ∧ q b := fun a b hab => ⟨hab.1, hr a b hab.1 hab.2⟩
  exact ⟨hx, Relation.ReflTransGen.mono hedge _ _ h.2⟩

theorem Within.edge {z : β} (hxz : r x z) (hx : p x) (h : Within r p z y) : Within r p x y :=
  ⟨hx, .head ⟨hxz, h.1⟩ h.2⟩

/-- After its last visit to `x` a way does not come back there. -/
theorem Within.last_visit (h : Within r p x y) (a : β) (hne : a ≠ y) :
    Within r (fun b => p b ∧ b ≠ a) x y ∨ ∃ z, r a z ∧ Within r (fun b => p b ∧ b ≠ a) z y := by
  obtain ⟨hx, hway⟩ := h
  induction hway using Relation.ReflTransGen.head_induction_on with
  | refl => exact .inl ⟨⟨hx, hne.symm⟩, .refl⟩
  | @head b c hbc _ ih =>
    rcases ih hbc.2 with hrest | hlater
    · by_cases hb : b = a
      · exact .inr ⟨c, hb ▸ hbc.1, hrest⟩
      · exact .inl (hrest.edge hbc.1 ⟨hx, hb⟩)
    · exact .inr hlater

theorem Within.leave (h : Within r p x y) (hne : x ≠ y) :
    ∃ z, r x z ∧ Within r (fun b => p b ∧ b ≠ x) z y := by
  rcases h.last_visit x hne with hway | hlater
  · exact absurd rfl hway.1.2
  · exact hlater

end Ways

end NextgenDatabases.Foundations
