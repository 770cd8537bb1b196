import NextgenDatabases.Raft.Log
import NextgenDatabases.Foundations.Runs
import Mathlib.Data.Finset.Basic
import Mathlib.Logic.Function.Basic

/-!
# The history of a replicated log

An abstract protocol in which nothing is ever forgotten: who voted for whom in
which term, the log of each term's leader, and how far each node has agreed with
that leader. Messages, timers and role changes of an implementation disappear;
what remains is what the safety arguments speak about.
-/
namespace NextgenDatabases.Raft

open Termed (termOf)

/-- Everything that has happened, per node and per term. -/
structure History (N E : Type*) where
  term : N → ℕ
  log : N → List E
  /-- `vote v t = some (c, l)`: in term `t` node `v`, holding log `l`, voted for `c`. -/
  vote : N → ℕ → Option (N × List E)
  /-- The leader of a term and the log it has built so far. -/
  leader : ℕ → Option (N × List E)
  /-- How far a node has agreed with the leader of a term. -/
  ack : N → ℕ → ℕ

variable {N E : Type*}

namespace History

section Static

variable [Termed E] {h : History N E}

/-! ### Logs backed by their leaders -/

/-- Every position of the log was written by the leader of its term, and up to
there the log is that leader's log. -/
def Backed (h : History N E) (l : List E) : Prop :=
  ∀ k e, l[k]? = some e → ∃ c L, h.leader (termOf e) = some (c, L) ∧ l.take (k + 1) <+: L

theorem backed_nil : h.Backed [] := by
  intro k e hk
  simp at hk

theorem Backed.of_isPrefix {l m : List E} (hm : h.Backed m) (hl : l <+: m) : h.Backed l := by
  intro k e hk
  obtain ⟨c, L, hL, hpre⟩ := hm k e (getElem?_of_isPrefix hl hk)
  exact ⟨c, L, hL, (hl.take (k + 1)).trans hpre⟩

theorem Backed.whole {l : List E} (hl : h.Backed l) (hne : l ≠ []) :
    ∃ c L, h.leader (lastTerm l) = some (c, L) ∧ l <+: L := by
  obtain ⟨e, he, hlast⟩ := exists_last hne
  obtain ⟨c, L, hL, hpre⟩ := hl _ e he
  refine ⟨c, L, hlast ▸ hL, ?_⟩
  have hlen : l.length - 1 + 1 = l.length := by
    have := List.length_pos_iff.mpr hne
    omega
  rwa [hlen, List.take_length] at hpre

/-- Log matching: two backed logs with the same term at one position agree up to
that position. -/
theorem Backed.matching {l m : List E} (hl : h.Backed l) (hm : h.Backed m) {k : ℕ} {e f : E}
    (he : l[k]? = some e) (hf : m[k]? = some f) (ht : termOf e = termOf f) :
    l.take (k + 1) = m.take (k + 1) := by
  obtain ⟨c, L, hL, hlL⟩ := hl k e he
  obtain ⟨c', L', hL', hmL⟩ := hm k f hf
  rw [ht, hL', Option.some.injEq, Prod.mk.injEq] at hL
  obtain ⟨rfl, rfl⟩ := hL
  exact take_eq_of_isPrefix hlL hmL (List.getElem?_eq_some_iff.mp he).1
    (List.getElem?_eq_some_iff.mp hf).1

/-! ### What an event leaves in place -/

/-- Terms only rise, votes and acknowledgements stay, and the leader of a term
only appends entries of that term. -/
structure Extends (h h' : History N E) : Prop where
  term_le : ∀ p, h.term p ≤ h'.term p
  vote_keep : ∀ {v t x}, h.vote v t = some x → h'.vote v t = some x
  leader_grow : ∀ {t c L}, h.leader t = some (c, L) →
    ∃ r, h'.leader t = some (c, L ++ r) ∧ ∀ e ∈ r, termOf e = t
  ack_le : ∀ p t, h.ack p t ≤ h'.ack p t

theorem Extends.refl (h : History N E) : Extends h h where
  term_le _ := le_rfl
  vote_keep hx := hx
  leader_grow hL := ⟨[], by simpa using hL, by simp⟩
  ack_le _ _ := le_rfl

theorem Extends.trans {h₁ h₂ h₃ : History N E} (a : Extends h₁ h₂) (b : Extends h₂ h₃) :
    Extends h₁ h₃ where
  term_le p := (a.term_le p).trans (b.term_le p)
  vote_keep hx := b.vote_keep (a.vote_keep hx)
  leader_grow hL := by
    obtain ⟨r, hr, hrt⟩ := a.leader_grow hL
    obtain ⟨s, hs, hst⟩ := b.leader_grow hr
    refine ⟨r ++ s, by rw [← List.append_assoc]; exact hs, fun e he => ?_⟩
    exact (List.mem_append.mp he).elim (hrt e) (hst e)
  ack_le p t := (a.ack_le p t).trans (b.ack_le p t)

theorem Backed.mono {h' : History N E} {l : List E} (hl : h.Backed l) (hx : Extends h h') :
    h'.Backed l := by
  intro k e hk
  obtain ⟨c, L, hL, hpre⟩ := hl k e hk
  obtain ⟨r, hr, -⟩ := hx.leader_grow hL
  exact ⟨c, L ++ r, hr, hpre.trans (List.prefix_append L r)⟩

/-! ### The coherence invariant -/

/-- What holds in every history, with no assumption on how leaders are elected. -/
structure Coherent (h : History N E) : Prop where
  voted_term : ∀ {v t x}, h.vote v t = some x → 1 ≤ t ∧ t ≤ h.term v
  voted_for : ∀ {v t c l}, h.vote v t = some (c, l) →
    ∃ l', h.vote c t = some (c, l') ∧ UpToDate l' l
  own_vote : ∀ {c t l}, h.vote c t = some (c, l) → ∀ e ∈ l, termOf e < t
  leader_vote : ∀ {t c L}, h.leader t = some (c, L) → ∃ l, h.vote c t = some (c, l) ∧ l <+: L
  leader_log : ∀ {c L}, h.leader (h.term c) = some (c, L) → h.log c = L
  leader_term : ∀ {t c L}, h.leader t = some (c, L) → ∀ e ∈ L, termOf e ≤ t
  log_term : ∀ {p e}, e ∈ h.log p → termOf e ≤ h.term p
  log_backed : ∀ p, h.Backed (h.log p)
  vote_backed : ∀ {v t c l}, h.vote v t = some (c, l) → h.Backed l
  leader_backed : ∀ {t c L}, h.leader t = some (c, L) → h.Backed L
  ack_leader : ∀ {p t}, 0 < h.ack p t →
    t ≤ h.term p ∧ ∃ c L, h.leader t = some (c, L) ∧ h.ack p t ≤ L.length

theorem Coherent.leader_pos (hc : Coherent h) {t : ℕ} {c : N} {L : List E}
    (hL : h.leader t = some (c, L)) : 1 ≤ t := by
  obtain ⟨l, hl, -⟩ := hc.leader_vote hL
  exact (hc.voted_term hl).1

theorem Coherent.leader_le (hc : Coherent h) {t : ℕ} {c : N} {L : List E}
    (hL : h.leader t = some (c, L)) : t ≤ h.term c := by
  obtain ⟨l, hl, -⟩ := hc.leader_vote hL
  exact (hc.voted_term hl).2

/-- Entries of a backed log have positive terms. -/
theorem Coherent.term_pos (hc : Coherent h) {l : List E} (hl : h.Backed l) {k : ℕ} {e : E}
    (hk : l[k]? = some e) : 1 ≤ termOf e := by
  obtain ⟨c, L, hL, -⟩ := hl k e hk
  exact hc.leader_pos hL

/-- Terms never decrease along a backed log. -/
theorem Coherent.sorted (hc : Coherent h) {l : List E} (hl : h.Backed l) {i k : ℕ} {e f : E}
    (hi : l[i]? = some e) (hk : l[k]? = some f) (hik : i ≤ k) : termOf e ≤ termOf f := by
  obtain ⟨c, L, hL, hpre⟩ := hl k f hk
  have hmem : e ∈ l.take (k + 1) := by
    refine List.mem_of_getElem? (i := i) ?_
    rw [List.getElem?_take, if_pos (by omega), hi]
  exact hc.leader_term hL e (hpre.mem hmem)

theorem Coherent.vote_next (hc : Coherent h) (p : N) : h.vote p (h.term p + 1) = none := by
  cases hv : h.vote p (h.term p + 1) with
  | none => rfl
  | some x =>
    have := (hc.voted_term hv).2
    omega

end Static

section Dynamic

variable [DecidableEq N]

def record (h : History N E) (v : N) (t : ℕ) (x : N × List E) : N → ℕ → Option (N × List E) :=
  Function.update h.vote v (Function.update (h.vote v) t (some x))

def raise (h : History N E) (p : N) (t n : ℕ) : N → ℕ → ℕ :=
  Function.update h.ack p (Function.update (h.ack p) t (max (h.ack p t) n))

end Dynamic

end History

inductive Event (N E : Type*) where
  | adopt (p : N) (t : ℕ)
  | stand (p : N)
  | grant (v c : N)
  | elect (c : N)
  | append (c : N) (e : E)
  | accept (p : N) (l : List E)

/-- The node at which an event happens. -/
def Event.actor : Event N E → N
  | .adopt p _ | .stand p | .grant p _ | .elect p | .append p _ | .accept p _ => p

namespace History

variable [DecidableEq N]

def apply (h : History N E) : Event N E → History N E
  | .adopt p t => { h with term := Function.update h.term p t }
  | .stand p => { h with
      term := Function.update h.term p (h.term p + 1)
      vote := h.record p (h.term p + 1) (p, h.log p) }
  | .grant v c => { h with vote := h.record v (h.term v) (c, h.log v) }
  | .elect c => { h with leader := Function.update h.leader (h.term c) (some (c, h.log c)) }
  | .append c e => { h with
      log := Function.update h.log c (h.log c ++ [e])
      leader := Function.update h.leader (h.term c) (some (c, h.log c ++ [e]))
      ack := h.raise c (h.term c) (h.log c ++ [e]).length }
  | .accept p l => { h with
      log := Function.update h.log p l
      ack := h.raise p (h.term p) l.length }

/-- What every event requires, whatever the voters and the network did. -/
def Allowed [Termed E] (h : History N E) : Event N E → Prop
  | .adopt p t => h.term p ≤ t
  | .stand _ => True
  | .grant v c => h.vote v (h.term v) = none ∧
      ∃ l, h.vote c (h.term v) = some (c, l) ∧ UpToDate l (h.log v)
  | .elect c => h.leader (h.term c) = none ∧ h.vote c (h.term c) = some (c, h.log c)
  | .append c e => h.leader (h.term c) = some (c, h.log c) ∧ termOf e = h.term c
  | .accept p l => ∃ c L, h.leader (h.term p) = some (c, L) ∧ c ≠ p ∧ l <+: L

variable {h : History N E}

@[simp] theorem record_self (v : N) (t : ℕ) (x : N × List E) : h.record v t x v t = some x := by
  simp [record]

theorem record_cases {v w : N} {t u : ℕ} {x y : N × List E}
    (hr : h.record v t x w u = some y) : (w = v ∧ u = t ∧ y = x) ∨ h.vote w u = some y := by
  unfold record at hr
  by_cases hw : w = v
  · subst hw
    by_cases hu : u = t
    · subst hu
      simp only [Function.update_self, Option.some.injEq] at hr
      exact Or.inl ⟨rfl, rfl, hr.symm⟩
    · simp only [Function.update_self, Function.update_of_ne hu] at hr
      exact Or.inr hr
  · rw [Function.update_of_ne hw] at hr
    exact Or.inr hr

theorem record_old {v w : N} {t u : ℕ} {x y : N × List E} (hnone : h.vote v t = none)
    (hy : h.vote w u = some y) : h.record v t x w u = some y := by
  unfold record
  by_cases hw : w = v
  · subst hw
    have hu : u ≠ t := by
      rintro rfl
      simp [hnone] at hy
    simpa [Function.update_of_ne hu] using hy
  · simpa [Function.update_of_ne hw] using hy

@[simp] theorem raise_self (p : N) (t n : ℕ) : h.raise p t n p t = max (h.ack p t) n := by
  simp [raise]

theorem raise_of_ne {p q : N} {t u n : ℕ} (hne : ¬ (q = p ∧ u = t)) :
    h.raise p t n q u = h.ack q u := by
  unfold raise
  by_cases hq : q = p
  · subst hq
    simp [Function.update_of_ne fun hu : u = t => hne ⟨rfl, hu⟩]
  · rw [Function.update_of_ne hq]

theorem ack_le_raise (p q : N) (t u n : ℕ) : h.ack q u ≤ h.raise p t n q u := by
  by_cases hq : q = p ∧ u = t
  · obtain ⟨rfl, rfl⟩ := hq
    simp
  · rw [raise_of_ne hq]

variable [Termed E]

theorem extends_apply (hc : Coherent h) {e : Event N E} (he : h.Allowed e) :
    Extends h (h.apply e) := by
  have keep := Extends.refl h
  cases e with
  | adopt p t =>
    refine { keep with term_le := fun q => ?_ }
    by_cases hq : q = p
    · subst hq
      have hle : h.term q ≤ t := he
      simpa [apply] using hle
    · simp [apply, Function.update_of_ne hq]
  | stand p =>
    refine { keep with term_le := fun q => ?_, vote_keep := record_old (hc.vote_next p) }
    by_cases hq : q = p
    · subst hq
      simp [apply]
    · simp [apply, Function.update_of_ne hq]
  | grant v c => exact { keep with vote_keep := record_old he.1 }
  | elect c =>
    refine { keep with leader_grow := fun {t d L} hL => ?_ }
    have ht : t ≠ h.term c := by
      rintro rfl
      simp [he.1] at hL
    exact ⟨[], by simpa [apply, Function.update_of_ne ht] using hL, by simp⟩
  | append c e =>
    refine { keep with
      leader_grow := fun {t d L} hL => ?_, ack_le := fun p t => ack_le_raise _ _ _ _ _ }
    by_cases ht : t = h.term c
    · subst ht
      rw [he.1, Option.some.injEq, Prod.mk.injEq] at hL
      obtain ⟨rfl, rfl⟩ := hL
      exact ⟨[e], by simp [apply], by simpa using he.2⟩
    · exact ⟨[], by simpa [apply, Function.update_of_ne ht] using hL, by simp⟩
  | accept p l => exact { keep with ack_le := fun q t => ack_le_raise _ _ _ _ _ }

/-! ### Each event keeps the history coherent -/

theorem coherent_adopt (hc : Coherent h) {p : N} {t : ℕ} (he : h.Allowed (.adopt p t)) :
    Coherent (h.apply (.adopt p t)) := by
  have hx := extends_apply hc he
  exact { hc with
    voted_term := fun hv => ⟨(hc.voted_term hv).1, (hc.voted_term hv).2.trans (hx.term_le _)⟩
    leader_log := fun {c L} hL => by
      by_cases hcp : c = p
      · subst hcp
        simp only [apply, Function.update_self] at hL
        have hle : t ≤ h.term c := hc.leader_le hL
        have heq : h.term c = t := le_antisymm he hle
        exact hc.leader_log (heq ▸ hL)
      · simp only [apply, Function.update_of_ne hcp] at hL
        exact hc.leader_log hL
    log_term := fun hmem => (hc.log_term hmem).trans (hx.term_le _)
    ack_leader := fun hpos => ⟨(hc.ack_leader hpos).1.trans (hx.term_le _), (hc.ack_leader hpos).2⟩ }

theorem coherent_stand (hc : Coherent h) (p : N) : Coherent (h.apply (.stand p)) := by
  have hx := extends_apply (e := .stand p) hc trivial
  exact { hc with
    voted_term := fun {v t x} hv => by
      rcases record_cases hv with ⟨rfl, rfl, rfl⟩ | hv
      · simp [apply]
      · exact ⟨(hc.voted_term hv).1, (hc.voted_term hv).2.trans (hx.term_le _)⟩
    voted_for := fun {v t c l} hv => by
      rcases record_cases hv with ⟨rfl, rfl, hcl⟩ | hv
      · cases hcl
        exact ⟨h.log v, record_self _ _ _, UpToDate.refl _⟩
      · obtain ⟨l', hl', hup⟩ := hc.voted_for hv
        exact ⟨l', hx.vote_keep hl', hup⟩
    own_vote := fun {c t l} hv => by
      rcases record_cases hv with ⟨rfl, rfl, hcl⟩ | hv
      · cases hcl
        intro e he
        exact Nat.lt_succ_of_le (hc.log_term he)
      · exact hc.own_vote hv
    leader_vote := fun hL => by
      obtain ⟨l, hl, hpre⟩ := hc.leader_vote hL
      exact ⟨l, hx.vote_keep hl, hpre⟩
    leader_log := fun {c L} hL => by
      by_cases hcp : c = p
      · subst hcp
        simp only [apply, Function.update_self] at hL
        have := hc.leader_le hL
        omega
      · simp only [apply, Function.update_of_ne hcp] at hL
        exact hc.leader_log hL
    log_term := fun hmem => (hc.log_term hmem).trans (hx.term_le _)
    vote_backed := fun {v t c l} hv => by
      rcases record_cases hv with ⟨rfl, rfl, hcl⟩ | hv
      · cases hcl
        exact hc.log_backed v
      · exact hc.vote_backed hv
    ack_leader := fun hpos => ⟨(hc.ack_leader hpos).1.trans (hx.term_le _), (hc.ack_leader hpos).2⟩ }

theorem coherent_grant (hc : Coherent h) {v c : N} (he : h.Allowed (.grant v c)) :
    Coherent (h.apply (.grant v c)) := by
  have hx := extends_apply hc he
  obtain ⟨hnone, l₀, hl₀, hup₀⟩ := he
  exact { hc with
    voted_term := fun {w t x} hv => by
      rcases record_cases hv with ⟨rfl, rfl, rfl⟩ | hv
      · exact ⟨(hc.voted_term hl₀).1, le_rfl⟩
      · exact hc.voted_term hv
    voted_for := fun {w t d l} hv => by
      rcases record_cases hv with ⟨rfl, rfl, hcl⟩ | hv
      · cases hcl
        exact ⟨l₀, hx.vote_keep hl₀, hup₀⟩
      · obtain ⟨l', hl', hup⟩ := hc.voted_for hv
        exact ⟨l', hx.vote_keep hl', hup⟩
    own_vote := fun {d t l} hv => by
      rcases record_cases hv with ⟨rfl, rfl, hcl⟩ | hv
      · cases hcl
        simp [hnone] at hl₀
      · exact hc.own_vote hv
    leader_vote := fun hL => by
      obtain ⟨l, hl, hpre⟩ := hc.leader_vote hL
      exact ⟨l, hx.vote_keep hl, hpre⟩
    vote_backed := fun {w t d l} hv => by
      rcases record_cases hv with ⟨rfl, rfl, hcl⟩ | hv
      · cases hcl
        exact hc.log_backed w
      · exact hc.vote_backed hv }

theorem coherent_elect (hc : Coherent h) {c : N} (he : h.Allowed (.elect c)) :
    Coherent (h.apply (.elect c)) := by
  have hx := extends_apply hc he
  have hleader : ∀ {t d L}, (h.apply (.elect c)).leader t = some (d, L) →
      (t = h.term c ∧ d = c ∧ L = h.log c) ∨ h.leader t = some (d, L) := by
    intro t d L hL
    by_cases ht : t = h.term c
    · subst ht
      simp only [apply, Function.update_self, Option.some.injEq, Prod.mk.injEq] at hL
      exact Or.inl ⟨rfl, hL.1.symm, hL.2.symm⟩
    · simp only [apply, Function.update_of_ne ht] at hL
      exact Or.inr hL
  exact { hc with
    leader_vote := fun hL => by
      rcases hleader hL with ⟨rfl, rfl, rfl⟩ | hL
      · exact ⟨_, he.2, List.prefix_rfl⟩
      · exact hc.leader_vote hL
    leader_log := fun {d L} hL => by
      rcases hleader hL with ⟨-, rfl, rfl⟩ | hL
      · rfl
      · exact hc.leader_log hL
    leader_term := fun hL => by
      rcases hleader hL with ⟨rfl, rfl, rfl⟩ | hL
      · exact fun e he => hc.log_term he
      · exact hc.leader_term hL
    log_backed := fun p => (hc.log_backed p).mono hx
    vote_backed := fun hv => (hc.vote_backed hv).mono hx
    leader_backed := fun hL => by
      rcases hleader hL with ⟨rfl, rfl, rfl⟩ | hL
      · exact (hc.log_backed _).mono hx
      · exact (hc.leader_backed hL).mono hx
    ack_leader := fun hpos => by
      obtain ⟨hle, d, L, hL, hlen⟩ := hc.ack_leader hpos
      obtain ⟨r, hr, -⟩ := hx.leader_grow hL
      exact ⟨hle, d, L ++ r, hr, hlen.trans (by simp)⟩ }

theorem coherent_append (hc : Coherent h) {c : N} {e : E} (he : h.Allowed (.append c e)) :
    Coherent (h.apply (.append c e)) := by
  have hx := extends_apply hc he
  obtain ⟨hlead, hterm⟩ := he
  have hleader : ∀ {t d L}, (h.apply (.append c e)).leader t = some (d, L) →
      (t = h.term c ∧ d = c ∧ L = h.log c ++ [e]) ∨ (t ≠ h.term c ∧ h.leader t = some (d, L)) := by
    intro t d L hL
    by_cases ht : t = h.term c
    · subst ht
      simp only [apply, Function.update_self, Option.some.injEq, Prod.mk.injEq] at hL
      exact Or.inl ⟨rfl, hL.1.symm, hL.2.symm⟩
    · simp only [apply, Function.update_of_ne ht] at hL
      exact Or.inr ⟨ht, hL⟩
  have hnew : ∀ f ∈ h.log c ++ [e], termOf f ≤ h.term c := by
    intro f hf
    rcases List.mem_append.mp hf with hf | hf
    · exact hc.log_term hf
    · rw [List.mem_singleton.mp hf, hterm]
  have hbacked : (h.apply (.append c e)).Backed (h.log c ++ [e]) := by
    intro k f hk
    by_cases hlt : k < (h.log c).length
    · rw [List.getElem?_append_left hlt] at hk
      rw [List.take_append_of_le_length hlt]
      exact ((hc.log_backed c).mono hx) k f hk
    · have hkf : k = (h.log c).length ∧ f = e := by
        have hk' := (List.getElem?_eq_some_iff.mp hk).1
        simp only [List.length_append, List.length_singleton] at hk'
        have hkeq : k = (h.log c).length := by omega
        subst hkeq
        simpa using hk.symm
      obtain ⟨rfl, rfl⟩ := hkf
      exact ⟨c, h.log c ++ [f], by simp [apply, hterm], List.take_prefix _ _⟩
  exact { hc with
    leader_vote := fun hL => by
      rcases hleader hL with ⟨rfl, rfl, rfl⟩ | ⟨-, hL⟩
      · obtain ⟨l, hl, hpre⟩ := hc.leader_vote hlead
        exact ⟨l, hl, hpre.trans (List.prefix_append _ _)⟩
      · exact hc.leader_vote hL
    leader_log := fun {d L} hL => by
      rcases hleader hL with ⟨-, rfl, rfl⟩ | ⟨ht, hL⟩
      · simp [apply]
      · have hdc : d ≠ c := fun heq => ht (congrArg h.term heq)
        simpa [apply, Function.update_of_ne hdc] using hc.leader_log hL
    leader_term := fun hL => by
      rcases hleader hL with ⟨rfl, rfl, rfl⟩ | ⟨-, hL⟩
      · exact hnew
      · exact hc.leader_term hL
    log_term := fun {p f} hmem => by
      by_cases hp : p = c
      · subst hp
        simp only [apply, Function.update_self] at hmem
        exact hnew f hmem
      · simp only [apply, Function.update_of_ne hp] at hmem
        exact hc.log_term hmem
    log_backed := fun p => by
      by_cases hp : p = c
      · subst hp
        simpa [apply] using hbacked
      · have hb := (hc.log_backed p).mono hx
        simpa [apply, Function.update_of_ne hp] using hb
    vote_backed := fun hv => (hc.vote_backed hv).mono hx
    leader_backed := fun hL => by
      rcases hleader hL with ⟨rfl, rfl, rfl⟩ | ⟨-, hL⟩
      · exact hbacked
      · exact (hc.leader_backed hL).mono hx
    ack_leader := fun {p t} hpos => by
      by_cases hpt : p = c ∧ t = h.term c
      · obtain ⟨rfl, rfl⟩ := hpt
        refine ⟨le_rfl, p, h.log p ++ [e], by simp [apply], ?_⟩
        have hold : h.ack p (h.term p) ≤ (h.log p).length := by
          rcases Nat.eq_zero_or_pos (h.ack p (h.term p)) with h0 | h0
          · omega
          · obtain ⟨-, d, L, hL, hlen⟩ := hc.ack_leader h0
            rw [hlead, Option.some.injEq, Prod.mk.injEq] at hL
            rwa [← hL.2] at hlen
        simp only [apply, raise_self, List.length_append, List.length_singleton]
        omega
      · simp only [apply, raise_of_ne hpt] at hpos ⊢
        obtain ⟨hle, d, L, hL, hlen⟩ := hc.ack_leader hpos
        obtain ⟨r, hr, -⟩ := hx.leader_grow hL
        exact ⟨hle, d, L ++ r, hr, hlen.trans (by simp)⟩ }

theorem coherent_accept (hc : Coherent h) {p : N} {l : List E} (he : h.Allowed (.accept p l)) :
    Coherent (h.apply (.accept p l)) := by
  obtain ⟨c, L, hL, hcp, hpre⟩ := he
  exact { hc with
    leader_log := fun {d M} hM => by
      have hdp : d ≠ p := by
        rintro rfl
        simp only [apply] at hM
        rw [hL, Option.some.injEq, Prod.mk.injEq] at hM
        exact hcp hM.1
      simpa [apply, Function.update_of_ne hdp] using hc.leader_log hM
    log_term := fun {q f} hmem => by
      by_cases hq : q = p
      · subst hq
        simp only [apply, Function.update_self] at hmem
        exact hc.leader_term hL f (hpre.mem hmem)
      · simp only [apply, Function.update_of_ne hq] at hmem
        exact hc.log_term hmem
    log_backed := fun q => by
      by_cases hq : q = p
      · subst hq
        simp only [apply, Function.update_self]
        exact (hc.leader_backed hL).of_isPrefix hpre
      · simp only [apply, Function.update_of_ne hq]
        exact hc.log_backed q
    ack_leader := fun {q t} hpos => by
      by_cases hqt : q = p ∧ t = h.term p
      · obtain ⟨rfl, rfl⟩ := hqt
        refine ⟨le_rfl, c, L, hL, ?_⟩
        have hold : h.ack q (h.term q) ≤ L.length := by
          rcases Nat.eq_zero_or_pos (h.ack q (h.term q)) with h0 | h0
          · omega
          · obtain ⟨-, d, M, hM, hlen⟩ := hc.ack_leader h0
            rw [hL, Option.some.injEq, Prod.mk.injEq] at hM
            rwa [← hM.2] at hlen
        have := hpre.length_le
        simp only [apply, raise_self]
        omega
      · simp only [apply, raise_of_ne hqt] at hpos ⊢
        exact hc.ack_leader hpos }

theorem coherent_apply (hc : Coherent h) {e : Event N E} (he : h.Allowed e) :
    Coherent (h.apply e) := by
  cases e with
  | adopt p t => exact coherent_adopt hc he
  | stand p => exact coherent_stand hc p
  | grant v c => exact coherent_grant hc he
  | elect c => exact coherent_elect hc he
  | append c e => exact coherent_append hc he
  | accept p l => exact coherent_accept hc he

/-! ### Sequences of events -/

def applyAll (h : History N E) (es : List (Event N E)) : History N E := es.foldl apply h

omit [Termed E] in
@[simp] theorem applyAll_nil : h.applyAll [] = h := rfl

omit [Termed E] in
@[simp] theorem applyAll_cons (e : Event N E) (es : List (Event N E)) :
    h.applyAll (e :: es) = (h.apply e).applyAll es := rfl

omit [Termed E] in
theorem applyAll_append (es fs : List (Event N E)) :
    h.applyAll (es ++ fs) = (h.applyAll es).applyAll fs :=
  List.foldl_append

/-- Each event of the sequence meets the condition when its turn comes. -/
def Admits (ok : History N E → Event N E → Prop) : History N E → List (Event N E) → Prop
  | _, [] => True
  | h, e :: es => ok h e ∧ Admits ok (h.apply e) es

omit [Termed E] in
theorem Admits.append {ok : History N E → Event N E → Prop} {es fs : List (Event N E)} :
    ∀ {h : History N E}, Admits ok h es → Admits ok (h.applyAll es) fs → Admits ok h (es ++ fs) := by
  induction es with
  | nil => exact fun _ hfs => hfs
  | cons e es ih => exact fun hes hfs => ⟨hes.1, ih hes.2 hfs⟩

omit [Termed E] in
/-- What every admitted event preserves holds after the sequence. -/
theorem Admits.invariant {ok : History N E → Event N E → Prop} {I : History N E → Prop}
    (hstep : ∀ h e, I h → ok h e → I (h.apply e)) {es : List (Event N E)} :
    ∀ {h : History N E}, Admits ok h es → I h → I (h.applyAll es) := by
  induction es with
  | nil => exact fun _ hi => hi
  | cons e es ih => exact fun hes hi => ih hes.2 (hstep _ e hi hes.1)

end History

end NextgenDatabases.Raft
