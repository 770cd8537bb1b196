import NextgenDatabases.Raft.Completeness

/-!
# Nodes against the history

What the state of a node says about the history, how each event at the node
changes it, and that the events of other nodes do not. A node of an
implementation is seen through its term, vote, role and log.
-/
namespace NextgenDatabases.Raft

open Termed (termOf)

inductive Standing where
  | follower
  | candidate
  | leader
deriving DecidableEq

/-- What the theory sees of a node. -/
structure View (N E : Type*) where
  id : N
  term : ℕ
  vote : Option N
  role : Standing
  log : List E

variable {N E : Type*}

namespace History

variable {h : History N E} {v : View N E}

/-- What the state of a node says about the history. A candidate whose log is no longer
the one it stood with has heard of the leader of its term. -/
structure Mirrors (h : History N E) (v : View N E) : Prop where
  term : h.term v.id = v.term
  log : h.log v.id = v.log
  vote : v.vote = (h.vote v.id v.term).map Prod.fst
  candidate : v.role = .candidate → ∃ l, h.vote v.id v.term = some (v.id, l) ∧
    (l = v.log ∨ ∃ x, h.leader v.term = some x)
  leader : v.role = .leader → h.leader v.term = some (v.id, v.log)
  leading : ∀ L, h.leader v.term = some (v.id, L) → v.role = .leader

variable [DecidableEq N]

/-! ### Events of other nodes -/

/-- An event concerns the node at which it happens. -/
theorem apply_frame {e : Event N E} {q : N} (hq : q ≠ e.actor) :
    (h.apply e).term q = h.term q ∧ (h.apply e).log q = h.log q ∧
      (h.apply e).vote q = h.vote q ∧ (h.apply e).ack q = h.ack q := by
  cases e with
  | adopt p t =>
    have hne : q ≠ p := hq
    simp [apply, Function.update_of_ne hne]
  | stand p =>
    have hne : q ≠ p := hq
    simp [apply, record, Function.update_of_ne hne]
  | grant p c =>
    have hne : q ≠ p := hq
    simp [apply, record, Function.update_of_ne hne]
  | elect c => simp [apply]
  | append c x =>
    have hne : q ≠ c := hq
    simp [apply, raise, Function.update_of_ne hne]
  | accept p l =>
    have hne : q ≠ p := hq
    simp [apply, raise, Function.update_of_ne hne]

variable [Termed E]

/-- Whether another node leads a term, and with which log, does not change. -/
theorem leader_frame {e : Event N E} (he : h.Allowed e) {q : N} (hq : q ≠ e.actor) {t : ℕ}
    {L : List E} : (h.apply e).leader t = some (q, L) ↔ h.leader t = some (q, L) := by
  cases e with
  | elect c =>
    have hne : q ≠ c := hq
    by_cases ht : t = h.term c
    · subst ht
      simp [apply, he.1, hne.symm]
    · simp [apply, Function.update_of_ne ht]
  | append c x =>
    have hne : q ≠ c := hq
    by_cases ht : t = h.term c
    · subst ht
      simp [apply, he.1, hne.symm]
    · simp [apply, Function.update_of_ne ht]
  | adopt p t => exact Iff.rfl
  | stand p => exact Iff.rfl
  | grant p c => exact Iff.rfl
  | accept p l => exact Iff.rfl

theorem Mirrors.frame (hc : Coherent h) (hv : Mirrors h v) {e : Event N E} (he : h.Allowed e)
    (hne : v.id ≠ e.actor) : Mirrors (h.apply e) v := by
  obtain ⟨hterm, hlog, hvote, -⟩ := apply_frame (h := h) hne
  exact {
    term := hterm.trans hv.term
    log := hlog.trans hv.log
    vote := by rw [hvote]; exact hv.vote
    candidate := fun hr => by
      rw [hvote]
      obtain ⟨l, hl, hlog⟩ := hv.candidate hr
      refine ⟨l, hl, hlog.imp id ?_⟩
      rintro ⟨⟨c, L⟩, hL⟩
      obtain ⟨r, hr, -⟩ := (extends_apply hc he).leader_grow hL
      exact ⟨_, hr⟩
    leader := fun hr => (leader_frame he hne).mpr (hv.leader hr)
    leading := fun L hL => hv.leading L ((leader_frame he hne).mp hL) }

/-! ### Events of the node -/

theorem Mirrors.adopt (hc : Coherent h) (hv : Mirrors h v) {t : ℕ} (ht : v.term < t) :
    h.Allowed (.adopt v.id t) ∧ Mirrors (h.apply (.adopt v.id t))
      { v with term := t, vote := none, role := .follower } := by
  have hlt : h.term v.id < t := hv.term ▸ ht
  constructor
  · exact hlt.le
  · exact {
      term := by simp [apply]
      log := hv.log
      vote := by
        cases hvote : h.vote v.id t with
        | none => simp [apply, hvote]
        | some x =>
          have := (hc.voted_term hvote).2
          omega
      candidate := by simp
      leader := by simp
      leading := fun L hL => by
        have hle : t ≤ h.term v.id := hc.leader_le (h := h) hL
        omega }

theorem Mirrors.stand (hc : Coherent h) (hv : Mirrors h v) :
    Mirrors (h.apply (.stand v.id))
      { v with term := v.term + 1, vote := some v.id, role := .candidate } := by
  have hvote : (h.apply (.stand v.id)).vote v.id (v.term + 1) = some (v.id, v.log) := by
    simp [apply, hv.term, hv.log]
  exact {
    term := by simp [apply, hv.term]
    log := hv.log
    vote := by simp [hvote]
    candidate := fun _ => ⟨v.log, hvote, Or.inl rfl⟩
    leader := by simp
    leading := fun L hL => by
      have hle : v.term + 1 ≤ h.term v.id := hc.leader_le (h := h) hL
      have := hv.term
      omega }

theorem Mirrors.grant (hv : Mirrors h v) {c : N} (hfree : v.vote = none)
    (hup : ∃ l, h.vote c v.term = some (c, l) ∧ UpToDate l v.log) :
    h.Allowed (.grant v.id c) ∧
      Mirrors (h.apply (.grant v.id c)) { v with vote := some c } := by
  have hnone : h.vote v.id v.term = none := by
    have := hv.vote
    rw [hfree] at this
    simpa using this.symm
  constructor
  · simp only [Allowed, hv.term, hv.log]
    exact ⟨hnone, hup⟩
  · exact { hv with
      vote := by simp [apply, hv.term]
      candidate := fun hr => by
        obtain ⟨l, hl, -⟩ := hv.candidate hr
        simp [hnone] at hl }

theorem Mirrors.append (hv : Mirrors h v) (hr : v.role = .leader) {e : E}
    (he : termOf e = v.term) :
    h.Allowed (.append v.id e) ∧
      Mirrors (h.apply (.append v.id e)) { v with log := v.log ++ [e] } := by
  have hlead : (h.apply (.append v.id e)).leader v.term = some (v.id, v.log ++ [e]) := by
    simp [apply, hv.term, hv.log]
  constructor
  · simp only [Allowed, hv.term, hv.log]
    exact ⟨hv.leader hr, he⟩
  · exact { hv with
      log := by simp [apply, hv.log]
      candidate := by simp [hr]
      leader := fun _ => hlead
      leading := fun _ _ => hr }

theorem Mirrors.elect (hv : Mirrors h v) (hr : v.role = .candidate)
    (hnone : h.leader v.term = none) :
    h.Allowed (.elect v.id) ∧ Mirrors (h.apply (.elect v.id)) { v with role := .leader } := by
  obtain ⟨l, hl, hlog⟩ := hv.candidate hr
  have hsame : l = v.log := by
    rcases hlog with hlog | ⟨x, hx⟩
    · exact hlog
    · simp [hnone] at hx
  have hlead : (h.apply (.elect v.id)).leader v.term = some (v.id, v.log) := by
    simp [apply, hv.term, hv.log]
  constructor
  · simp only [Allowed, hv.term, hv.log]
    exact ⟨hnone, hsame ▸ hl⟩
  · exact { hv with
      candidate := by simp
      leader := fun _ => hlead
      leading := fun _ _ => rfl }

theorem Mirrors.accept (hv : Mirrors h v) {c : N} {l L : List E}
    (hL : h.leader v.term = some (c, L)) (hne : v.id ≠ c) (hl : l <+: L) :
    h.Allowed (.accept v.id l) ∧ Mirrors (h.apply (.accept v.id l)) { v with log := l } := by
  constructor
  · exact ⟨c, L, hv.term ▸ hL, Ne.symm hne, hl⟩
  · exact { hv with
      log := by simp [apply]
      candidate := fun hr => by
        obtain ⟨m, hm, -⟩ := hv.candidate hr
        exact ⟨m, hm, Or.inr ⟨_, hL⟩⟩
      leader := fun hr => by
        have := hv.leader hr
        rw [hL, Option.some.injEq, Prod.mk.injEq] at this
        exact absurd this.1.symm hne }

omit [DecidableEq N] [Termed E] in
/-- A candidate that wins is the first leader of its term. -/
theorem Mirrors.sole {qs : Foundations.QuorumSystem N} (hv : Mirrors h v) (hel : h.Elected qs)
    (hr : v.role = .candidate) (hwon : h.Won qs v.term v.id) : h.leader v.term = none := by
  cases hL : h.leader v.term with
  | none => rfl
  | some x =>
    obtain ⟨c, L⟩ := x
    have hc : c = v.id := hel.unique hL hwon
    subst hc
    have := hv.leading L hL
    simp [hr] at this

/-! ### Requests cut from a log -/

/-- The entries are those of the log from position `i` on, and `t` is the term before them. -/
def Cut (X : List E) (i t : ℕ) (es : List E) : Prop :=
  es = X.drop i ∧ (0 < i → t = ((X[i - 1]?).map termOf).getD 0)

omit [DecidableEq N] in
/-- A backed log that has the term before the entries becomes the log they were cut from. -/
theorem Cut.take_append (hc : Coherent h) {l X es : List E} {i t : ℕ} (hl : h.Backed l)
    (hX : h.Backed X) (hcut : Cut X i t es)
    (hfit : 0 < i → ∃ e, l[i - 1]? = some e ∧ termOf e = t) : l.take i ++ es = X := by
  rcases Nat.eq_zero_or_pos i with h0 | hpos
  · simp [hcut.1, h0]
  · obtain ⟨e, he, hterm⟩ := hfit hpos
    rw [hcut.2 hpos] at hterm
    cases hf : X[i - 1]? with
    | none =>
      have hpos' := hc.term_pos hl he
      simp only [hf, Option.map_none, Option.getD_none] at hterm
      omega
    | some f =>
      simp only [hf, Option.map_some, Option.getD_some] at hterm
      have hmatch := hl.matching hX he hf hterm
      rw [Nat.sub_add_cancel hpos] at hmatch
      rw [hmatch, hcut.1, List.take_append_drop]

end History

/-- Entries that conflict with the log, or reach its end, cut nothing off. -/
theorem eq_of_take_append_isPrefix {l es : List E} {i : ℕ} (hle : i ≤ l.length)
    (hcut : es <+: l.drop i → l.length = i + es.length) (hpre : l.take i ++ es <+: l) :
    l.take i ++ es = l := by
  have hlen : (l.take i).length = i := List.length_take_of_le hle
  have hheld : es <+: l.drop i := by
    have := hpre.drop i
    rwa [List.drop_append_of_le_length hlen.ge, List.drop_of_length_le hlen.le,
      List.nil_append] at this
  apply hpre.eq_of_length
  rw [List.length_append, hlen, hcut hheld]

end NextgenDatabases.Raft
