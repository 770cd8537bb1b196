import NextgenDatabases.Raft.Election

/-!
# Leader completeness

A prefix that a quorum has acknowledged to the leader of a term is part of the
log of every later leader, provided no node drops entries it shares with the
leader it listens to. From this follows that the committed prefixes of all nodes
are prefixes of one another.
-/
namespace NextgenDatabases.Raft

open Foundations Termed

variable {N E : Type*} [Termed E]

namespace History

variable (qs : QuorumSystem N) {h : History N E}

/-- `P` is a part of the log of the leader of term `t` that ends in an entry of
that term. -/
def Created (h : History N E) (t : ℕ) (P : List E) : Prop :=
  P ≠ [] ∧ lastTerm P = t ∧ ∃ c L, h.leader t = some (c, L) ∧ P <+: L

/-- The leader of term `u` does not have `P`. -/
def Lost (h : History N E) (u : ℕ) (P : List E) : Prop :=
  ∃ c L, h.leader u = some (c, L) ∧ ¬ P <+: L

/-- `P` is part of the list, or a leader after `t` that the list may have been
taken from does not have it. -/
def Keeps (h : History N E) (t : ℕ) (P l : List E) (upTo : ℕ → Prop) : Prop :=
  P <+: l ∨ ∃ w, t < w ∧ upTo w ∧ h.Lost w P

/-- What a node has acknowledged stays in its log, and in the log it votes with,
until a leader without it turns up. -/
structure Kept (h : History N E) : Prop where
  log_kept : ∀ {t P p}, h.Created t P → P.length ≤ h.ack p t →
    h.Keeps t P (h.log p) (· ≤ h.term p)
  vote_kept : ∀ {t P p u c l}, h.Created t P → P.length ≤ h.ack p t → h.vote p u = some (c, l) →
    t < u → h.Keeps t P l (· ≤ u)
  quorum_kept : ∀ {u c L}, h.leader u = some (c, L) → ∃ Q, qs.IsQuorum Q ∧ ∀ v ∈ Q,
    ∃ l, h.vote v u = some (c, l) ∧ ∀ t P, h.Created t P → P.length ≤ h.ack v t → t < u →
      h.Keeps t P l (· < u)

/-- Nodes drop no entry shared with the leader they listen to. -/
def Careful (h : History N E) : Event N E → Prop
  | .accept p l => l <+: h.log p → l = h.log p
  | _ => True

/-- A quorum has acknowledged `P` to the leader of term `t`. -/
def Chosen (h : History N E) (t : ℕ) (P : List E) : Prop :=
  h.Created t P ∧ ∃ Q, qs.IsQuorum Q ∧ ∀ p ∈ Q, P.length ≤ h.ack p t

variable {qs}

/-! ### Stability -/

theorem Created.mono {h' : History N E} (hx : Extends h h') {t : ℕ} {P : List E}
    (hP : h.Created t P) : h'.Created t P := by
  obtain ⟨hne, hlast, c, L, hL, hpre⟩ := hP
  obtain ⟨r, hr, -⟩ := hx.leader_grow hL
  exact ⟨hne, hlast, c, L ++ r, hr, hpre.trans (List.prefix_append L r)⟩

theorem Created.length_pos {t : ℕ} {P : List E} (hP : h.Created t P) : 0 < P.length :=
  List.length_pos_iff.mpr hP.1

theorem Created.prefix_leader {t : ℕ} {P L : List E} {c : N} (hP : h.Created t P)
    (hL : h.leader t = some (c, L)) : P <+: L := by
  obtain ⟨-, -, d, M, hM, hpre⟩ := hP
  rw [hL, Option.some.injEq, Prod.mk.injEq] at hM
  rwa [hM.2]

/-- The last entry of a created prefix has the term of its leader. -/
theorem Created.last {t : ℕ} {P : List E} (hP : h.Created t P) :
    ∃ e, P[P.length - 1]? = some e ∧ termOf e = t := by
  obtain ⟨hne, hlast, -⟩ := hP
  obtain ⟨e, he, hterm⟩ := exists_last hne
  exact ⟨e, he, hterm.symm.trans hlast⟩

/-- A prefix that ends in an entry of an older term does not reach into the new entries. -/
theorem isPrefix_of_grown {t u : ℕ} {P L r : List E} {e : E} (he : P[P.length - 1]? = some e)
    (hte : termOf e = t) (hr : ∀ e ∈ r, termOf e = u) (htu : t < u) (hpre : P <+: L ++ r) :
    P <+: L := by
  by_contra hnot
  have hlong : L.length < P.length := by
    by_contra hle
    exact hnot (List.prefix_of_prefix_length_le hpre (List.prefix_append L r) (by omega))
  have hmem := getElem?_of_isPrefix hpre he
  rw [List.getElem?_append_right (by omega)] at hmem
  have := hr e (List.mem_of_getElem? hmem)
  omega

theorem Lost.mono {h' : History N E} (hx : Extends h h') {t u : ℕ} {P : List E}
    (hP : h.Created t P) (htu : t < u) (hlost : h.Lost u P) : h'.Lost u P := by
  obtain ⟨c, L, hL, hnot⟩ := hlost
  obtain ⟨r, hr, hterm⟩ := hx.leader_grow hL
  obtain ⟨e, he, hte⟩ := hP.last
  exact ⟨c, L ++ r, hr, fun hpre => hnot (isPrefix_of_grown he hte hterm htu hpre)⟩

theorem Keeps.mono {h' : History N E} (hx : Extends h h') {t : ℕ} {P l l' : List E}
    {b b' : ℕ → Prop} (hP : h.Created t P) (hk : h.Keeps t P l b) (hl : P <+: l → P <+: l')
    (hb : ∀ w, b w → b' w) : h'.Keeps t P l' b' := by
  rcases hk with hpre | ⟨w, htw, hw, hlost⟩
  · exact Or.inl (hl hpre)
  · exact Or.inr ⟨w, htw, hb w hw, hlost.mono hx hP htw⟩

theorem Chosen.mono {h' : History N E} (hx : Extends h h') {t : ℕ} {P : List E}
    (hP : h.Chosen qs t P) : h'.Chosen qs t P := by
  obtain ⟨hcr, Q, hQ, hack⟩ := hP
  exact ⟨hcr.mono hx, Q, hQ, fun p hp => (hack p hp).trans (hx.ack_le p t)⟩

/-- What a quorum has acknowledged to a leader up to an entry of its term is chosen. -/
theorem chosen_of_acks {t n : ℕ} {c : N} {L : List E} {e : E} {Q : Finset N}
    (hL : h.leader t = some (c, L)) (hn : 0 < n) (he : L[n - 1]? = some e) (hte : termOf e = t)
    (hQ : qs.IsQuorum Q) (hack : ∀ p ∈ Q, n ≤ h.ack p t) : h.Chosen qs t (L.take n) := by
  have hlast : (L.take n).getLast? = some e := by
    have := getLast?_take_succ he
    rwa [Nat.sub_add_cancel hn] at this
  refine ⟨⟨fun hnil => ?_, ?_, c, L, hL, List.take_prefix _ _⟩, Q, hQ, fun p hp => ?_⟩
  · simp [hnil] at hlast
  · rw [lastTerm, hlast]
    exact hte
  · exact (List.length_take_le n L).trans (hack p hp)

/-- What a node has acknowledged for a term it has not reached is nothing. -/
theorem Coherent.acked_le (hc : Coherent h) {t : ℕ} {P : List E} {p : N} (hP : h.Created t P)
    (hack : P.length ≤ h.ack p t) : t ≤ h.term p :=
  (hc.ack_leader (lt_of_lt_of_le hP.length_pos hack)).1

/-! ### Each event keeps what was acknowledged -/

section Steps

variable [DecidableEq N]

theorem kept_adopt (hc : Coherent h) (hk : h.Kept qs) {p : N} {t : ℕ}
    (he : h.Allowed (.adopt p t)) : (h.apply (.adopt p t)).Kept qs := by
  have hx := extends_apply hc he
  exact { hk with
    log_kept := fun {_ _ q} hP hack =>
      (hk.log_kept hP hack).mono hx hP id fun w hw => hw.trans (hx.term_le q) }

theorem kept_stand (hc : Coherent h) (hk : h.Kept qs) (p : N) :
    (h.apply (.stand p)).Kept qs := by
  have hx := extends_apply (e := .stand p) hc trivial
  exact {
    log_kept := fun {_ _ q} hP hack =>
      (hk.log_kept hP hack).mono hx hP id fun w hw => hw.trans (hx.term_le q)
    vote_kept := fun {t P q u c l} hP hack hv htu => by
      rcases record_cases hv with ⟨rfl, rfl, hcl⟩ | hv
      · cases hcl
        exact (hk.log_kept hP hack).mono hx hP id fun w hw => hw.trans (Nat.le_succ _)
      · exact hk.vote_kept hP hack hv htu
    quorum_kept := fun {u c L} hL => by
      obtain ⟨Q, hQ, hvotes⟩ := hk.quorum_kept hL
      refine ⟨Q, hQ, fun v hv => ?_⟩
      obtain ⟨l, hl, hkeep⟩ := hvotes v hv
      exact ⟨l, hx.vote_keep hl, hkeep⟩ }

theorem kept_grant (hc : Coherent h) (hk : h.Kept qs) {v c : N} (he : h.Allowed (.grant v c)) :
    (h.apply (.grant v c)).Kept qs := by
  have hx := extends_apply hc he
  exact { hk with
    vote_kept := fun {t P q u d l} hP hack hv htu => by
      rcases record_cases hv with ⟨rfl, rfl, hcl⟩ | hv
      · cases hcl
        exact hk.log_kept hP hack
      · exact hk.vote_kept hP hack hv htu
    quorum_kept := fun {u d L} hL => by
      obtain ⟨Q, hQ, hvotes⟩ := hk.quorum_kept hL
      refine ⟨Q, hQ, fun w hw => ?_⟩
      obtain ⟨l, hl, hkeep⟩ := hvotes w hw
      exact ⟨l, hx.vote_keep hl, hkeep⟩ }

theorem kept_elect (hc : Coherent h) (hk : h.Kept qs) {c : N} (he : h.Allowed (.elect c))
    (hq : h.ByQuorum qs (.elect c)) : (h.apply (.elect c)).Kept qs := by
  have hx := extends_apply hc he
  have hcreated : ∀ {t P}, (h.apply (.elect c)).Created t P → h.Created t P := by
    rintro t P ⟨hne, hlast, d, L, hL, hpre⟩
    by_cases ht : t = h.term c
    · -- the log a candidate votes with has no entry of the new term
      subst ht
      simp only [apply, Function.update_self, Option.some.injEq, Prod.mk.injEq] at hL
      obtain ⟨rfl, rfl⟩ := hL
      obtain ⟨e, hPe, hte⟩ := exists_last hne
      have := hc.own_vote he.2 e (hpre.mem (List.mem_of_getElem? hPe))
      omega
    · simp only [apply, Function.update_of_ne ht] at hL
      exact ⟨hne, hlast, d, L, hL, hpre⟩
  exact {
    log_kept := fun hP hack =>
      (hk.log_kept (hcreated hP) hack).mono hx (hcreated hP) id fun _ => id
    vote_kept := fun hP hack hv htu =>
      (hk.vote_kept (hcreated hP) hack hv htu).mono hx (hcreated hP) id fun _ => id
    quorum_kept := fun {u d L} hL => by
      by_cases hu : u = h.term c
      · subst hu
        simp only [apply, Function.update_self, Option.some.injEq, Prod.mk.injEq] at hL
        obtain ⟨rfl, rfl⟩ := hL
        obtain ⟨Q, hQ, hvotes⟩ := hq
        refine ⟨Q, hQ, fun v hv => ?_⟩
        obtain ⟨l, hl⟩ := hvotes v hv
        refine ⟨l, hl, fun t P hP hack htu => ?_⟩
        rcases hk.vote_kept (hcreated hP) hack hl htu with hpre | ⟨w, htw, hw, hlost⟩
        · exact Or.inl hpre
        · have hne : w ≠ h.term c := by
            rintro rfl
            obtain ⟨d, L, hL, -⟩ := hlost
            simp [he.1] at hL
          exact Or.inr ⟨w, htw, lt_of_le_of_ne hw hne, hlost.mono hx (hcreated hP) htw⟩
      · simp only [apply, Function.update_of_ne hu] at hL
        obtain ⟨Q, hQ, hvotes⟩ := hk.quorum_kept hL
        refine ⟨Q, hQ, fun v hv => ?_⟩
        obtain ⟨l, hl, hkeep⟩ := hvotes v hv
        exact ⟨l, hl, fun t P hP hack htu =>
          (hkeep t P (hcreated hP) hack htu).mono hx (hcreated hP) id fun _ => id⟩ }

theorem kept_append (hc : Coherent h) (hk : h.Kept qs) {c : N} {e : E}
    (he : h.Allowed (.append c e)) : (h.apply (.append c e)).Kept qs := by
  have hx := extends_apply hc he
  obtain ⟨hlead, hterm⟩ := he
  have hlead' : (h.apply (.append c e)).leader (h.term c) = some (c, h.log c ++ [e]) := by
    simp [apply]
  -- what is acknowledged away from the leader's own term was acknowledged before
  have hold : ∀ {t P p}, (h.apply (.append c e)).Created t P →
      P.length ≤ (h.apply (.append c e)).ack p t → ¬ (p = c ∧ t = h.term c) →
      h.Created t P ∧ P.length ≤ h.ack p t := by
    intro t P p hP hack hne
    have hack' : P.length ≤ h.ack p t := (raise_of_ne (h := h) hne) ▸ hack
    refine ⟨?_, hack'⟩
    obtain ⟨hne', hlast, d, L, hL, hpre⟩ := hP
    by_cases ht : t = h.term c
    · subst ht
      rw [hlead', Option.some.injEq, Prod.mk.injEq] at hL
      obtain ⟨rfl, rfl⟩ := hL
      obtain ⟨-, d, M, hM, hlen⟩ :=
        hc.ack_leader (lt_of_lt_of_le (List.length_pos_iff.mpr hne') hack')
      rw [hlead, Option.some.injEq, Prod.mk.injEq] at hM
      refine ⟨hne', hlast, c, h.log c, hlead,
        List.prefix_of_prefix_length_le hpre (List.prefix_append _ _) ?_⟩
      rw [hM.2]
      omega
    · simp only [apply, Function.update_of_ne ht] at hL
      exact ⟨hne', hlast, d, L, hL, hpre⟩
  -- a vote for a later term is not the leader's
  have hvoter : ∀ {t u p x}, h.vote p u = some x → t < u → ¬ (p = c ∧ t = h.term c) := by
    rintro t u p x hv htu ⟨rfl, rfl⟩
    have := (hc.voted_term hv).2
    omega
  exact {
    log_kept := fun {t P p} hP hack => by
      by_cases hpt : p = c ∧ t = h.term c
      · obtain ⟨rfl, rfl⟩ := hpt
        left
        simpa [apply] using hP.prefix_leader hlead'
      · obtain ⟨hP', hack'⟩ := hold hP hack hpt
        refine (hk.log_kept hP' hack').mono hx hP' (fun hpre => ?_) fun _ => id
        by_cases hp : p = c
        · subst hp
          simpa [apply] using hpre.trans (List.prefix_append _ _)
        · simpa [apply, Function.update_of_ne hp] using hpre
    vote_kept := fun hP hack hv htu => by
      obtain ⟨hP', hack'⟩ := hold hP hack (hvoter hv htu)
      exact (hk.vote_kept hP' hack' hv htu).mono hx hP' id fun _ => id
    quorum_kept := fun {u d L} hL => by
      have hL' : ∃ M, h.leader u = some (d, M) := by
        by_cases hu : u = h.term c
        · subst hu
          rw [hlead', Option.some.injEq, Prod.mk.injEq] at hL
          obtain ⟨rfl, -⟩ := hL
          exact ⟨_, hlead⟩
        · simp only [apply, Function.update_of_ne hu] at hL
          exact ⟨L, hL⟩
      obtain ⟨M, hM⟩ := hL'
      obtain ⟨Q, hQ, hvotes⟩ := hk.quorum_kept hM
      refine ⟨Q, hQ, fun v hv => ?_⟩
      obtain ⟨l, hl, hkeep⟩ := hvotes v hv
      refine ⟨l, hl, fun t P hP hack htu => ?_⟩
      obtain ⟨hP', hack'⟩ := hold hP hack (hvoter hl htu)
      exact (hkeep t P hP' hack' htu).mono hx hP' id fun _ => id }

theorem kept_accept (hc : Coherent h) (hk : h.Kept qs) {p : N} {l : List E}
    (he : h.Allowed (.accept p l)) (hcut : h.Careful (.accept p l)) :
    (h.apply (.accept p l)).Kept qs := by
  have hx := extends_apply hc he
  obtain ⟨c, L, hL, -, hpre⟩ := he
  have hvoter : ∀ {t u q x}, h.vote q u = some x → t < u → ¬ (q = p ∧ t = h.term p) := by
    rintro t u q x hv htu ⟨rfl, rfl⟩
    have := (hc.voted_term hv).2
    omega
  -- what the old log has of the leader's log, the new one has too
  have hsame : ∀ {P}, P <+: L → P <+: h.log p → P <+: l := by
    intro P hPL hPlog
    rcases prefix_total hPL hpre with h1 | h1
    · exact h1
    · rw [hcut (h1.trans hPlog)]
      exact hPlog
  exact {
    log_kept := fun {t P q} hP hack => by
      by_cases hqt : q = p ∧ t = h.term p
      · obtain ⟨rfl, rfl⟩ := hqt
        have hPL : P <+: L := Created.prefix_leader (h := h) hP hL
        left
        simp only [apply, raise_self, le_max_iff] at hack ⊢
        simp only [Function.update_self]
        rcases hack with hack | hack
        · rcases hk.log_kept (h := h) hP hack with h1 | ⟨w, hw, hw', -⟩
          · exact hsame hPL h1
          · exact absurd hw' (by omega)
        · exact List.prefix_of_prefix_length_le hPL hpre hack
      · have hack' : P.length ≤ h.ack q t := (raise_of_ne (h := h) hqt) ▸ hack
        by_cases hq : q = p
        · subst hq
          rcases hk.log_kept (h := h) hP hack' with h1 | ⟨w, htw, hw, hlost⟩
          · by_cases hPL : P <+: L
            · left
              simpa [apply] using hsame hPL h1
            · have hlt : t < h.term q :=
                lt_of_le_of_ne (hc.acked_le (h := h) hP hack') fun heq => hqt ⟨rfl, heq⟩
              exact Or.inr ⟨h.term q, hlt, le_rfl, c, L, hL, hPL⟩
          · exact Or.inr ⟨w, htw, hw, hlost⟩
        · refine (hk.log_kept (h := h) hP hack').mono hx hP (fun h1 => ?_) fun _ => id
          simpa [apply, Function.update_of_ne hq] using h1
    vote_kept := fun {t P q u d m} hP hack hv htu =>
      hk.vote_kept (h := h) hP ((raise_of_ne (h := h) (hvoter hv htu)) ▸ hack) hv htu
    quorum_kept := fun {u d M} hM => by
      obtain ⟨Q, hQ, hvotes⟩ := hk.quorum_kept (h := h) hM
      refine ⟨Q, hQ, fun v hv => ?_⟩
      obtain ⟨m, hm, hkeep⟩ := hvotes v hv
      exact ⟨m, hm, fun t P hP hack htu =>
        hkeep t P hP ((raise_of_ne (h := h) (hvoter hm htu)) ▸ hack) htu⟩ }

theorem kept_apply (hc : Coherent h) (hk : h.Kept qs) {e : Event N E} (he : h.Allowed e)
    (hq : h.ByQuorum qs e) (hcare : h.Careful e) : (h.apply e).Kept qs := by
  cases e with
  | adopt p t => exact kept_adopt hc hk he
  | stand p => exact kept_stand hc hk p
  | grant v c => exact kept_grant hc hk he
  | elect c => exact kept_elect hc hk he hq
  | append c e => exact kept_append hc hk he
  | accept p l => exact kept_accept hc hk he hcare

end Steps

/-! ### Leader completeness -/

theorem Created.sorted (hc : Coherent h) {t : ℕ} {P l : List E} (hP : h.Created t P)
    (hl : h.Backed l) (hpre : P <+: l) : t ≤ lastTerm l := by
  obtain ⟨e, he, rfl⟩ := hP.last
  have hne : l ≠ [] := by
    rintro rfl
    exact hP.1 (List.prefix_nil.mp hpre)
  obtain ⟨f, hf, hlast⟩ := exists_last hne
  have := hpre.length_le
  rw [hlast]
  exact hc.sorted hl (getElem?_of_isPrefix hpre he) hf (by omega)

/-- A log at least as up to date as one with `P` has `P` too, when all leaders
between the term of `P` and its own last term have it. -/
theorem Created.up_to_date (hc : Coherent h) {t : ℕ} {P cand voter : List E}
    (hP : h.Created t P) (hcand : h.Backed cand) (hvoter : h.Backed voter)
    (hpre : P <+: voter) (hup : UpToDate cand voter)
    (hbetween : ∀ w c L, t < w → w ≤ lastTerm cand → h.leader w = some (c, L) → P <+: L) :
    P <+: cand := by
  have hvne : voter ≠ [] := by
    rintro rfl
    exact hP.1 (List.prefix_nil.mp hpre)
  have hle : t ≤ lastTerm voter := hP.sorted hc hvoter hpre
  have hpos : 1 ≤ lastTerm voter := by
    obtain ⟨e, he, hlast⟩ := exists_last hvne
    rw [hlast]
    exact hc.term_pos hvoter he
  have hcne : cand ≠ [] := by
    rintro rfl
    rcases hup with hlt | ⟨heq, -⟩
    · simp at hlt
    · simp only [lastTerm_nil] at heq
      omega
  obtain ⟨d, M, hM, hcM⟩ := hcand.whole hcne
  rcases hup with hlt | ⟨heq, hlen⟩
  · have hPM := hbetween _ d M (by omega) le_rfl hM
    rcases prefix_total hPM hcM with h1 | h1
    · exact h1
    · -- otherwise the last entry of `cand` would be in `P`, at a term of at most `t`
      have hPbacked : h.Backed P := hvoter.of_isPrefix hpre
      obtain ⟨f, hf, hlast⟩ := exists_last hcne
      obtain ⟨e, he, hte⟩ := hP.last
      have := h1.length_le
      have := hc.sorted hPbacked (getElem?_of_isPrefix h1 hf) he (by omega)
      omega
  · obtain ⟨d', M', hM', hvM⟩ := hvoter.whole hvne
    rw [← heq, hM, Option.some.injEq, Prod.mk.injEq] at hM'
    rw [← hM'.2] at hvM
    exact hpre.trans (List.prefix_of_prefix_length_le hvM hcM hlen)

/-- What a quorum has acknowledged to the leader of term `t` is in the log of
every leader of a later term. -/
theorem Chosen.complete (hc : Coherent h) (hk : h.Kept qs) {t : ℕ} {P : List E}
    (hP : h.Chosen qs t P) : ∀ {u c L}, t < u → h.leader u = some (c, L) → P <+: L := by
  obtain ⟨hcr, Q, hQ, hack⟩ := hP
  intro u
  induction u using Nat.strong_induction_on with
  | _ u ih =>
    intro c L htu hL
    obtain ⟨Q', hQ', hvotes⟩ := hk.quorum_kept hL
    obtain ⟨v, hv, hv'⟩ := qs.inter hQ hQ'
    obtain ⟨l, hl, hkeep⟩ := hvotes v hv'
    have hPl : P <+: l := by
      rcases hkeep t P hcr (hack v hv) htu with h1 | ⟨w, htw, hwu, d, M, hM, hnot⟩
      · exact h1
      · exact absurd (ih w hwu htw hM) hnot
    obtain ⟨l', hl', hup⟩ := hc.voted_for hl
    obtain ⟨m, hm, hmL⟩ := hc.leader_vote hL
    have hsame : m = l' := by
      rw [hl', Option.some.injEq, Prod.mk.injEq] at hm
      exact hm.2.symm
    subst hsame
    refine (hcr.up_to_date hc (hc.vote_backed hl') (hc.vote_backed hl) hPl hup ?_).trans hmL
    intro w d M htw hw hM
    refine ih w ?_ htw hM
    have hne : m ≠ [] := by
      rintro rfl
      simp only [lastTerm_nil] at hw
      omega
    obtain ⟨f, hf, hlast⟩ := exists_last hne
    have := hc.own_vote hl' f (List.mem_of_getElem? hf)
    omega

/-- A leader of a later term had what is chosen by now from the start. -/
theorem Chosen.complete_before {h' : History N E} (hx : Extends h h') (hc : Coherent h')
    (hk : h'.Kept qs) {t u : ℕ} {P L : List E} {c : N} (hP : h'.Chosen qs t P) (htu : t < u)
    (hL : h.leader u = some (c, L)) : P <+: L := by
  obtain ⟨r, hr, hterm⟩ := hx.leader_grow hL
  obtain ⟨e, he, hte⟩ := hP.1.last
  exact isPrefix_of_grown he hte hterm htu (hP.complete hc hk htu hr)

/-- A quorum keeps a chosen prefix in its logs. -/
theorem Chosen.held (hc : Coherent h) (hk : h.Kept qs) {t : ℕ} {P : List E}
    (hP : h.Chosen qs t P) : ∃ Q, qs.IsQuorum Q ∧ ∀ p ∈ Q, P <+: h.log p := by
  obtain ⟨hcr, Q, hQ, hack⟩ := hP
  refine ⟨Q, hQ, fun p hp => ?_⟩
  rcases hk.log_kept hcr (hack p hp) with hpre | ⟨w, htw, -, c, L, hL, hnot⟩
  · exact hpre
  · exact absurd (Chosen.complete hc hk ⟨hcr, Q, hQ, hack⟩ htw hL) hnot

/-! ### Settled prefixes -/

/-- A prefix that was chosen in a term up to `t`. -/
def Settled (qs : QuorumSystem N) (h : History N E) (t : ℕ) (l : List E) : Prop :=
  l = [] ∨ ∃ u P, u ≤ t ∧ h.Chosen qs u P ∧ l <+: P

theorem Chosen.settled {t : ℕ} {P : List E} (hP : h.Chosen qs t P) : h.Settled qs t P :=
  Or.inr ⟨t, P, le_rfl, hP, List.prefix_rfl⟩

theorem Settled.mono {h' : History N E} (hx : Extends h h') {t t' : ℕ} {l : List E}
    (hs : h.Settled qs t l) (htt : t ≤ t') : h'.Settled qs t' l := by
  rcases hs with rfl | ⟨u, P, hut, hP, hpre⟩
  · exact Or.inl rfl
  · exact Or.inr ⟨u, P, hut.trans htt, hP.mono hx, hpre⟩

/-- Settled prefixes are part of the log of every leader from then on. -/
theorem Settled.prefix_leader (hc : Coherent h) (hk : h.Kept qs) {t u : ℕ} {l L : List E} {c : N}
    (hs : h.Settled qs t l) (htu : t ≤ u) (hL : h.leader u = some (c, L)) : l <+: L := by
  rcases hs with rfl | ⟨w, P, hwt, hP, hpre⟩
  · exact List.nil_prefix
  · rcases Nat.lt_or_ge w u with hlt | hge
    · exact hpre.trans (hP.complete hc hk hlt hL)
    · have heq : w = u := by omega
      subst heq
      exact hpre.trans (hP.1.prefix_leader hL)

/-- State machine safety: of two settled prefixes one is a prefix of the other. -/
theorem Settled.total (hc : Coherent h) (hk : h.Kept qs) {t u : ℕ} {l m : List E}
    (hl : h.Settled qs t l) (hm : h.Settled qs u m) : l <+: m ∨ m <+: l := by
  rcases hl with rfl | ⟨t', P, ht', hP, hlP⟩
  · exact Or.inl List.nil_prefix
  rcases hm with rfl | ⟨u', R, hu', hR, hmR⟩
  · exact Or.inr List.nil_prefix
  rcases Nat.le_total t' u' with hle | hle
  · obtain ⟨-, -, c, L, hL, hRL⟩ := hR.1
    have hPL : P <+: L := hP.settled.prefix_leader hc hk hle hL
    exact prefix_total (hlP.trans hPL) (hmR.trans hRL)
  · obtain ⟨-, -, c, L, hL, hPL⟩ := hP.1
    have hRL : R <+: L := hR.settled.prefix_leader hc hk hle hL
    exact prefix_total (hlP.trans hPL) (hmR.trans hRL)

/-- A node that drops nothing it shares with its leader keeps its settled prefix. -/
theorem Settled.prefix_accept (hc : Coherent h) (hk : h.Kept qs) {t : ℕ} {s l m L : List E}
    {c : N} (hs : h.Settled qs t s) (hL : h.leader t = some (c, L)) (hl : l <+: L)
    (hsm : s <+: m) (hcut : l <+: m → l = m) : s <+: l := by
  rcases prefix_total (hs.prefix_leader hc hk le_rfl hL) hl with h1 | h1
  · exact h1
  · rw [hcut (h1.trans hsm)]
    exact hsm

end History

end NextgenDatabases.Raft
