import Mathlib.Data.List.DropRight

/-!
# Lexing

A scanner is an automaton that stops in front of the first character it has no step for. A text is
laid out from tokens when it is made of them and of blanks, and the lexer ends each token where it
ends. Texts are written from the left, with the last token open to what may follow it.
-/
namespace NextgenDatabases.Foundations

/-! ### Scanners -/

section Scanners

variable {σ χ τ : Type*} (step : σ → χ → Option σ)

/-- The characters read, the state in which the automaton stops, and the text behind them. -/
def scan : σ → List χ → List χ × σ × List χ
  | q, [] => ([], q, [])
  | q, c :: s =>
    match step q c with
    | none => ([], q, c :: s)
    | some q' => (c :: (scan q' s).1, (scan q' s).2)

/-- The lexer that makes one token of what is scanned. -/
def lexer (start : σ) (token : σ → List χ → Option τ) (s : List χ) : Option (τ × List χ) :=
  (token (scan step start s).2.1 (scan step start s).1).map (·, (scan step start s).2.2)

variable {step} {q q' : σ} {c : χ} {s w rest : List χ}

theorem scan_cons_none (h : step q c = none) : scan step q (c :: s) = ([], q, c :: s) := by
  rw [scan, h]

theorem scan_cons_some (h : step q c = some q') :
    scan step q (c :: s) = (c :: (scan step q' s).1, (scan step q' s).2) := by
  rw [scan, h]

/-- The automaton looks one character ahead. -/
theorem scan_eq_iff : scan step q s = (w, q', rest) ↔
    s = w ++ rest ∧ w.foldlM step q = some q' ∧ ∀ c ∈ rest.head?, step q' c = none := by
  induction s generalizing q w with
  | nil =>
    rw [scan, Prod.mk.injEq, Prod.mk.injEq, List.nil_eq_append_iff]
    constructor
    · rintro ⟨rfl, rfl, rfl⟩
      exact ⟨⟨rfl, rfl⟩, rfl, nofun⟩
    · rintro ⟨⟨rfl, rfl⟩, hq, -⟩
      exact ⟨rfl, Option.some.inj hq, rfl⟩
  | cons c s ih =>
    cases hc : step q c with
    | none =>
      rw [scan_cons_none hc, Prod.mk.injEq, Prod.mk.injEq]
      constructor
      · rintro ⟨rfl, rfl, rfl⟩
        exact ⟨rfl, rfl, fun d hd => Option.some.inj hd ▸ hc⟩
      · rintro ⟨hs, hq, -⟩
        cases w with
        | nil => exact ⟨rfl, Option.some.inj hq, hs⟩
        | cons d w =>
          obtain ⟨rfl, -⟩ := List.cons.inj hs
          rw [List.foldlM_cons, hc] at hq
          cases hq
    | some q₁ =>
      rw [scan_cons_some hc]
      cases w with
      | nil =>
        constructor
        · intro h
          cases congrArg Prod.fst h
        · rintro ⟨rfl, hq, hrest⟩
          have hstop := hrest c rfl
          rw [← Option.some.inj hq, hc] at hstop
          cases hstop
      | cons d w =>
        rw [List.cons_append, List.cons.injEq, List.foldlM_cons]
        constructor
        · intro h
          obtain ⟨hread, hrest⟩ := Prod.mk.inj h
          obtain ⟨hcd, hw⟩ := List.cons.inj hread
          obtain ⟨hs, hq, hstop⟩ := ih.mp (Prod.ext hw hrest)
          exact ⟨⟨hcd, hs⟩, by rw [← hcd, hc]; exact hq, hstop⟩
        · rintro ⟨⟨rfl, hs⟩, hq, hstop⟩
          rw [hc] at hq
          rw [ih.mpr ⟨hs, hq, hstop⟩]

/-- In a state that reads these characters and stays, they are read together. -/
theorem scan_loop {p : χ → Bool} (h : ∀ c, p c = true → step q c = some q) :
    scan step q s = (s.takeWhile p ++ (scan step q (s.dropWhile p)).1,
      (scan step q (s.dropWhile p)).2) := by
  induction s with
  | nil => rfl
  | cons c s ih =>
    cases hc : p c with
    | true =>
      rw [List.takeWhile_cons_of_pos hc, List.dropWhile_cons_of_pos hc, scan_cons_some (h c hc), ih]
      rfl
    | false => simp [hc]

/-- Where nothing else is read there, the loop ends the scan. -/
theorem scan_while {p : χ → Bool} (h : ∀ c, step q c = if p c then some q else none) :
    scan step q s = (s.takeWhile p, q, s.dropWhile p) := by
  refine scan_eq_iff.mpr ⟨List.takeWhile_append_dropWhile.symm, ?_, fun c hc => ?_⟩
  · induction s with
    | nil => rfl
    | cons c s ih =>
      cases hc : p c with
      | true =>
        rw [List.takeWhile_cons_of_pos hc, List.foldlM_cons, h, if_pos hc]
        exact ih
      | false => rw [List.takeWhile_cons_of_neg (by simp [hc])]; rfl
  · rw [h, if_neg]
    have hstop := List.head?_dropWhile_not p s
    rw [Option.mem_def.mp hc] at hstop
    simpa using hstop

theorem lexer_eq_some_iff {start : σ} {token : σ → List χ → Option τ} {t : τ} :
    lexer step start token s = some (t, rest) ↔ ∃ w q, s = w ++ rest ∧
      w.foldlM step start = some q ∧ token q w = some t ∧ ∀ c ∈ rest.head?, step q c = none := by
  rcases hscan : scan step start s with ⟨w', q', rest'⟩
  rw [lexer, hscan, Option.map_eq_some_iff]
  constructor
  · rintro ⟨_, htoken, heq⟩
    obtain ⟨rfl, rfl⟩ := Prod.mk.inj heq
    obtain ⟨hs, hq, hstop⟩ := scan_eq_iff.mp hscan
    exact ⟨w', q', hs, hq, htoken, hstop⟩
  · rintro ⟨w, q, hs, hq, htoken, hstop⟩
    rw [scan_eq_iff.mpr ⟨hs, hq, hstop⟩] at hscan
    cases hscan
    exact ⟨t, htoken, rfl⟩

end Scanners

section Layout

variable {χ τ : Type*} (next : List χ → Option (τ × List χ)) (isBlank : χ → Bool)
  (text : τ → List χ)

/-- The lexer takes the text into tokens. -/
inductive Lexes : List χ → List τ → Prop
  | nil : Lexes [] []
  | cons {t : τ} {ts : List τ} {s rest : List χ} : next s = some (t, rest) → Lexes rest ts →
      Lexes s (t :: ts)

/-- In front of this text the token is read for itself. -/
def Before (t : τ) (s : List χ) : Prop := next (text t ++ s) = some (t, s)

/-- A token of which neither end is a blank. -/
structure Solid (t : τ) : Prop where
  nonempty : text t ≠ []
  head : ∀ c ∈ (text t).head?, isBlank c = false
  last : ∀ c ∈ (text t).getLast?, isBlank c = false

/-- The token ends with the text, and before every blank. -/
structure Ends (t : τ) : Prop where
  nil : Before next text t []
  blank : ∀ c s, isBlank c = true → Before next text t (c :: s)

inductive Laid : List τ → List χ → Prop
  | nil : Laid [] []
  | blank {c : χ} {ts : List τ} {s : List χ} : isBlank c = true → Laid ts s → Laid ts (c :: s)
  | token {t : τ} {ts : List τ} {s : List χ} : Solid isBlank text t → Before next text t s →
      Laid ts s → Laid (t :: ts) (text t ++ s)

/-- What may follow the last token may follow this text. -/
def Open (o : List χ) (ts : List τ) (last : Option τ) : Prop :=
  ∀ s us, (∀ t ∈ last, Before next text t s) → Laid next isBlank text us s →
    Laid next isBlank text (ts ++ us) (o ++ s)

/-- A text with a last token that it ends with, or with blanks behind it. -/
inductive Written : List χ → List τ → Option τ → Prop
  | touching {o : List χ} {ts : List τ} {last : Option τ} :
      (∀ c ∈ o.getLast?, isBlank c = false) → Open next isBlank text o ts last →
      (∀ t ∈ last, Ends next isBlank text t) → Written o ts last
  | apart {o blanks : List χ} {ts : List τ} {last : Option τ} :
      (∀ c ∈ o.getLast?, isBlank c = false) → Open next isBlank text o ts last →
      (∀ t ∈ last, Ends next isBlank text t) → blanks ≠ [] → (∀ c ∈ blanks, isBlank c = true) →
      Written (o ++ blanks) ts none

variable {next isBlank text} {o s gap : List χ} {t : τ} {ts : List τ} {last : Option τ} {c : χ}

/-! ### Blanks -/

theorem Laid.skip (h : Laid next isBlank text ts s) (hgap : ∀ c ∈ gap, isBlank c = true) :
    Laid next isBlank text ts (gap ++ s) := by
  induction gap with
  | nil => exact h
  | cons c gap ih =>
    exact .blank (hgap c List.mem_cons_self) (ih fun d hd => hgap d (List.mem_cons_of_mem _ hd))

/-- No token starts with a blank, so blanks in front can be left out. -/
theorem Laid.dropWhile (h : Laid next isBlank text ts s) :
    Laid next isBlank text ts (s.dropWhile isBlank) := by
  induction h with
  | nil => exact .nil
  | blank hc _ ih => rwa [List.dropWhile_cons_of_pos hc]
  | @token t ts s hsolid hbefore h ih =>
    obtain ⟨c, w, htext⟩ := List.exists_cons_of_ne_nil hsolid.nonempty
    have hc : isBlank c = false := hsolid.head c (by simp [htext])
    have hkeep : (text t ++ s).dropWhile isBlank = text t ++ s := by simp [htext, hc]
    rw [hkeep]
    exact .token hsolid hbefore h

/-- A lexer that takes blanks together reads the tokens back. -/
theorem Laid.lexes [DecidableEq τ] {space : τ}
    (hspace : ∀ c s, isBlank c = true → next (c :: s) = some (space, s.dropWhile isBlank))
    (hne : ∀ t, Solid isBlank text t → t ≠ space) (h : Laid next isBlank text ts s) :
    ∃ ts', Lexes next s ts' ∧ ts'.filter (fun t => t ≠ space) = ts := by
  induction hn : s.length using Nat.strong_induction_on generalizing ts s with
  | _ n ih =>
    cases h with
    | nil => exact ⟨[], .nil, rfl⟩
    | @blank c ts s hc h =>
      have hlength : (s.dropWhile isBlank).length < n := by
        have hle := (List.dropWhile_suffix (l := s) isBlank).length_le
        rw [← hn, List.length_cons]
        omega
      obtain ⟨ts', hlexes, hfilter⟩ := ih _ hlength h.dropWhile rfl
      exact ⟨space :: ts', .cons (hspace c s hc) hlexes, by simpa using hfilter⟩
    | @token t ts s hsolid hbefore h =>
      have hpos := List.length_pos_iff.mpr hsolid.nonempty
      have hlength : s.length < n := by
        rw [← hn, List.length_append]
        omega
      obtain ⟨ts', hlexes, hfilter⟩ := ih _ hlength h rfl
      exact ⟨t :: ts', .cons hbefore hlexes, by simpa [hne t hsolid] using hfilter⟩

/-! ### Writing -/

theorem written_nil : Written next isBlank text [] [] none :=
  .touching nofun (fun _ _ _ h => h) nofun

theorem Open.close (h : Open next isBlank text o ts last)
    (hends : ∀ t ∈ last, Ends next isBlank text t) (hgap : ∀ c ∈ gap, isBlank c = true) :
    Laid next isBlank text ts (o ++ gap) := by
  have hlaid := h gap [] (fun t ht => ?_) (by simpa using Laid.nil.skip hgap)
  · simpa using hlaid
  · cases gap with
    | nil => exact (hends t ht).nil
    | cons c gap => exact (hends t ht).blank c gap (hgap c List.mem_cons_self)

theorem Open.apart (h : Open next isBlank text o ts last)
    (hends : ∀ t ∈ last, Ends next isBlank text t) (hne : gap ≠ [])
    (hgap : ∀ c ∈ gap, isBlank c = true) : Open next isBlank text (o ++ gap) ts none := by
  intro s us _ hlaid
  obtain ⟨c, rest, rfl⟩ := List.exists_cons_of_ne_nil hne
  rw [List.append_assoc]
  exact h _ us (fun t ht => (hends t ht).blank c _ (hgap c List.mem_cons_self)) (hlaid.skip hgap)

theorem Written.isOpen (h : Written next isBlank text o ts last) :
    Open next isBlank text o ts last := by
  cases h with
  | touching _ hopen _ => exact hopen
  | apart _ hopen hends hne hgap => exact hopen.apart hends hne hgap

theorem Written.ends (h : Written next isBlank text o ts last) :
    ∀ t ∈ last, Ends next isBlank text t := by
  cases h with
  | touching _ _ hends => exact hends
  | apart => nofun

theorem Written.token (h : Written next isBlank text o ts last) (hsolid : Solid isBlank text t)
    (hends : Ends next isBlank text t)
    (htouch : ∀ l ∈ last, ∀ s, Before next text l (text t ++ s)) :
    Written next isBlank text (o ++ text t) (ts ++ [t]) (some t) := by
  refine .touching (fun c hc => hsolid.last c ?_) (fun s us hbefore hlaid => ?_) (by simpa using hends)
  · rwa [List.getLast?_append_of_ne_nil _ hsolid.nonempty] at hc
  · have hnext : Laid next isBlank text (t :: us) (text t ++ s) :=
      .token hsolid (hbefore t rfl) hlaid
    rw [List.append_assoc, List.append_assoc]
    exact h.isOpen _ _ (fun l hl => htouch l hl s) hnext

/-- Taking characters away that are blanks takes nothing but blanks away. -/
theorem exists_kept {p : χ → Bool} (hp : ∀ c, p c = true → isBlank c = true)
    (hlast : ∀ c ∈ o.getLast?, isBlank c = false) (hgap : ∀ c ∈ gap, isBlank c = true) :
    ∃ kept, (o ++ gap).rdropWhile p = o ++ kept ∧ ∀ c ∈ kept, isBlank c = true := by
  induction gap using List.reverseRecOn with
  | nil =>
    refine ⟨[], ?_, nofun⟩
    rw [List.append_nil]
    refine List.rdropWhile_eq_self_iff.mpr fun hne hpc => ?_
    have hblank := hlast _ (List.getLast?_eq_some_getLast hne)
    rw [hp _ hpc] at hblank
    cases hblank
  | append_singleton gap c ih =>
    rw [← List.append_assoc, List.rdropWhile_concat]
    split_ifs
    · exact ih fun d hd => hgap d (List.mem_append_left _ hd)
    · exact ⟨gap ++ [c], by simp, hgap⟩

theorem apart_of_kept (hlast : ∀ c ∈ o.getLast?, isBlank c = false)
    (hopen : Open next isBlank text o ts last) (hends : ∀ t ∈ last, Ends next isBlank text t)
    (hgap : ∀ c ∈ gap, isBlank c = true) (hc : isBlank c = true) :
    Written next isBlank text (o ++ gap ++ [c]) ts none := by
  rw [List.append_assoc]
  refine .apart hlast hopen hends (by simp) fun d hd => ?_
  rcases List.mem_append.mp hd with hd | hd
  · exact hgap d hd
  · exact List.mem_singleton.mp hd ▸ hc

/-- Some of the blanks at the end are taken away, and one is put there. -/
theorem Written.blank_again (h : Written next isBlank text o ts last) {p : χ → Bool}
    (hp : ∀ c, p c = true → isBlank c = true) (hc : isBlank c = true) :
    Written next isBlank text (o.rdropWhile p ++ [c]) ts none := by
  cases h with
  | touching hlast hopen hends =>
    obtain ⟨kept, hkept, hblank⟩ := exists_kept hp hlast (List.forall_mem_nil _)
    rw [List.append_nil] at hkept
    rw [hkept]
    exact apart_of_kept hlast hopen hends hblank hc
  | apart hlast hopen hends _ hgap =>
    obtain ⟨kept, hkept, hblank⟩ := exists_kept hp hlast hgap
    rw [hkept]
    exact apart_of_kept hlast hopen hends hblank hc

theorem Written.blank (h : Written next isBlank text o ts last) (hc : isBlank c = true) :
    Written next isBlank text (o ++ [c]) ts none := by
  cases h with
  | touching hlast hopen hends =>
    simpa using apart_of_kept hlast hopen hends (List.forall_mem_nil _) hc
  | apart hlast hopen hends _ hgap => exact apart_of_kept hlast hopen hends hgap hc

/-- Behind a blank, or in an empty text, nothing touches what comes next. -/
theorem Written.untouched (h : Written next isBlank text o ts last)
    (hend : ∀ c ∈ o.getLast?, isBlank c = true) : Written next isBlank text o ts none := by
  cases h with
  | touching hlast hopen hends =>
    cases o using List.reverseRecOn with
    | nil =>
      have hlaid := hopen.close hends (List.forall_mem_nil _)
      generalize hs : ([] : List χ) ++ [] = s at hlaid
      cases hlaid with
      | nil => exact written_nil
      | blank => cases hs
      | token hsolid => exact absurd (List.append_eq_nil_iff.mp hs.symm).1 hsolid.nonempty
    | append_singleton o c =>
      have hc := hlast c (by simp)
      rw [hend c (by simp)] at hc
      cases hc
  | apart hlast hopen hends hne hgap => exact .apart hlast hopen hends hne hgap

/-- With its last blank taken away, the text may touch what comes next. -/
theorem Written.pop (h : Written next isBlank text (o ++ [c]) ts last) (hc : isBlank c = true) :
    ∃ last', Written next isBlank text o ts last' ∧ ∀ t ∈ last', Ends next isBlank text t := by
  generalize hs : o ++ [c] = s at h
  cases h with
  | touching hlast =>
    have hblank := hlast c (by simp [← hs])
    rw [hc] at hblank
    cases hblank
  | @apart o' blanks ts last hlast hopen hends hne hgap =>
    obtain ⟨gap, d, rfl⟩ := (List.eq_nil_or_concat' blanks).resolve_left hne
    rw [← List.append_assoc] at hs
    obtain ⟨rfl, -⟩ := List.append_inj' hs rfl
    have hgap' : ∀ c ∈ gap, isBlank c = true := fun c hc => hgap c (List.mem_append_left _ hc)
    cases gap with
    | nil => exact ⟨last, by simpa using .touching hlast hopen hends, hends⟩
    | cons c gap => exact ⟨none, .apart hlast hopen hends (by simp) hgap', nofun⟩

/-- Without the blanks at its ends, what is written is laid out. -/
theorem Written.trim (h : Written next isBlank text o ts last) :
    Laid next isBlank text ts ((o.rdropWhile isBlank).dropWhile isBlank) := by
  refine Laid.dropWhile ?_
  cases h with
  | touching hlast hopen hends =>
    obtain ⟨kept, hkept, hblank⟩ := exists_kept (fun _ hp => hp) hlast
      (List.forall_mem_nil _)
    rw [List.append_nil] at hkept
    rw [hkept]
    exact hopen.close hends hblank
  | apart hlast hopen hends _ hgap =>
    obtain ⟨kept, hkept, hblank⟩ := exists_kept (fun _ hp => hp) hlast hgap
    rw [hkept]
    exact hopen.close hends hblank

end Layout

end NextgenDatabases.Foundations
