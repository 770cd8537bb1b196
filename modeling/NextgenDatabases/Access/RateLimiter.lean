import NextgenDatabases.Foundations.Runs
import NextgenDatabases.Foundations.Windows
import Mathlib.Algebra.Group.Nat.Defs
import Mathlib.Logic.Function.Basic
import Mathlib.Order.Nat

/-!
# The rate limiter

For each client the times of the requests that were let through, as far as they are in the window. A
request is let through exactly when fewer than the limit were in the minute before it.
-/
namespace NextgenDatabases.Access

open Foundations

/-- Times are in nanoseconds; the limit is a `u32`. -/
structure RateLimiter where
  windows : String → Option (List ℕ)
  maxRequests : ℕ
  window : ℕ
  maxRequests_lt : maxRequests < 2 ^ 32

namespace RateLimiter

def new (maxRequestsPerMinute : ℕ) (h : maxRequestsPerMinute < 2 ^ 32) : RateLimiter where
  windows _ := none
  maxRequests := maxRequestsPerMinute
  window := 60 * 10 ^ 9
  maxRequests_lt := h

/-- The times of a client that have not expired. -/
def timestamps (r : RateLimiter) (clientId : String) (now : ℕ) : List ℕ :=
  recent r.window now ((r.windows clientId).getD [])

def keep (r : RateLimiter) (clientId : String) (timestamps : List ℕ) : RateLimiter :=
  { r with windows := Function.update r.windows clientId (some timestamps) }

theorem windows_keep (r : RateLimiter) (clientId other : String) (timestamps : List ℕ) :
    (r.keep clientId timestamps).windows other =
      if other = clientId then some timestamps else r.windows other :=
  Function.update_apply _ _ _ _

/-- `check`: whether the client may make a request. -/
def check (r : RateLimiter) (clientId : String) (now : ℕ) : Bool × RateLimiter :=
  if r.maxRequests = 0 then (true, r)
  else
    let timestamps := r.timestamps clientId now
    if timestamps.length % 2 ^ 32 ≥ r.maxRequests then (false, r.keep clientId timestamps)
    else (true, r.keep clientId (timestamps ++ [now]))

/-- `remaining`, which drops expired times too. -/
def remaining (r : RateLimiter) (clientId : String) (now : ℕ) : ℕ × RateLimiter :=
  if r.maxRequests = 0 then (2 ^ 32 - 1, r)
  else
    let timestamps := r.timestamps clientId now
    (r.maxRequests - timestamps.length % 2 ^ 32, r.keep clientId timestamps)

end RateLimiter

/-! ### A limiter in use -/

/-- A limiter, the time of the last call and the requests so far, each with its answer. -/
structure Metered where
  limiter : RateLimiter
  clock : ℕ
  checks : List (String × ℕ × Bool)

namespace Metered

inductive Call
  | check (clientId : String) (now : ℕ)
  | remaining (clientId : String) (now : ℕ)

def Call.now : Call → ℕ
  | check _ now => now
  | remaining _ now => now

def new (maxRequestsPerMinute : ℕ) (h : maxRequestsPerMinute < 2 ^ 32) : Metered :=
  ⟨.new maxRequestsPerMinute h, 0, []⟩

def step (s : Metered) : Call → Option Metered
  | .check clientId now =>
    some ⟨(s.limiter.check clientId now).2, now,
      s.checks ++ [(clientId, now, (s.limiter.check clientId now).1)]⟩
  | .remaining clientId now => some ⟨(s.limiter.remaining clientId now).2, now, s.checks⟩

/-- Calls take the lock in the order in which they have read the clock. -/
def InOrder (s : Metered) (c : Call) : Prop := s.clock ≤ c.now

instance (s : Metered) (c : Call) : Decidable (InOrder s c) := Nat.decLe _ _

/-- The times of the requests of a client that were let through. -/
def allowed (s : Metered) (clientId : String) : List ℕ :=
  s.checks.filterMap fun c => if c.1 = clientId ∧ c.2.2 = true then some c.2.1 else none

/-- The limiter has of each client what was recent at some time, and never too much. -/
structure Sound (n : ℕ) (s : Metered) : Prop where
  maxRequests : s.limiter.maxRequests = n
  window : s.limiter.window = 60 * 10 ^ 9
  kept : ∀ clientId, ∃ now ≤ s.clock, (s.limiter.windows clientId).getD [] =
    recent (60 * 10 ^ 9) now (s.allowed clientId)
  few : ∀ clientId, ((s.limiter.windows clientId).getD []).length ≤ n
  limited : ∀ clientId x, (during (60 * 10 ^ 9) x (s.allowed clientId)).length ≤ n

variable {n : ℕ} {s t : Metered} {clientId : String} {now : ℕ}

theorem Sound.timestamps_eq (h : Sound n s) (hnow : s.clock ≤ now) :
    s.limiter.timestamps clientId now = recent (60 * 10 ^ 9) now (s.allowed clientId) := by
  obtain ⟨before, hbefore, hkept⟩ := h.kept clientId
  rw [RateLimiter.timestamps, h.window, hkept, recent_recent (hbefore.trans hnow)]

theorem Sound.length_timestamps (h : Sound n s) (clientId : String) (now : ℕ) :
    (s.limiter.timestamps clientId now).length ≤ n :=
  (List.length_filter_le _ _).trans (h.few clientId)

theorem Sound.length_mod (h : Sound n s) (clientId : String) (now : ℕ) :
    (s.limiter.timestamps clientId now).length % 2 ^ 32 =
      (s.limiter.timestamps clientId now).length := by
  have hle := h.length_timestamps clientId now
  have hlt := s.limiter.maxRequests_lt
  rw [h.maxRequests] at hlt
  exact Nat.mod_eq_of_lt (hle.trans_lt hlt)

theorem Sound.check_eq (h : Sound n s) (hn : 0 < n) (hnow : s.clock ≤ now) :
    s.limiter.check clientId now =
      if (recent (60 * 10 ^ 9) now (s.allowed clientId)).length < n then
        (true, s.limiter.keep clientId (s.limiter.timestamps clientId now ++ [now]))
      else (false, s.limiter.keep clientId (s.limiter.timestamps clientId now)) := by
  have hmax := h.maxRequests
  have hmod := h.length_mod clientId now
  rw [RateLimiter.check, if_neg (by omega), ← h.timestamps_eq hnow]
  by_cases hlt : (s.limiter.timestamps clientId now).length < n
  · simp only [hmod, hmax, hlt, if_true, ge_iff_le, not_le.mpr hlt, if_false]
  · simp only [hmod, hmax, hlt, if_false, ge_iff_le, not_lt.mp hlt, if_true]

theorem Sound.check_iff (h : Sound n s) (hn : 0 < n) (hnow : s.clock ≤ now) :
    (s.limiter.check clientId now).1 = true ↔
      (recent (60 * 10 ^ 9) now (s.allowed clientId)).length < n := by
  rw [h.check_eq hn hnow]
  split_ifs with hlt
  · exact ⟨fun _ => hlt, fun _ => rfl⟩
  · exact ⟨nofun, fun hgt => absurd hgt hlt⟩

theorem Sound.remaining_eq (h : Sound n s) (hn : 0 < n) (hnow : s.clock ≤ now) :
    s.limiter.remaining clientId now =
      (n - (recent (60 * 10 ^ 9) now (s.allowed clientId)).length,
        s.limiter.keep clientId (s.limiter.timestamps clientId now)) := by
  have hmax := h.maxRequests
  have hmod := h.length_mod clientId now
  rw [RateLimiter.remaining, if_neg (by omega), ← h.timestamps_eq hnow]
  simp only [hmod, hmax]

theorem allowed_concat (limiter : RateLimiter) (clock : ℕ) (checks : List (String × ℕ × Bool))
    (c : String × ℕ × Bool) (clientId : String) :
    allowed ⟨limiter, clock, checks ++ [c]⟩ clientId = allowed ⟨limiter, clock, checks⟩ clientId ++
      if c.1 = clientId ∧ c.2.2 = true then [c.2.1] else [] := by
  rw [allowed, List.filterMap_append]
  congr 1
  split_ifs with hc <;> simp [hc]

/-- A call leaves of one client what is recent now, and after it perhaps now itself. -/
theorem Sound.keep (h : Sound n s) (hnow : s.clock ≤ now) {checks : List (String × ℕ × Bool)}
    {added : List ℕ}
    (hadded : added = [] ∨
      added = [now] ∧ (recent (60 * 10 ^ 9) now (s.allowed clientId)).length < n)
    (hallowed : ∀ limiter other, allowed ⟨limiter, now, checks⟩ other =
      s.allowed other ++ if clientId = other then added else []) :
    Sound n ⟨s.limiter.keep clientId (s.limiter.timestamps clientId now ++ added), now, checks⟩ := by
  have hadd : recent (60 * 10 ^ 9) now (s.allowed clientId ++ added) =
      recent (60 * 10 ^ 9) now (s.allowed clientId) ++ added := by
    rcases hadded with rfl | ⟨rfl, -⟩
    · rw [List.append_nil, List.append_nil]
    · exact recent_concat (by decide)
  refine ⟨h.maxRequests, h.window, fun other => ?_, fun other => ?_, fun other x => ?_⟩
  · change ∃ before ≤ now, ((RateLimiter.keep _ _ _).windows other).getD [] = _
    rw [RateLimiter.windows_keep, hallowed]
    by_cases hother : other = clientId
    · subst hother
      refine ⟨now, le_rfl, ?_⟩
      rw [if_pos rfl, if_pos rfl, hadd, h.timestamps_eq hnow]
      rfl
    · obtain ⟨before, hbefore, hkept⟩ := h.kept other
      refine ⟨before, hbefore.trans hnow, ?_⟩
      rw [if_neg (Ne.symm hother), List.append_nil, if_neg hother, hkept]
  · change ((RateLimiter.keep _ _ _).windows other |>.getD []).length ≤ n
    rw [RateLimiter.windows_keep]
    by_cases hother : other = clientId
    · subst hother
      rw [if_pos rfl, Option.getD_some, List.length_append]
      have hle := h.length_timestamps other now
      rcases hadded with rfl | ⟨rfl, hlt⟩
      · simpa using hle
      · rw [h.timestamps_eq hnow]
        exact Nat.succ_le_of_lt hlt
    · rw [if_neg hother]
      exact h.few other
  · rw [hallowed]
    split_ifs with hother
    · subst hother
      rcases hadded with rfl | ⟨rfl, hlt⟩
      · rw [List.append_nil]
        exact h.limited clientId x
      · exact length_during_concat hlt (h.limited clientId) x
    · rw [List.append_nil]
      exact h.limited other x

theorem Sound.step (h : Sound n s) (hn : 0 < n) {c : Call} (horder : InOrder s c)
    (hstep : step s c = some t) : Sound n t := by
  cases c with
  | check clientId now =>
    cases hstep
    have hnow : s.clock ≤ now := horder
    rw [h.check_eq hn hnow]
    split_ifs with hlt
    · exact h.keep hnow (.inr ⟨rfl, hlt⟩) fun limiter other => by
        rw [allowed_concat]
        simp [allowed]
    · have hkeep := @Sound.keep n s clientId now h hnow
        (s.checks ++ [(clientId, now, false)]) [] (.inl rfl) fun limiter other => by
          rw [allowed_concat]
          simp [allowed]
      rwa [List.append_nil] at hkeep
  | remaining clientId now =>
    cases hstep
    have hnow : s.clock ≤ now := horder
    rw [h.remaining_eq hn hnow]
    have hkeep := @Sound.keep n s clientId now h hnow s.checks [] (.inl rfl)
      fun limiter other => by simp [allowed]
    rwa [List.append_nil] at hkeep

theorem sound_new (hn : n < 2 ^ 32) : Sound n (new n hn) where
  maxRequests := rfl
  window := rfl
  kept _ := ⟨0, le_rfl, rfl⟩
  few _ := Nat.zero_le _
  limited _ _ := Nat.zero_le _

/-- A client is let through exactly when fewer requests of it than the limit were let through in the
minute up to now, `remaining` tells how many fewer, and so no minute has more than the limit. -/
theorem limit_exact {n : ℕ} (hn : 0 < n) (hlt : n < 2 ^ 32) {s : Metered}
    (r : Run step InOrder (new n hlt) s) (clientId : String) :
    (∀ now, s.clock ≤ now →
      ((s.limiter.check clientId now).1 = true ↔
        (recent (60 * 10 ^ 9) now (s.allowed clientId)).length < n) ∧
      (s.limiter.remaining clientId now).1 =
        n - (recent (60 * 10 ^ 9) now (s.allowed clientId)).length) ∧
    ∀ x, (during (60 * 10 ^ 9) x (s.allowed clientId)).length ≤ n := by
  have h : Sound n s :=
    r.invariant (fun _ _ _ h horder hstep => h.step hn horder hstep) (sound_new hlt)
  exact ⟨fun now hnow => ⟨h.check_iff hn hnow, congrArg Prod.fst (h.remaining_eq hn hnow)⟩,
    h.limited clientId⟩

/-- Two requests in the first second. -/
def twice : List Call := [.check "a" 1000, .check "a" 1000000]

theorem limit_exact_twice : ∃ s, exec (guarded InOrder step) (new 1 (by decide)) twice = some s ∧
    (during (60 * 10 ^ 9) 0 (s.allowed "a")).length ≤ 1 :=
  ⟨_, rfl, (limit_exact (by decide) (by decide) (run_of_exec (show exec _ _ twice = _ from rfl))
    "a").2 0⟩

end Metered

end NextgenDatabases.Access
