import NextgenDatabases.Kraft.Node
import NextgenDatabases.Foundations.Runs
import NextgenDatabases.Foundations.Majority

/-!
# A cluster of KRaft nodes

The nodes and every message that was ever sent. A message may be delivered at
any later point, any number of times or never, so delay, reordering, duplication
and loss are all runs of this system.
-/
namespace NextgenDatabases.Kraft

open Foundations

structure Cluster (N : Type*) where
  node : N → State N
  sent : List (Message N)
  /-- The client calls made so far. -/
  calls : List (CallRef × Command N)
  /-- The answers given so far. -/
  replies : List (CallRef × Reply N)

/-- What can happen next; `now` is the clock of the node that acts. -/
inductive Event (N : Type*) where
  | electionTimeout (p : N) (now : ℕ)
  | heartbeat (p : N)
  | propose (p : N) (ref : CallRef) (command : Command N) (now : ℕ)
  | deliver (m : Message N) (now : ℕ)

/-- The node a message goes to. -/
def Message.dest {N : Type*} : Message N → N
  | .requestVote dest _ | .voteResponse dest _ _ => dest
  | .appendEntries dest _ | .appendEntriesResponse dest _ _ => dest

def Message.input {N : Type*} (now : ℕ) : Message N → Input N
  | .requestVote _ request => .requestVote request
  | .voteResponse _ fromPeer response => .voteResponse fromPeer response now
  | .appendEntries _ request => .appendEntries request now
  | .appendEntriesResponse _ fromPeer response => .appendEntriesResponse fromPeer response now

/-- The node at which an event happens. -/
def Event.node {N : Type*} : Event N → N
  | .electionTimeout p _ | .heartbeat p | .propose p _ _ _ => p
  | .deliver m _ => m.dest

/-- What the node receives. -/
def Event.input {N : Type*} : Event N → Input N
  | .electionTimeout _ now => .electionTimeout now
  | .heartbeat _ => .heartbeat
  | .propose _ ref command now => .propose ref command now
  | .deliver m now => m.input now

namespace Cluster

variable {N : Type*} [DecidableEq N]

/-- Node `p` handles an input. -/
def after (c : Cluster N) (p : N) (i : Input N) : Cluster N :=
  { c with
    node := Function.update c.node p (handle (c.node p) i).1
    sent := c.sent ++ sends (handle (c.node p) i).2
    replies := c.replies ++ answers (handle (c.node p) i).2 }

@[simp] theorem after_self (c : Cluster N) (p : N) (i : Input N) :
    (c.after p i).node p = (handle (c.node p) i).1 :=
  Function.update_self _ _ _

theorem after_of_ne (c : Cluster N) {p q : N} (hq : q ≠ p) (i : Input N) :
    (c.after p i).node q = c.node q :=
  Function.update_of_ne hq _ _

/-- Only sent messages are delivered, and every client call has its own reference. -/
def step (c : Cluster N) : Event N → Option (Cluster N)
  | .electionTimeout p now => some (c.after p (.electionTimeout now))
  | .heartbeat p => some (c.after p .heartbeat)
  | .propose p ref command now =>
    if ref ∈ c.calls.map (·.1) then none
    else some { c.after p (.propose ref command now) with calls := (ref, command) :: c.calls }
  | .deliver m now => if m ∈ c.sent then some (c.after m.dest (m.input now)) else none

/-- In each step one node handles its input. -/
theorem step_spec {c c' : Cluster N} {e : Event N} (hstep : c.step e = some c') :
    c'.node = (c.after e.node e.input).node ∧ c'.sent = (c.after e.node e.input).sent ∧
      ∀ m now, e = .deliver m now → m ∈ c.sent := by
  cases e with
  | electionTimeout p now | heartbeat p =>
    cases hstep
    exact ⟨rfl, rfl, nofun⟩
  | propose p ref command now =>
    simp only [step] at hstep
    split_ifs at hstep
    cases hstep
    exact ⟨rfl, rfl, nofun⟩
  | deliver m now =>
    simp only [step] at hstep
    split_ifs at hstep with hm
    cases hstep
    refine ⟨rfl, rfl, fun m' now' heq => ?_⟩
    cases heq
    exact hm

/-- Every node has just been started, each with all others as its peers. -/
structure Initial (c : Cluster N) : Prop where
  peers_nodup : ∀ p, (c.node p).peers.Nodup
  mem_peers : ∀ p q, q ∈ (c.node p).peers ↔ q ≠ p
  node_fresh : ∀ p, c.node p = State.fresh p (c.node p).peers (c.node p).walPath
  sent_nil : c.sent = []
  calls_nil : c.calls = []
  replies_nil : c.replies = []

/-- Every node has just been started, with any peers but itself. -/
structure Booted (c : Cluster N) : Prop where
  self_notMem : ∀ p, p ∉ (c.node p).peers
  node_fresh : ∀ p, c.node p = State.fresh p (c.node p).peers (c.node p).walPath
  sent_nil : c.sent = []
  calls_nil : c.calls = []
  replies_nil : c.replies = []

omit [DecidableEq N] in
theorem Initial.booted {c : Cluster N} (hi : c.Initial) : c.Booted where
  self_notMem p hp := (hi.mem_peers p p).mp hp rfl
  node_fresh := hi.node_fresh
  sent_nil := hi.sent_nil
  calls_nil := hi.calls_nil
  replies_nil := hi.replies_nil

end Cluster

/-! ### Conditions on the events of a run -/

section Conditions

variable {N : Type*}

/-- No membership change is proposed. -/
def FixedPeers (_ : Cluster N) : Event N → Prop
  | .propose _ _ command _ => ¬ command.IsMembership
  | _ => True

/-- No granted vote of an older term reaches a candidate. -/
def FreshVotes (c : Cluster N) : Event N → Prop
  | .deliver (.voteResponse dest _ response) _ =>
    (c.node dest).role = .candidate → response.voteGranted = true →
      (c.node dest).currentTerm ≤ response.term
  | _ => True

/-- No success response of an older term reaches a leader. -/
def FreshAcks (c : Cluster N) : Event N → Prop
  | .deliver (.appendEntriesResponse dest _ response) _ =>
    (c.node dest).role = .leader → response.success = true →
      (c.node dest).currentTerm ≤ response.term
  | _ => True

/-- The node takes the entries of the request into its log. -/
def Accepted (s : State N) (request : AppendEntriesRequest N) : Prop :=
  s.currentTerm ≤ request.term ∧ prevOk s.log request = true

/-- The log already has all entries of the request in their places. -/
def Held (s : State N) (request : AppendEntriesRequest N) : Prop :=
  request.entries <+: s.log.drop request.prevLogIndex

/-- An accepted request whose entries are all held reaches the end of the log. -/
def NoCut (c : Cluster N) : Event N → Prop
  | .deliver (.appendEntries dest request) _ =>
    Accepted (c.node dest) request → Held (c.node dest) request →
      (c.node dest).log.length = request.prevLogIndex + request.entries.length
  | _ => True

/-- An accepted request knows of all that the node has committed. -/
def KeepsCommit (c : Cluster N) : Event N → Prop
  | .deliver (.appendEntries dest request) _ =>
    Accepted (c.node dest) request → (c.node dest).commitIndex ≤ request.leaderCommit
  | _ => True

instance (c : Cluster N) : DecidablePred (FixedPeers c)
  | .propose _ _ command _ => inferInstanceAs (Decidable (¬ command.IsMembership))
  | .electionTimeout _ _ | .heartbeat _ | .deliver _ _ => isTrue trivial

instance (c : Cluster N) : DecidablePred (FreshVotes c)
  | .deliver (.voteResponse dest _ response) _ =>
    inferInstanceAs (Decidable ((c.node dest).role = .candidate → response.voteGranted = true →
      (c.node dest).currentTerm ≤ response.term))
  | .electionTimeout _ _ | .heartbeat _ | .propose _ _ _ _ => isTrue trivial
  | .deliver (.requestVote _ _) _ | .deliver (.appendEntries _ _) _ => isTrue trivial
  | .deliver (.appendEntriesResponse _ _ _) _ => isTrue trivial

instance (c : Cluster N) : DecidablePred (FreshAcks c)
  | .deliver (.appendEntriesResponse dest _ response) _ =>
    inferInstanceAs (Decidable ((c.node dest).role = .leader → response.success = true →
      (c.node dest).currentTerm ≤ response.term))
  | .electionTimeout _ _ | .heartbeat _ | .propose _ _ _ _ => isTrue trivial
  | .deliver (.requestVote _ _) _ | .deliver (.appendEntries _ _) _ => isTrue trivial
  | .deliver (.voteResponse _ _ _) _ => isTrue trivial

instance (s : State N) (request : AppendEntriesRequest N) : Decidable (Accepted s request) :=
  inferInstanceAs (Decidable (_ ∧ _))

instance [DecidableEq N] (s : State N) (request : AppendEntriesRequest N) :
    Decidable (Held s request) :=
  inferInstanceAs (Decidable (_ <+: _))

instance [DecidableEq N] (c : Cluster N) : DecidablePred (NoCut c)
  | .deliver (.appendEntries dest request) _ =>
    inferInstanceAs (Decidable (Accepted (c.node dest) request → Held (c.node dest) request →
      (c.node dest).log.length = request.prevLogIndex + request.entries.length))
  | .electionTimeout _ _ | .heartbeat _ | .propose _ _ _ _ => isTrue trivial
  | .deliver (.requestVote _ _) _ | .deliver (.voteResponse _ _ _) _ => isTrue trivial
  | .deliver (.appendEntriesResponse _ _ _) _ => isTrue trivial

instance (c : Cluster N) : DecidablePred (KeepsCommit c)
  | .deliver (.appendEntries dest request) _ =>
    inferInstanceAs (Decidable (Accepted (c.node dest) request →
      (c.node dest).commitIndex ≤ request.leaderCommit))
  | .electionTimeout _ _ | .heartbeat _ | .propose _ _ _ _ => isTrue trivial
  | .deliver (.requestVote _ _) _ | .deliver (.voteResponse _ _ _) _ => isTrue trivial
  | .deliver (.appendEntriesResponse _ _ _) _ => isTrue trivial

end Conditions

end NextgenDatabases.Kraft
