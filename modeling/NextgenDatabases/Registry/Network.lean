import NextgenDatabases.Registry.KRaftCluster
import NextgenDatabases.Foundations.Runs
import NextgenDatabases.Foundations.Majority

/-!
# A network of cluster managers

The nodes and every message that was ever sent. A message may be delivered at
any later point, any number of times or never.
-/
namespace NextgenDatabases.Registry

open Foundations

/-- A message, with the node it goes to and, where its content does not say so, the
node it comes from. -/
inductive Message (N : Type*) where
  | voteRequest (dest : N) (request : VoteRequest N)
  | voteResponse (dest fromPeer : N) (response : VoteResponse)
  | appendEntries (dest leader : N) (request : AppendEntriesRequest N)
  | appendEntriesResponse (dest fromPeer : N) (response : AppendEntriesResponse)
deriving DecidableEq, Repr

/-- What can happen next; `now` is the clock of the node that acts. -/
inductive Event (N : Type*) where
  | startElection (p : N) (now : ℕ)
  | heartbeats (p : N)
  | propose (p : N) (command : Command) (now : ℕ)
  | applyCommitted (p : N)
  | deliver (m : Message N) (now : ℕ)

def Message.dest {N : Type*} : Message N → N
  | .voteRequest dest _ | .voteResponse dest _ _ => dest
  | .appendEntries dest _ _ | .appendEntriesResponse dest _ _ => dest

/-- The node at which an event happens. -/
def Event.node {N : Type*} : Event N → N
  | .startElection p _ | .heartbeats p | .propose p _ _ | .applyCommitted p => p
  | .deliver m _ => m.dest

structure Cluster (N : Type*) where
  node : N → ClusterState N
  sent : List (Message N)

variable {N : Type*} [DecidableEq N]

/-- The node after a message, and its answer. -/
def receive (now : ℕ) (s : ClusterState N) : Message N → ClusterState N × List (Message N)
  | .voteRequest dest request =>
    let (s', response) := KRaftCluster.handleVoteRequest now s request
    (s', [.voteResponse request.candidateId dest response])
  | .voteResponse _ fromPeer response =>
    ((KRaftCluster.handleVoteResponse now s fromPeer response).1, [])
  | .appendEntries dest leader request =>
    let (s', response) := KRaftCluster.handleAppendEntries now s request
    (s', [.appendEntriesResponse leader dest response])
  | .appendEntriesResponse _ fromPeer response =>
    (KRaftCluster.handleAppendEntriesResponse now s fromPeer response, [])

/-- The node after an event, and what it sends. -/
def react (s : ClusterState N) : Event N → ClusterState N × List (Message N)
  | .startElection _ now =>
    let (s', requests) := KRaftCluster.startElection now s
    (s', requests.map fun (peer, request) => .voteRequest peer request)
  | .heartbeats p =>
    (s, (KRaftCluster.createHeartbeats s).map fun (peer, request) => .appendEntries peer p request)
  | .propose _ command now => ((KRaftCluster.propose now s command).1, [])
  | .applyCommitted _ => (KRaftCluster.applyCommitted s, [])
  | .deliver m now => receive now s m

namespace Cluster

/-- Node `p` moves on and sends messages. -/
def after (c : Cluster N) (p : N) (out : ClusterState N × List (Message N)) : Cluster N where
  node := Function.update c.node p out.1
  sent := c.sent ++ out.2

/-- Only sent messages are delivered. -/
def step (c : Cluster N) (e : Event N) : Option (Cluster N) :=
  match e with
  | .deliver m _ =>
    if m ∈ c.sent then some (c.after e.node (react (c.node e.node) e)) else none
  | _ => some (c.after e.node (react (c.node e.node) e))

/-- In each step one node reacts, to a sent message if it is one. -/
theorem step_spec {c c' : Cluster N} {e : Event N} (hstep : c.step e = some c') :
    c' = c.after e.node (react (c.node e.node) e) ∧ ∀ m now, e = .deliver m now → m ∈ c.sent := by
  cases e with
  | deliver m now =>
    simp only [step] at hstep
    split_ifs at hstep with hm
    cases hstep
    refine ⟨rfl, fun m' now' heq => ?_⟩
    cases heq
    exact hm
  | startElection p now | heartbeats p | propose p command now | applyCommitted p =>
    cases hstep
    exact ⟨rfl, nofun⟩

@[simp] theorem after_self (c : Cluster N) (p : N) (out : ClusterState N × List (Message N)) :
    (c.after p out).node p = out.1 :=
  Function.update_self _ _ _

theorem after_of_ne (c : Cluster N) {p q : N} (hq : q ≠ p)
    (out : ClusterState N × List (Message N)) : (c.after p out).node q = c.node q :=
  Function.update_of_ne hq _ _

/-- Every node has just been created, with all others as its peers. -/
structure Initial (c : Cluster N) : Prop where
  peers_nodup : ∀ p, (c.node p).config.peers.Nodup
  mem_peers : ∀ p q, q ∈ (c.node p).config.peers ↔ q ≠ p
  node_id : ∀ p, (c.node p).config.nodeId = p
  created : ∀ p, ∃ now, c.node p = KRaftCluster.createCluster now (c.node p).config
  sent_nil : c.sent = []

end Cluster

/-! ### Conditions on the messages of a run -/

section Conditions

/-- A condition on the messages that are delivered, as one on events. -/
def OnDeliver (ok : Message N → Prop) : Event N → Prop
  | .deliver m _ => ok m
  | _ => True

/-- A node that stands for election has a next term, since terms are 32-bit integers. -/
def TermLasts (c : Cluster N) : Event N → Prop
  | .startElection p _ => (c.node p).raft.currentTerm + 1 < 2 ^ 31
  | _ => True

/-- No leader or candidate is asked for a vote in a higher term. -/
def StepsDown (c : Cluster N) : Message N → Prop
  | .voteRequest dest request =>
    (c.node dest).raft.currentTerm < request.term → (c.node dest).raft.role = .follower
  | _ => True

/-- The candidate counts the response. -/
def Counts (s : ClusterState N) (response : VoteResponse) : Prop :=
  response.term ≤ s.raft.currentTerm ∧ response.voteGranted = true ∧ s.raft.role = .candidate

/-- A vote that is counted was granted in the candidate's term. -/
def FreshVotes (c : Cluster N) : Message N → Prop
  | .voteResponse dest _ response =>
    Counts (c.node dest) response → response.term = (c.node dest).raft.currentTerm
  | _ => True

/-- A vote that is counted is the first one from its sender. -/
def NewVoters (c : Cluster N) : Message N → Prop
  | .voteResponse dest fromPeer response =>
    Counts (c.node dest) response → fromPeer ∉ (c.node dest).votesReceived
  | _ => True

/-- A vote in a higher term is asked for by a candidate whose log is at least as up to date. -/
def FairVotes (c : Cluster N) : Message N → Prop
  | .voteRequest dest request =>
    (c.node dest).raft.currentTerm < request.term →
      MetadataLog.logUpToDate (c.node dest).raft request = true
  | _ => True

/-- A success response that a leader takes in is of the leader's term. -/
def FreshAcks (c : Cluster N) : Message N → Prop
  | .appendEntriesResponse dest _ response =>
    (c.node dest).raft.role = .leader → response.success = true →
      (c.node dest).raft.currentTerm ≤ response.term
  | _ => True

/-- The node takes the entries of the request into its log. -/
def Accepted (s : NodeState N) (request : AppendEntriesRequest N) : Prop :=
  s.currentTerm ≤ request.term ∧ MetadataLog.prevOk s.log request

/-- The log already has all entries of the request in their places. -/
def Held (s : NodeState N) (request : AppendEntriesRequest N) : Prop :=
  request.entries <+: s.log.drop request.prevLogIndex

/-- An accepted request whose entries are all held reaches the end of the log. -/
def NoCut (c : Cluster N) : Message N → Prop
  | .appendEntries dest _ request =>
    Accepted (c.node dest).raft request → Held (c.node dest).raft request →
      (c.node dest).raft.log.length = request.prevLogIndex + request.entries.length
  | _ => True

instance {ok : Message N → Prop} [DecidablePred ok] : DecidablePred (OnDeliver ok)
  | .deliver m _ => inferInstanceAs (Decidable (ok m))
  | .startElection _ _ | .heartbeats _ | .propose _ _ _ | .applyCommitted _ => isTrue trivial

instance (c : Cluster N) : DecidablePred (TermLasts c)
  | .startElection p _ => inferInstanceAs (Decidable ((c.node p).raft.currentTerm + 1 < 2 ^ 31))
  | .heartbeats _ | .propose _ _ _ | .applyCommitted _ | .deliver _ _ => isTrue trivial

instance (c : Cluster N) : DecidablePred (StepsDown c)
  | .voteRequest _ _ => inferInstanceAs (Decidable (_ → _))
  | .voteResponse _ _ _ | .appendEntries _ _ _ | .appendEntriesResponse _ _ _ => isTrue trivial

instance (s : ClusterState N) (response : VoteResponse) : Decidable (Counts s response) :=
  inferInstanceAs (Decidable (_ ∧ _ ∧ _))

instance (c : Cluster N) : DecidablePred (FreshVotes c)
  | .voteResponse _ _ _ => inferInstanceAs (Decidable (_ → _))
  | .voteRequest _ _ | .appendEntries _ _ _ | .appendEntriesResponse _ _ _ => isTrue trivial

instance (c : Cluster N) : DecidablePred (NewVoters c)
  | .voteResponse _ _ _ => inferInstanceAs (Decidable (_ → _))
  | .voteRequest _ _ | .appendEntries _ _ _ | .appendEntriesResponse _ _ _ => isTrue trivial

instance (c : Cluster N) : DecidablePred (FairVotes c)
  | .voteRequest _ _ => inferInstanceAs (Decidable (_ → _))
  | .voteResponse _ _ _ | .appendEntries _ _ _ | .appendEntriesResponse _ _ _ => isTrue trivial

instance (c : Cluster N) : DecidablePred (FreshAcks c)
  | .appendEntriesResponse _ _ _ => inferInstanceAs (Decidable (_ → _ → _))
  | .voteRequest _ _ | .voteResponse _ _ _ | .appendEntries _ _ _ => isTrue trivial

instance (s : NodeState N) (request : AppendEntriesRequest N) : Decidable (Accepted s request) :=
  inferInstanceAs (Decidable (_ ∧ _))

instance (s : NodeState N) (request : AppendEntriesRequest N) : Decidable (Held s request) :=
  inferInstanceAs (Decidable (_ <+: _))

instance (c : Cluster N) : DecidablePred (NoCut c)
  | .appendEntries _ _ _ => inferInstanceAs (Decidable (_ → _ → _))
  | .voteRequest _ _ | .voteResponse _ _ _ | .appendEntriesResponse _ _ _ => isTrue trivial

end Conditions

end NextgenDatabases.Registry
