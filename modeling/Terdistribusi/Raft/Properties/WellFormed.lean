import Terdistribusi.Infra.Splice
import Terdistribusi.Raft.Properties.Acts

/-!
# Well-formed logs and messages

Facts about single nodes and single messages, which need no history: the entry at position `i` of a
log has index `i`, terms are positive, and the indices that travel in messages are never below `-1`.

`local_invariant` packages the induction: a property of nodes and a property of messages that every
branch of `Acts` preserves together hold in every state of a run.
-/

namespace Raft

open Infra RaftNode

variable {NodeId Command Result : Type} [DecidableEq NodeId]

/-! ## Invariants of single nodes and messages -/

/-- A property of nodes and one of messages hold everywhere in the cluster. -/
structure Everywhere (P : NodeId → RaftNode NodeId Command Result → Prop)
    (Q : Message NodeId Command → Prop) (s : Cluster NodeId Command Result) : Prop where
  nodes : ∀ a, P a (s.nodes a)
  net : ∀ m ∈ s.net, Q m

theorem everywhere_step {ms : Members NodeId Command Result}
    {P : NodeId → RaftNode NodeId Command Result → Prop} {Q : Message NodeId Command → Prop}
    (hpq : ∀ a n inp n' out, Acts (ms.config a) n inp n' out → P a n →
      (∀ m, inp = .receive m → Q m) → P a n' ∧ ∀ m ∈ out, Q m)
    {s s' : Cluster NodeId Command Result} {e : Event NodeId Command} (h : Everywhere P Q s)
    (hs : step ms s e = some s') : Everywhere P Q s' := by
  rcases step_cases hs with ⟨hn, hm⟩ | ⟨a, inp, hn, hm, hr⟩
  · exact ⟨fun a => hn ▸ h.nodes a, fun m hm' => h.net m (hm m hm')⟩
  · obtain ⟨hP, hQ⟩ := hpq a _ inp _ _ acts_act (h.nodes a) (fun m he => h.net m (hr m he).mem_net)
    refine ⟨fun b => ?_, fun m hm' => (hm m hm').elim (h.net m) (hQ m)⟩
    rw [hn]
    by_cases hb : b = a
    · subst hb; rw [Function.update_self]; exact hP
    · rw [Function.update_of_ne hb]; exact h.nodes b

/-- Properties of nodes and messages that every branch preserves hold throughout a run. -/
theorem local_invariant {ms : Members NodeId Command Result}
    {P : NodeId → RaftNode NodeId Command Result → Prop} {Q : Message NodeId Command → Prop}
    (h0 : ∀ a, P a {})
    (hpq : ∀ a n inp n' out, Acts (ms.config a) n inp n' out → P a n →
      (∀ m, inp = .receive m → Q m) → P a n' ∧ ∀ m ∈ out, Q m)
    (r : ClusterRun ms) : ∀ i ≤ r.length, Everywhere P Q (r.state i) := by
  refine r.invariant ⟨h0, ?_⟩ (fun s e s' h hs => everywhere_step hpq h hs)
  intro m hm
  cases hm

/-! ## Indices and terms of entries -/

omit [DecidableEq NodeId] in
/-- The entries have the indices `k`, `k + 1`, ... and positive terms. -/
def Indexed (k : ℕ) (es : List (LogEntry Command)) : Prop :=
  ∀ i e, es[i]? = some e → e.index = k + i ∧ 1 ≤ e.term

theorem indexed_nil (k : ℕ) : Indexed k ([] : List (LogEntry Command)) := by
  intro i e he
  simp at he

theorem Indexed.of_isPrefix {k : ℕ} {es fs : List (LogEntry Command)} (h : Indexed k fs)
    (hp : es <+: fs) : Indexed k es :=
  fun i e he => h i e (getElem?_of_isPrefix hp he)

theorem Indexed.drop {k : ℕ} {es : List (LogEntry Command)} (h : Indexed k es) (j : ℕ) :
    Indexed (k + j) (es.drop j) := by
  intro i e he
  rw [List.getElem?_drop] at he
  obtain ⟨hi, ht⟩ := h (j + i) e he
  exact ⟨by omega, ht⟩

theorem Indexed.head {k : ℕ} {e : LogEntry Command} {es : List (LogEntry Command)}
    (h : Indexed k (e :: es)) : e.index = k ∧ 1 ≤ e.term :=
  h 0 e rfl

theorem Indexed.tail {k : ℕ} {e : LogEntry Command} {es : List (LogEntry Command)}
    (h : Indexed k (e :: es)) : Indexed (k + 1) es :=
  h.drop 1

theorem Indexed.concat {es : List (LogEntry Command)} {e : LogEntry Command} (h : Indexed 0 es)
    (hi : e.index = es.length) (ht : 1 ≤ e.term) : Indexed 0 (es ++ [e]) := by
  intro i x hx
  rcases Nat.lt_or_ge i es.length with hlt | hge
  · rw [List.getElem?_append_left hlt] at hx
    exact h i x hx
  · rw [List.getElem?_append_right hge, List.getElem?_singleton] at hx
    split at hx
    · obtain rfl := Option.some.inj hx
      exact ⟨by omega, ht⟩
    · cases hx

theorem indexed_insertEntry {log : List (LogEntry Command)} {pos : ℕ} {e : LogEntry Command}
    (h : Indexed 0 log) (hpos : pos ≤ log.length) (hi : e.index = pos) (ht : 1 ≤ e.term) :
    Indexed 0 (insertEntry log pos e) ∧ pos + 1 ≤ (insertEntry log pos e).length := by
  unfold insertEntry
  split
  · next old hold =>
    have hlt : pos < log.length := (List.getElem?_eq_some_iff.mp hold).1
    split
    · have hlen : (log.take pos).length = pos := by rw [List.length_take]; omega
      have htake : log.take pos <+: log := List.take_prefix pos log
      refine ⟨(h.of_isPrefix htake).concat (by omega) ht, ?_⟩
      simp [hpos]
    · exact ⟨h, hlt⟩
  · next hnone =>
    have hge : log.length ≤ pos := List.getElem?_eq_none_iff.mp hnone
    exact ⟨h.concat (by omega) ht, by simp; omega⟩

theorem indexed_insertEntries : ∀ (es log : List (LogEntry Command)) (pos : ℕ), Indexed 0 log →
    pos ≤ log.length → Indexed pos es → Indexed 0 (insertEntries log pos es)
  | [], _, _, h, _, _ => h
  | e :: es, log, pos, h, hpos, hes => by
    obtain ⟨hlog, hlen⟩ := indexed_insertEntry h hpos hes.head.1 hes.head.2
    exact indexed_insertEntries es _ (pos + 1) hlog hlen hes.tail

theorem indexed_batch {log : List (LogEntry Command)} (h : Indexed 0 log) (k : ℤ) :
    Indexed k.toNat (batch log k) := by
  unfold batch
  split
  · have := h.drop k.toNat
    rw [Nat.zero_add] at this
    refine this.of_isPrefix ?_
    exact List.take_prefix 50 _
  · exact indexed_nil _

theorem toNat_le_length_of_appendLogOk {log : List (LogEntry Command)} {pi : ℤ} {pt : ℕ}
    (h : appendLogOk log pi pt = true) : (pi + 1).toNat ≤ log.length := by
  simp only [appendLogOk, Bool.or_eq_true, Bool.and_eq_true, decide_eq_true_eq] at h
  omega

/-! ## The invariant -/

structure NodeOk (n : RaftNode NodeId Command Result) : Prop where
  log : Indexed 0 n.log
  term : n.state ≠ .follower → 1 ≤ n.currentTerm
  next : ∀ p k, n.nextIndex.get? p = some k → 0 ≤ k

def MessageOk (m : Message NodeId Command) : Prop :=
  match m.payload with
  | .appendEntries _ pi _ es _ => -1 ≤ pi ∧ Indexed (pi + 1).toNat es
  | .appendEntriesResponse true k _ => -1 ≤ k
  | _ => True

theorem messageOk_sendAppendEntries {cfg : Config NodeId Command Result}
    {n : RaftNode NodeId Command Result} (h : NodeOk n) (peer : NodeId) :
    MessageOk (sendAppendEntries cfg n peer) := by
  have hk : 0 ≤ (n.nextIndex.get? peer).getD 0 := by
    cases hg : n.nextIndex.get? peer with
    | none => simp
    | some k => exact h.next peer k hg
  refine ⟨by omega, ?_⟩
  rw [show (n.nextIndex.get? peer).getD 0 - 1 + 1 = (n.nextIndex.get? peer).getD 0 by omega]
  exact indexed_batch h.log _

theorem messageOk_broadcastHeartbeat {cfg : Config NodeId Command Result}
    {n : RaftNode NodeId Command Result} (h : NodeOk n) :
    ∀ m ∈ broadcastHeartbeat cfg n, MessageOk m := by
  intro m hm
  obtain ⟨peer, -, rfl⟩ := List.mem_map.mp hm
  exact messageOk_sendAppendEntries h peer

theorem nodeOk_catchUp {n : RaftNode NodeId Command Result} (h : NodeOk n) (term : ℕ) :
    NodeOk (n.catchUp term) := by
  rcases catchUp_cases term n with ⟨-, he⟩ | ⟨-, he⟩ <;> rw [he]
  · exact h
  · exact ⟨h.log, fun hf => absurd rfl hf, h.next⟩

theorem next_set {d : Dict NodeId ℤ} (h : ∀ p k, d.get? p = some k → 0 ≤ k) (peer : NodeId) {v : ℤ}
    (hv : 0 ≤ v) : ∀ p k, (d.set peer v).get? p = some k → 0 ≤ k := by
  intro p k hp
  rw [Dict.get?_set] at hp
  split at hp
  · exact Option.some.inj hp ▸ hv
  · exact h p k hp

theorem nodeOk_appendCommand {n : RaftNode NodeId Command Result} (h : NodeOk n)
    (hl : n.state = .leader) (c : Command) : NodeOk (n.appendCommand c) := by
  have ht : 1 ≤ n.currentTerm := h.term (by rw [hl]; simp)
  exact ⟨h.log.concat rfl ht, fun _ => ht, h.next⟩

/-- A new leader continues behind its own log. -/
theorem nodeOk_becomeLeader {cfg : Config NodeId Command Result}
    {n : RaftNode NodeId Command Result} (h : NodeOk n) (hc : n.state = .candidate) :
    NodeOk (becomeLeader cfg n) := by
  refine ⟨h.log, fun _ => h.term (by rw [hc]; simp), fun p k hp => ?_⟩
  simp only [becomeLeader, Dict.get?_setAll] at hp
  split at hp
  · obtain rfl := Option.some.inj hp
    simp [lastLogIndex]
  · exact h.next p k hp

/-- Every branch keeps nodes and messages well formed. -/
theorem nodeOk_acts {cfg : Config NodeId Command Result} {n n' : RaftNode NodeId Command Result}
    {inp : Input NodeId Command} {out : List (Message NodeId Command)}
    (h : Acts cfg n inp n' out) (hn : NodeOk n) (hinp : ∀ m, inp = .receive m → MessageOk m) :
    NodeOk n' ∧ ∀ m ∈ out, MessageOk m := by
  cases h with
  | idle => exact ⟨hn, by simp⟩
  | timeout =>
    refine ⟨⟨hn.log, fun _ => Nat.succ_pos _, hn.next⟩, fun m hm => ?_⟩
    obtain ⟨peer, -, rfl⟩ := List.mem_map.mp hm
    trivial
  | heartbeat => exact ⟨hn, messageOk_broadcastHeartbeat hn⟩
  | submit c hl =>
    have hn' := nodeOk_appendCommand hn hl c
    exact ⟨hn', messageOk_broadcastHeartbeat hn'⟩
  | submitTimeout k =>
    unfold RaftNode.submitTimeout
    split
    · exact ⟨⟨hn.log, hn.term, hn.next⟩, by simp⟩
    · exact ⟨hn, by simp⟩
  | stepDown m hlt =>
    rw [becomeFollower_of_lt hlt]
    -- only candidates and leaders need a positive term
    exact ⟨⟨hn.log, fun hf => absurd rfl hf, hn.next⟩, by simp⟩
  | deny m c li lt hm => exact ⟨nodeOk_catchUp hn _, by simp [MessageOk, voteResponse]⟩
  | grant m c li lt hm =>
    have hc := nodeOk_catchUp hn m.term
    exact ⟨⟨hc.log, hc.term, hc.next⟩, by simp [MessageOk, voteResponse]⟩
  | gather m v hm hc ht => exact ⟨⟨hn.log, hn.term, hn.next⟩, by simp⟩
  | elected m v hm hc ht hmaj =>
    have hvote : NodeOk { n with votesReceived := insert v n.votesReceived } :=
      ⟨hn.log, hn.term, hn.next⟩
    have hn' : NodeOk (becomeLeader cfg _) := nodeOk_becomeLeader hvote hc
    exact ⟨hn', messageOk_broadcastHeartbeat hn'⟩
  | rejectOld => exact ⟨hn, by simp [MessageOk, appendResponse]⟩
  | reject m a =>
    have hc := nodeOk_catchUp hn m.term
    exact ⟨⟨hc.log, fun hf => absurd rfl hf, hc.next⟩, by simp [MessageOk, appendResponse]⟩
  | accept m a pi pt es lc hm ht hok =>
    have hmok := hinp m rfl
    simp only [MessageOk, hm] at hmok
    have hc := nodeOk_catchUp hn m.term
    refine ⟨⟨?_, ?_, ?_⟩, ?_⟩
    · -- the entries of the batch are indexed from where they are put
      simp only [acceptEntries, followCommit_log]
      exact indexed_insertEntries es _ _ hn.log (toNat_le_length_of_appendLogOk hok) hmok.2
    · simp [acceptEntries]
    · simp only [acceptEntries, followCommit_nextIndex]
      exact hc.next
    · simp only [List.mem_singleton, forall_eq, MessageOk, appendResponse]
      omega
  | ack m k f hm hl =>
    have hmok := hinp m rfl
    simp only [MessageOk, hm] at hmok
    refine ⟨⟨by simpa using hn.log, fun _ => ?_, ?_⟩, by simp⟩
    · simpa using hn.term (by rw [hl]; simp)
    · rw [updateCommitIndex_nextIndex]
      exact next_set hn.next _ (by omega)
  | backOff m k f =>
    exact ⟨⟨hn.log, hn.term, next_set hn.next _ (le_max_left _ _)⟩, by simp⟩

/-- **Logs and messages are well formed throughout a run.** -/
theorem wellFormed {ms : Members NodeId Command Result} (r : ClusterRun ms) :
    ∀ i ≤ r.length, Everywhere (fun _ => NodeOk) MessageOk (r.state i) :=
  local_invariant (fun _ => ⟨indexed_nil 0, fun hf => absurd rfl hf, by simp⟩)
    (fun _ _ _ _ _ h hn hinp => nodeOk_acts h hn hinp) r

end Raft
