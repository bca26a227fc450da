import Terdistribusi.Raft.Properties.LeaderCommit

/-!
# What resolves a `submit`

A pending future is found by the index of the entry that is applied. `CallsOk` says that the entry
at that index is still the one that the call appended. Only a batch that cuts the log off at or
before such an index breaks it (`orphansCall`), and where that never happens, every call is resolved
by its own entry (`submit_resolved_by_own_entry`).
-/

namespace Raft

open Infra RaftNode

section

variable {NodeId Command Result : Type}

/-- A batch is accepted that cuts the log off at or before an index with a pending future. -/
def orphansCall (n : RaftNode NodeId Command Result) (m : Message NodeId Command) : Bool :=
  match m.payload with
  | .appendEntries _ pi pt es _ =>
    n.currentTerm ≤ m.term && appendLogOk n.log pi pt &&
      (firstConflict LogEntry.term n.log (pi + 1).toNat es).any fun p =>
        n.pendingCommands.keys.any fun k => p ≤ k
  | _ => false

namespace RaftNode

/-- Pending futures belong to entries that are still in the log, and the futures that are done were
resolved by the entries of their calls. -/
structure CallsOk (n : RaftNode NodeId Command Result) : Prop where
  pending : ∀ index fut, n.pendingCommands.get? index = some fut →
    ∃ call, n.calls[fut]? = some call ∧ n.log[index]? = some call.entry
  resolved : ∀ (k : ℕ) (call : Call Command Result) (entry : LogEntry Command)
    (result : Option Result), n.calls[k]? = some call → call.fut = .done entry result →
      entry = call.entry

theorem callsOk_initial : CallsOk ({} : RaftNode NodeId Command Result) :=
  ⟨by simp, by simp⟩

/-! ## Resolving -/

@[simp] theorem setResult_entry (entry : LogEntry Command) (result : Option Result)
    (call : Call Command Result) : (setResult entry result call).entry = call.entry := by
  unfold setResult
  split <;> rfl

/-- A call is resolved by the entry that is given, or was resolved before. -/
theorem setResult_fut {entry x : LogEntry Command} {result y : Option Result}
    {call : Call Command Result} (h : (setResult entry result call).fut = .done x y) :
    x = entry ∨ call.fut = .done x y := by
  unfold setResult at h
  split at h
  · cases h
    exact Or.inl rfl
  · exact Or.inr h

variable {cfg : Config NodeId Command Result} {n n' : RaftNode NodeId Command Result}

/-- One turn of `_apply_committed`: the future that it finds is that of the entry it applies. -/
theorem CallsOk.applyNext (h : CallsOk n) (hlog : Indexed 0 n.log) : CallsOk (applyNext cfg n) := by
  unfold RaftNode.applyNext
  split
  · exact ⟨h.pending, h.resolved⟩
  · next entry hentry =>
    split
    · exact ⟨h.pending, h.resolved⟩
    · next fut hfut =>
      obtain ⟨own, hown, hget⟩ := h.pending entry.index fut hfut
      -- the entry has the index under which its call waits, so it is the call's own
      have hindex : entry.index = (n.lastApplied + 1).toNat := by
        have := (hlog _ entry hentry).1
        omega
      rw [hindex, hentry] at hget
      obtain rfl : entry = own.entry := Option.some.inj hget
      refine ⟨fun index k hk => ?_, fun k call x y hcall hdone => ?_⟩
      · rw [Dict.get?_erase] at hk
        split at hk
        · cases hk
        · obtain ⟨call, hcall, hc⟩ := h.pending index k hk
          rw [List.getElem?_modify]
          split
          · next hkf =>
            rw [hcall]
            exact ⟨_, rfl, by rw [setResult_entry]; exact hc⟩
          · rw [hcall]
            exact ⟨call, rfl, hc⟩
      · rw [List.getElem?_modify] at hcall
        split at hcall
        · next hkf =>
          rw [← hkf, hown] at hcall
          obtain rfl := Option.some.inj hcall
          rw [setResult_entry]
          rcases setResult_fut hdone with hx | hold
          · exact hx
          · exact h.resolved fut own x y hown hold
        · obtain ⟨call', hcall', rfl⟩ := Option.map_eq_some_iff.mp hcall
          exact h.resolved k call' x y hcall' hdone

theorem CallsOk.applyCommitted (h : CallsOk n) (hlog : Indexed 0 n.log) :
    CallsOk (applyCommitted cfg n) := by
  have key : ∀ k, CallsOk ((RaftNode.applyNext cfg)^[k] n) := by
    intro k
    induction k with
    | zero => exact h
    | succ k ih =>
      rw [Function.iterate_succ_apply']
      exact ih.applyNext (by rw [iterate_applyNext_log]; exact hlog)
  exact key _

/-! ## The other branches -/

/-- A new entry comes with a new call. -/
theorem CallsOk.appendCommand (h : CallsOk n) (c : Command) : CallsOk (n.appendCommand c) := by
  refine ⟨fun index fut hfut => ?_, fun k call x y hcall hdone => ?_⟩
  · simp only [RaftNode.appendCommand, Dict.get?_set] at hfut ⊢
    split at hfut
    · next hi =>
      obtain rfl := Option.some.inj hfut
      refine ⟨_, List.getElem?_concat_length, ?_⟩
      rw [← hi]
      exact List.getElem?_concat_length
    · obtain ⟨call, hcall, hget⟩ := h.pending index fut hfut
      exact ⟨call, getElem?_of_isPrefix (List.prefix_append _ _) hcall,
        getElem?_of_isPrefix (List.prefix_append _ _) hget⟩
  · simp only [RaftNode.appendCommand] at hcall
    rcases Nat.lt_or_ge k n.calls.length with hlt | hge
    · rw [List.getElem?_append_left hlt] at hcall
      exact h.resolved k call x y hcall hdone
    · rw [List.getElem?_append_right hge, List.getElem?_singleton] at hcall
      split at hcall
      · obtain rfl := Option.some.inj hcall
        cases hdone
      · cases hcall

/-- A call that times out takes its future with it. -/
theorem CallsOk.submitTimeout (h : CallsOk n) (k : ℕ) : CallsOk (n.submitTimeout k) := by
  unfold RaftNode.submitTimeout
  split
  · next index entry hk =>
    have hlt : k < n.calls.length := (List.getElem?_eq_some_iff.mp hk).1
    refine ⟨fun i fut hfut => ?_, fun j call x y hcall hdone => ?_⟩
    · rw [Dict.get?_erase] at hfut
      split at hfut
      · cases hfut
      · obtain ⟨call, hcall, hget⟩ := h.pending i fut hfut
        rw [List.getElem?_set]
        split
        · next hkf =>
          rw [← hkf, hk] at hcall
          obtain rfl := Option.some.inj hcall
          exact ⟨_, rfl, hget⟩
        · exact ⟨call, hcall, hget⟩
    · rw [List.getElem?_set] at hcall
      split at hcall
      · obtain rfl := Option.some.inj hcall
        cases hdone
      · exact h.resolved j call x y hcall hdone
  · exact h

theorem CallsOk.catchUp (h : CallsOk n) (term : ℕ) : CallsOk (n.catchUp term) := by
  rcases catchUp_cases term n with ⟨-, he⟩ | ⟨-, he⟩ <;> rw [he]
  · exact h
  · exact ⟨h.pending, h.resolved⟩

/-- A batch that cuts the log off behind all pending futures keeps their entries. -/
theorem CallsOk.insertEntries (h : CallsOk n) {m : Message NodeId Command} {a : NodeId} {pi : ℤ}
    {pt : ℕ} {es : List (LogEntry Command)} {lc : ℤ} (hm : m.payload = .appendEntries a pi pt es lc)
    (ht : n.currentTerm ≤ m.term) (hok : appendLogOk n.log pi pt = true)
    (hno : orphansCall n m = false) :
    CallsOk { n.followLeader m.term a with log := insertEntries n.log (pi + 1).toNat es } := by
  refine ⟨fun index fut hfut => ?_, (h.catchUp m.term).resolved⟩
  obtain ⟨call, hcall, hget⟩ := (h.catchUp m.term).pending index fut hfut
  refine ⟨call, hcall, ?_⟩
  rw [catchUp_log] at hget
  dsimp only
  have hkey : index ∈ n.pendingCommands.keys := by
    have hk := Dict.mem_keys_of_get? hfut
    rcases catchUp_cases m.term n with ⟨-, he⟩ | ⟨-, he⟩ <;> rw [followLeader, he] at hk <;>
      exact hk
  have hbehind : ∀ p, firstConflict LogEntry.term n.log (pi + 1).toNat es = some p →
      index + 1 ≤ p := by
    intro p hp
    have hnot := hno
    simp only [orphansCall, hm, ht, hok, hp, decide_true, Bool.true_and, Option.any_some,
      List.any_eq_false, decide_eq_true_eq] at hnot
    have := hnot index hkey
    omega
  rw [insertEntries_eq_splice]
  refine getElem?_of_isPrefix (take_splice es _ hbehind) ?_
  rw [List.getElem?_take_of_lt (Nat.lt_succ_self index)]
  exact hget

variable [DecidableEq NodeId]

/-- Every branch that orphans no call keeps the calls in order. -/
theorem callsOk_acts {inp : Input NodeId Command} {out : List (Message NodeId Command)}
    (hacts : Acts cfg n inp n' out) (h : CallsOk n) (hlog : Indexed 0 n.log)
    (hlog' : Indexed 0 n'.log) (hno : ∀ m, inp = .receive m → orphansCall n m = false) :
    CallsOk n' := by
  cases hacts with
  | submit c => exact h.appendCommand c
  | submitTimeout k => exact h.submitTimeout k
  | stepDown m hlt =>
    rw [becomeFollower_of_lt hlt]
    exact ⟨h.pending, h.resolved⟩
  | deny m => exact h.catchUp m.term
  | grant m => exact ⟨(h.catchUp m.term).pending, (h.catchUp m.term).resolved⟩
  | reject m => exact ⟨(h.catchUp m.term).pending, (h.catchUp m.term).resolved⟩
  | accept m a pi pt es lc hm ht hok =>
    have hins := h.insertEntries hm ht hok (hno m rfl)
    simp only [acceptEntries, followCommit_log] at hlog'
    unfold acceptEntries
    rcases followCommit_cases cfg lc { n.followLeader m.term a with
        log := RaftNode.insertEntries n.log (pi + 1).toNat es } with ⟨-, he⟩ | ⟨-, he⟩ <;> rw [he]
    · exact hins
    · exact CallsOk.applyCommitted ⟨hins.pending, hins.resolved⟩ hlog'
  | ack m k f =>
    rcases updateCommitIndex_cases cfg { n with
        matchIndex := n.matchIndex.set f k, nextIndex := n.nextIndex.set f (k + 1) } with
      he | ⟨c, -, -, -, he⟩ <;> rw [he]
    · exact ⟨h.pending, h.resolved⟩
    · exact CallsOk.applyCommitted ⟨h.pending, h.resolved⟩ hlog
  | idle | timeout | heartbeat | gather | elected | rejectOld | backOff =>
    exact ⟨h.pending, h.resolved⟩

end RaftNode

/-! ## Runs -/

variable [DecidableEq NodeId] {ms : Members NodeId Command Result} (r : ClusterRun ms)

theorem callsOk (hno : ∀ i < r.length, atDelivery orphansCall (r.state i) (r.event i) = false) :
    ∀ i ≤ r.length, ∀ a, CallsOk (nodeAt r i a) := by
  refine r.induction (fun a => ?_) (fun i hi ih a => ?_)
  · rw [nodeAt, r.state_zero]
    exact callsOk_initial
  · obtain ⟨inp, out, h, hr⟩ := node_step r hi a
    exact callsOk_acts h (ih a) ((wellFormed r i hi.le).nodes a).log
      ((wellFormed r (i + 1) hi).nodes a).log fun m hinp => (hr m hinp).eq_false (hno i hi)

/-- **A call is resolved by the entry it appended**, in every run in which no batch cuts the log off
at or before an index with a pending future. -/
theorem submit_resolved_by_own_entry
    (hno : ∀ i < r.length, atDelivery orphansCall (r.state i) (r.event i) = false) {i : ℕ}
    (hi : i ≤ r.length) {a : NodeId} {call : Call Command Result}
    (hcall : call ∈ (nodeAt r i a).calls) {entry : LogEntry Command} {result : Option Result}
    (hdone : call.fut = .done entry result) : entry = call.entry := by
  obtain ⟨k, hk⟩ := List.getElem?_of_mem hcall
  exact (callsOk r hno i hi a).resolved k call entry result hk hdone

end

theorem submit_resolved_replication :
    (⟨0, ⟨1, 0, 7⟩, .done ⟨1, 0, 7⟩ (some 7)⟩ : Call ℕ ℕ) ∈ (nodeAt replication 6 0).calls ∧
      (⟨1, 0, 7⟩ : LogEntry ℕ) = ⟨1, 0, 7⟩ := by
  have hcall : (⟨0, ⟨1, 0, 7⟩, .done ⟨1, 0, 7⟩ (some 7)⟩ : Call ℕ ℕ) ∈
      (nodeAt replication 6 0).calls := by decide +kernel
  exact ⟨hcall, submit_resolved_by_own_entry replication (by decide +kernel) (i := 6) (by decide)
    hcall rfl⟩

/-! ## A call that is resolved by another command -/

/-- The first call of node 0 submits 10 in term 1 and is resolved by the command 20 of term 2. -/
theorem staleCommit_resolved_by_other :
    (⟨0, ⟨1, 0, 10⟩, .done ⟨2, 0, 20⟩ (some 20)⟩ : Call ℕ ℕ) ∈ (nodeAt staleCommit 28 0).calls ∧
      (⟨2, 0, 20⟩ : LogEntry ℕ) ≠ ⟨1, 0, 10⟩ := by
  decide +kernel

end Raft
