import Terdistribusi.Raft.Properties.Calls

/-!
# The state machine is a replay

What a node has applied are the positions `0`, `1`, ... in order, each once, and a call that has
returned has the callback's reply for the entry that was applied at its index, after exactly the
entries before it (`applied_is_replay`).

Nothing is assumed here: a stale reply or an unverified commit can put a wrong entry at a position,
but no position is left out or applied twice.
-/

namespace Raft

open Infra RaftNode

variable {NodeId Command Result : Type}

/-- The commands of the entries, as the callback has seen them. -/
def commands (es : List (ℤ × LogEntry Command)) : List Command := es.map fun x => x.2.command

namespace RaftNode

/-- Positions and entries of what is applied, and the results of the calls. -/
structure Replayed (cfg : Config NodeId Command Result) (n : RaftNode NodeId Command Result) :
    Prop where
  lastApplied : n.lastApplied + 1 = n.applied.length
  position : ∀ (j : ℕ) x, n.applied[j]? = some x → x.1 = j
  result : ∀ (k : ℕ) (call : Call Command Result) entry result, n.calls[k]? = some call →
    call.fut = .done entry result → n.applied[call.index]? = some ((call.index : ℤ), entry) ∧
      result = cfg.applyCallback (commands (n.applied.take call.index)) entry.command

variable {cfg : Config NodeId Command Result} {n : RaftNode NodeId Command Result}

theorem Replayed.same {m : RaftNode NodeId Command Result} (h : Replayed cfg n)
    (hm : SameCalls n m) : Replayed cfg m := by
  refine ⟨?_, ?_, ?_⟩
  · rw [hm.lastApplied, hm.applied]
    exact h.lastApplied
  · rw [hm.applied]
    exact h.position
  · rw [hm.applied, hm.calls]
    exact h.result

/-- One more entry: what was applied before stays where it is. -/
theorem Replayed.concat {m : RaftNode NodeId Command Result} (h : Replayed cfg n)
    (entry : LogEntry Command) (hla : m.lastApplied = n.lastApplied + 1)
    (happ : m.applied = n.applied ++ [(n.lastApplied + 1, entry)])
    (hnew : ∀ (k : ℕ) (call : Call Command Result) x y, m.calls[k]? = some call →
      call.fut = .done x y → (∃ old : Call Command Result, n.calls[k]? = some old ∧
          old.fut = .done x y ∧ call.index = old.index) ∨
        (call.index = n.applied.length ∧ x = entry ∧
          y = cfg.applyCallback (commands n.applied) entry.command)) : Replayed cfg m := by
  have hlast := h.lastApplied
  refine ⟨?_, fun j x hx => ?_, fun k call x y hcall hdone => ?_⟩
  · rw [hla, happ, List.length_append, List.length_singleton]
    push_cast
    omega
  · rw [happ] at hx
    rcases Nat.lt_or_ge j n.applied.length with hlt | hge
    · rw [List.getElem?_append_left hlt] at hx
      exact h.position j x hx
    · rw [List.getElem?_append_right hge, List.getElem?_singleton] at hx
      split at hx
      · obtain rfl := Option.some.inj hx
        dsimp only
        omega
      · cases hx
  · rw [happ]
    rcases hnew k call x y hcall hdone with ⟨old, hold, hfut, hidx⟩ | ⟨hidx, rfl, rfl⟩
    · obtain ⟨hget, hres⟩ := h.result k old x y hold hfut
      have hlt : old.index < n.applied.length := (List.getElem?_eq_some_iff.mp hget).1
      rw [hidx, List.getElem?_append_left hlt, List.take_append_of_le_length hlt.le]
      exact ⟨hget, hres⟩
    · rw [hidx, List.take_append_of_le_length (Nat.le_refl _), List.take_length, hlast]
      exact ⟨List.getElem?_concat_length, rfl⟩

theorem setResult_of_ne_pending {call : Call Command Result} (h : call.fut ≠ .pending)
    (entry : LogEntry Command) (result : Option Result) : setResult entry result call = call := by
  unfold setResult
  split
  · next hp => exact absurd hp h
  · rfl

/-- A turn of `_apply_committed` that finds its entry. -/
theorem Replayed.applyNext (h : Replayed cfg n) (hcalls : CallsIndexed n) (hlog : Indexed 0 n.log)
    (hread : n.lastApplied < n.lastLogIndex) : Replayed cfg (applyNext cfg n) := by
  have hlast := h.lastApplied
  unfold lastLogIndex at hread
  have hlt : (n.lastApplied + 1).toNat < n.log.length := by omega
  have hentry := List.getElem?_eq_getElem hlt
  generalize n.log[(n.lastApplied + 1).toNat] = entry at hentry
  -- the entry that is applied next has the index of its place among the applied
  have hindex : entry.index = n.applied.length := by
    have := (hlog _ entry hentry).1
    omega
  unfold RaftNode.applyNext
  rw [hentry]
  dsimp only
  cases hfut : n.pendingCommands.get? entry.index with
  | none =>
    refine h.concat entry rfl rfl fun k call x y hcall hdone => ?_
    exact Or.inl ⟨call, hcall, hdone, rfl⟩
  | some fut =>
    refine h.concat entry rfl rfl fun k call x y hcall hdone => ?_
    dsimp only at hcall
    rw [List.getElem?_modify] at hcall
    obtain ⟨old, hold, rfl⟩ := Option.map_eq_some_iff.mp hcall
    split at hdone
    · next hk =>
      subst hk
      obtain ⟨own, hown, hidx⟩ := hcalls entry.index fut hfut
      rw [hold] at hown
      obtain rfl := Option.some.inj hown
      -- a call that has given up keeps its result
      by_cases hpend : old.fut = .pending
      · right
        rw [if_pos rfl]
        simp only [setResult, hpend] at hdone ⊢
        cases hdone
        exact ⟨hidx.trans hindex, rfl, rfl⟩
      · rw [setResult_of_ne_pending hpend] at hdone ⊢
        exact Or.inl ⟨old, hold, hdone, by rw [if_pos rfl]⟩
    · next hk =>
      rw [if_neg hk]
      exact Or.inl ⟨old, hold, hdone, rfl⟩

theorem Replayed.appendCommand (h : Replayed cfg n) (c : Command) :
    Replayed cfg (n.appendCommand c) := by
  refine ⟨h.lastApplied, h.position, fun k call x y hcall hdone => ?_⟩
  simp only [RaftNode.appendCommand] at hcall ⊢
  rcases Nat.lt_or_ge k n.calls.length with hlt | hge
  · rw [List.getElem?_append_left hlt] at hcall
    exact h.result k call x y hcall hdone
  · rw [List.getElem?_append_right hge, List.getElem?_singleton] at hcall
    split at hcall
    · obtain rfl := Option.some.inj hcall
      cases hdone
    · cases hcall

theorem Replayed.submitTimeout (h : Replayed cfg n) (j : ℕ) :
    Replayed cfg (n.submitTimeout j) := by
  unfold RaftNode.submitTimeout
  split
  · refine ⟨h.lastApplied, h.position, fun k call x y hcall hdone => ?_⟩
    dsimp only at hcall ⊢
    rw [List.getElem?_set] at hcall
    split at hcall
    · split at hcall
      · obtain rfl := Option.some.inj hcall
        cases hdone
      · cases hcall
    · exact h.result k call x y hcall hdone
  · exact h

variable [DecidableEq NodeId] {n' : RaftNode NodeId Command Result} {inp : Input NodeId Command}
  {out : List (Message NodeId Command)}

theorem replayed_acts (hacts : Acts cfg n inp n' out) (h : Replayed cfg n)
    (hcalls : CallsIndexed n) (hlog : Indexed 0 n'.log) : Replayed cfg n' := by
  rcases hacts.calls with hm | ⟨m, hm, hle, rfl⟩ | ⟨c, -, rfl⟩ | ⟨k, rfl⟩
  · exact h.same hm
  · rw [applyCommitted_log] at hlog
    suffices hall : Replayed cfg (applyCommitted cfg m) ∧ CallsIndexed (applyCommitted cfg m) ∧
        Indexed 0 (applyCommitted cfg m).log ∧
          (applyCommitted cfg m).commitIndex ≤ (applyCommitted cfg m).lastLogIndex from hall.1
    refine applyCommitted_induction (P := fun m => Replayed cfg m ∧ CallsIndexed m ∧
        Indexed 0 m.log ∧ m.commitIndex ≤ m.lastLogIndex) (fun m hlt hm => ?_)
      ⟨h.same hm, hcalls.same hm, hlog, hle⟩
    · obtain ⟨hr, hc, hl, hle⟩ := hm
      refine ⟨hr.applyNext hc hl (by omega), hc.applyNext cfg, by simpa using hl, ?_⟩
      obtain ⟨_, _, _, _, he⟩ := applyNext_frame cfg m
      rw [he]
      exact hle
  · exact h.appendCommand c
  · exact h.submitTimeout k

/-- Nothing that was applied is taken back. -/
theorem applied_isPrefix_acts (hacts : Acts cfg n inp n' out) : n.applied <+: n'.applied := by
  rcases hacts.calls with hm | ⟨m, hm, -, rfl⟩ | ⟨c, -, rfl⟩ | ⟨k, rfl⟩
  · rw [hm.applied]
  · refine applyCommitted_induction (P := fun m => n.applied <+: m.applied)
      (fun m _ hp => hp.trans ?_) (by rw [hm.applied])
    unfold applyNext
    split
    · exact List.prefix_rfl
    · split <;> exact List.prefix_append _ _
  · exact List.prefix_rfl
  · unfold RaftNode.submitTimeout
    split <;> exact List.prefix_rfl

end RaftNode

/-! ## Runs -/

section

variable [DecidableEq NodeId] {ms : Members NodeId Command Result} (r : ClusterRun ms)

theorem replayed : ∀ i ≤ r.length, ∀ a, Replayed (ms.config a) (nodeAt r i a) := by
  refine r.induction (fun a => ?_) (fun i hi ih a => ?_)
  · rw [nodeAt, r.state_zero]
    exact ⟨rfl, by simp [Cluster.initial], by simp [Cluster.initial]⟩
  · obtain ⟨inp, out, h, -⟩ := node_step r hi a
    exact replayed_acts h (ih a) (callsIndexed r i hi.le a) ((wellFormed r (i + 1) hi).nodes a).log

theorem applied_mono {i j : ℕ} (hij : i ≤ j) (hj : j ≤ r.length) (a : NodeId) :
    (nodeAt r i a).applied <+: (nodeAt r j a).applied := by
  refine r.rel (R := fun s s' => (s.nodes a).applied <+: (s'.nodes a).applied)
    (fun _ => List.prefix_rfl) (fun _ _ _ => List.IsPrefix.trans) (fun i hi => ?_) hij hj
  obtain ⟨inp, out, h, -⟩ := node_step r hi a
  exact applied_isPrefix_acts h

/-- **The state machine of a node is a replay**, in every run. What it has applied are the positions
up to `last_applied`, in order and each once; it only grows; and a call that has returned has the
callback's reply for the entry at its index, after the entries before it. -/
theorem applied_is_replay {i : ℕ} (hi : i ≤ r.length) (a : NodeId) :
    (nodeAt r i a).applied.map Prod.fst =
        (List.range ((nodeAt r i a).lastApplied + 1).toNat).map Int.ofNat ∧
      (∀ j ≤ i, (nodeAt r j a).applied <+: (nodeAt r i a).applied) ∧
      ∀ call ∈ (nodeAt r i a).calls, ∀ entry result, call.fut = .done entry result →
        (nodeAt r i a).applied[call.index]? = some ((call.index : ℤ), entry) ∧
          result = ms.applyCallback a (commands ((nodeAt r i a).applied.take call.index))
            entry.command := by
  have h := replayed r i hi a
  refine ⟨?_, fun j hj => applied_mono r hj hi a, fun call hcall entry result hdone => ?_⟩
  · rw [h.lastApplied, Int.toNat_natCast]
    refine List.ext_getElem (by simp) fun j hj hj' => ?_
    rw [List.getElem_map, List.getElem_map, List.getElem_range]
    exact h.position j _ (List.getElem?_eq_getElem (by simpa using hj))
  · obtain ⟨k, hk⟩ := List.getElem?_of_mem hcall
    exact h.result k call entry result hk hdone

end

theorem applied_is_replay_replication :
    (nodeAt replication 6 0).applied.map Prod.fst =
        (List.range ((nodeAt replication 6 0).lastApplied + 1).toNat).map Int.ofNat ∧
      (nodeAt replication 6 0).lastApplied = 0 :=
  ⟨(applied_is_replay replication (i := 6) (by decide) 0).1, by decide +kernel⟩

end Raft
