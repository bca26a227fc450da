import Terdistribusi.Infra.Linearization
import Terdistribusi.Raft.Properties.Replay
import Terdistribusi.Raft.Properties.StateMachine
import Mathlib.Data.Finset.Max

/-!
# `submit` is linearizable

The calls of `submit` that have returned, at any node, behave like the operations on one object
(`submit_linearizable`): one sequence of commands explains all of their results, and a call that
returned before another one was made comes before it in the sequence. The place of a call is the
index of its entry.

* `exists_submission` — when a call was made: its node led, and the call's index was the end of
  the log
* `index_injective` — no two calls get one place
* `index_lt_of_returned` — real time: an entry that is applied anywhere is in the log of its author,
  so that author cannot make the entry again later

The first and the last hold in every run. That the nodes apply one sequence needs the conditions of
state machine safety, and that a call gets its own result that no pending call is cut off.
-/

namespace Raft

open Infra RaftNode

section

variable {NodeId Command Result : Type} [DecidableEq NodeId]

namespace RaftNode

variable {cfg : Config NodeId Command Result} {n n' : RaftNode NodeId Command Result}
  {inp : Input NodeId Command} {out : List (Message NodeId Command)}

omit [DecidableEq NodeId] in
/-- Applying keeps the index and the entry of every call. -/
theorem calls_applyNext (cfg : Config NodeId Command Result) {k : ℕ} {call : Call Command Result}
    (h : (applyNext cfg n).calls[k]? = some call) : ∃ old, n.calls[k]? = some old ∧
      old.index = call.index ∧ old.entry = call.entry := by
  unfold applyNext at h
  split at h
  · exact ⟨call, h, rfl, rfl⟩
  · split at h
    · exact ⟨call, h, rfl, rfl⟩
    · dsimp only at h
      rw [List.getElem?_modify] at h
      obtain ⟨old, hold, rfl⟩ := Option.map_eq_some_iff.mp h
      refine ⟨old, hold, ?_, ?_⟩
      · split
        · rw [setResult_index]
        · rfl
      · split
        · rw [setResult_entry]
        · rfl

/-- A call was there before, or is made in this step by a leader. -/
theorem calls_acts (hacts : Acts cfg n inp n' out) {k : ℕ} {call : Call Command Result}
    (h : n'.calls[k]? = some call) :
    (∃ old, n.calls[k]? = some old ∧ old.index = call.index ∧ old.entry = call.entry) ∨
      (n.state = .leader ∧ k = n.calls.length ∧ call.index = n.log.length ∧
        call.entry.index = n.log.length ∧ call.entry.term = n.currentTerm ∧
        n'.log = n.log ++ [call.entry]) := by
  rcases hacts.calls with hm | ⟨m, hm, -, rfl⟩ | ⟨c, hl, rfl⟩ | ⟨j, rfl⟩
  · rw [hm.calls] at h
    exact Or.inl ⟨call, h, rfl, rfl⟩
  · left
    rw [← hm.calls]
    -- applying entries resolves calls, and leaves their index and entry
    refine applyCommitted_induction
      (P := fun x => ∀ call, x.calls[k]? = some call → ∃ old, m.calls[k]? = some old ∧
        old.index = call.index ∧ old.entry = call.entry) (fun x _ hx call hcall => ?_)
      (fun call hcall => ⟨call, hcall, rfl, rfl⟩) call h
    obtain ⟨old, hold, hi, he⟩ := calls_applyNext cfg hcall
    obtain ⟨first, hfirst, hi', he'⟩ := hx old hold
    exact ⟨first, hfirst, hi'.trans hi, he'.trans he⟩
  · simp only [RaftNode.appendCommand] at h ⊢
    -- an old call, or the one that `submit` appends
    rcases Nat.lt_or_ge k n.calls.length with hlt | hge
    · rw [List.getElem?_append_left hlt] at h
      exact Or.inl ⟨call, h, rfl, rfl⟩
    · rw [List.getElem?_append_right hge, List.getElem?_singleton] at h
      split at h
      · obtain rfl := Option.some.inj h
        exact Or.inr ⟨hl, by omega, rfl, rfl, rfl, rfl⟩
      · cases h
  · left
    unfold RaftNode.submitTimeout at h
    split at h
    · next index entry hj =>
      dsimp only at h
      rw [List.getElem?_set] at h
      split at h
      · next hjk =>
        subst hjk
        split at h
        · obtain rfl := Option.some.inj h
          exact ⟨_, hj, rfl, rfl⟩
        · cases h
      · exact ⟨call, h, rfl, rfl⟩
    · exact ⟨call, h, rfl, rfl⟩

/-- A step keeps the log, takes a call in, or adopts a batch. -/
theorem Acts.entries (h : Acts cfg n inp n' out) : n'.log = n.log ∨
    (∃ c, n.state = .leader ∧ n' = n.appendCommand c) ∨
    ∃ m a pi pt es lc, inp = .receive m ∧ m.payload = .appendEntries a pi pt es lc ∧
      appendLogOk n.log pi pt = true ∧ n'.log = RaftNode.insertEntries n.log (pi + 1).toNat es := by
  cases h with
  | submit c hl => exact Or.inr (Or.inl ⟨c, hl, rfl⟩)
  | accept m a pi pt es lc hm ht hok =>
    exact Or.inr (Or.inr ⟨m, a, pi, pt, es, lc, rfl, hm, hok, by simp [acceptEntries]⟩)
  | submitTimeout k =>
    left
    unfold RaftNode.submitTimeout
    split <;> rfl
  | stepDown => exact Or.inl (becomeFollower_log _ _)
  | deny => exact Or.inl (catchUp_log _ _)
  | grant => exact Or.inl (catchUp_log _ _)
  | reject => exact Or.inl (followLeader_log _ _ _)
  | ack => exact Or.inl (by simp)
  | idle | timeout | heartbeat | gather | elected | rejectOld | backOff => exact Or.inl rfl

end RaftNode

/-! ## When a call was made -/

variable {ms : Members NodeId Command Result} (r : ClusterRun ms)

/-- At time `j` node `a`, as a leader, makes the call number `k` with this index and entry. -/
structure Submission (j : ℕ) (a : NodeId) (k : ℕ) (call : Call Command Result) : Prop where
  lt_length : j < r.length
  leads : (nodeAt r j a).state = .leader
  number : k = (nodeAt r j a).calls.length
  index : call.index = (nodeAt r j a).log.length
  entry : call.entry.index = call.index
  term : call.entry.term = (nodeAt r j a).currentTerm
  log : (nodeAt r (j + 1) a).log = (nodeAt r j a).log ++ [call.entry]
  made : k < (nodeAt r (j + 1) a).calls.length

/-- Every call was made at some time before. -/
theorem exists_submission {a : NodeId} {k : ℕ} : ∀ i ≤ r.length, ∀ {call : Call Command Result},
    (nodeAt r i a).calls[k]? = some call → ∃ j < i, Submission r j a k call := by
  refine r.induction (fun {call} h => ?_) (fun i hi ih {call} h => ?_)
  · rw [nodeAt, r.state_zero] at h
    simp [Cluster.initial] at h
  · obtain ⟨inp, out, hacts, -⟩ := node_step r hi a
    rcases calls_acts hacts h with ⟨old, hold, hidx, hent⟩ | ⟨hl, hk, hi', he, ht, hlog⟩
    · obtain ⟨j, hj, hs⟩ := ih hold
      refine ⟨j, by omega, hs.lt_length, hs.leads, hs.number, ?_, ?_, ?_, ?_, hs.made⟩
      · rw [← hidx, hs.index]
      · rw [← hidx, ← hent, hs.entry]
      · rw [← hent, hs.term]
      · rw [← hent, hs.log]
    · exact ⟨i, Nat.lt_succ_self i, hi, hl, hk, hi', by rw [he, hi'], ht, hlog,
        (List.getElem?_eq_some_iff.mp h).1⟩

variable {r}

namespace Submission

variable {j j' i : ℕ} {a b : NodeId} {k k' : ℕ} {call call' : Call Command Result}

/-- A call that is not yet made at time `i` is made later. -/
theorem le_of_length (h : Submission r j a k call) (hi : i ≤ r.length)
    (hk : (nodeAt r i a).calls.length ≤ k) : i ≤ j := by
  by_contra hlt
  have hmono : (nodeAt r (j + 1) a).calls.length ≤ (nodeAt r i a).calls.length :=
    r.rel (R := fun s s' => (s.nodes a).calls.length ≤ (s'.nodes a).calls.length)
      (fun _ => Nat.le_refl _) (fun _ _ _ => Nat.le_trans) (fun i hi => by
        obtain ⟨inp, out, hacts, -⟩ := node_step r hi a
        exact length_calls_acts hacts) (by omega) hi
  have := h.made
  omega

/-- A call is made once. -/
theorem unique (h : Submission r j a k call) (h' : Submission r j' a k call') : j = j' :=
  Nat.le_antisymm (h'.le_of_length h.lt_length.le h.number.ge)
    (h.le_of_length h'.lt_length.le h'.number.ge)

/-- Both sides of a call that is made once. -/
theorem same (h : Submission r j a k call) (h' : Submission r j' a k call') :
    call.index = call'.index ∧ call.entry = call'.entry := by
  obtain rfl := h.unique h'
  have hlog := h.log
  rw [h'.log] at hlog
  have hent := List.append_cancel_left hlog
  exact ⟨h.index.trans h'.index.symm, (List.cons.inj hent).1.symm⟩

variable [Fintype NodeId]

/-- As long as the leader's term lasts its log reaches behind the entry. -/
theorem index_lt (h : Submission r j a k call) (hji : j < i) (hi : i ≤ r.length)
    (hl : (nodeAt r i a).state = .leader)
    (ht : (nodeAt r i a).currentTerm = call.entry.term) :
    call.index < (nodeAt r i a).log.length := by
  have hterm : (nodeAt r j a).currentTerm = (nodeAt r i a).currentTerm := by
    rw [ht, h.term]
  obtain ⟨hl', ht'⟩ := (history r).leads_between (Nat.le_succ j) hji hi h.leads hl hterm
  have hgrow := ((history r).leader_log_mono hji hi hl' hl ht').length_le
  have hlen : (nodeAt r (j + 1) a).log.length = call.index + 1 := by
    rw [h.log, List.length_append, List.length_singleton, h.index]
  have : (nodeAt r (j + 1) a).log.length ≤ (nodeAt r i a).log.length := hgrow
  omega

/-- Two calls with one entry are the same call. -/
theorem eq_of_entry (h : Submission r j a k call) (h' : Submission r j' b k' call')
    (he : call.entry = call'.entry) : a = b ∧ k = k' := by
  have hterm : (nodeAt r j a).currentTerm = (nodeAt r j' b).currentTerm := by
    rw [← h.term, ← h'.term, he]
  obtain rfl := (history r).leader_unique h.lt_length.le h'.lt_length.le h.leads h'.leads hterm
  have hidx : call.index = call'.index := by rw [← h.entry, ← h'.entry, he]
  refine ⟨rfl, ?_⟩
  rcases Nat.lt_trichotomy j j' with hlt | rfl | hgt
  · have := h.index_lt hlt h'.lt_length.le h'.leads (by rw [← h'.term, he])
    rw [← h'.index] at this
    omega
  · rw [h.number, h'.number]
  · have := h'.index_lt hgt h.lt_length.le h.leads (by rw [← h.term, he])
    rw [← h.index] at this
    omega

/-- No log has the entry of a call before the call is made. -/
theorem not_logged (h : Submission r j b k call) (hij : i ≤ j) (a : NodeId) :
    (nodeAt r i a).log[call.index]? ≠ some call.entry := by
  intro hget
  have hi : i ≤ r.length := hij.trans h.lt_length.le
  obtain ⟨t, hti, c, hl, ht, hp⟩ := (history r).matched hi a call.index call.entry hget
  have htj : t ≤ j := hti.trans hij
  have hterm : (nodeAt r t c).currentTerm = (nodeAt r j b).currentTerm := ht.trans h.term
  obtain rfl := (history r).leader_unique (hti.trans hi) h.lt_length.le hl h.leads hterm
  have hgrow := ((history r).leader_log_mono htj h.lt_length.le hl h.leads hterm).length_le
  have hlen := hp.length_le
  have hlt : call.index < (nodeAt r i a).log.length := (List.getElem?_eq_some_iff.mp hget).1
  have htake : (((history r).log i a).take (call.index + 1)).length = call.index + 1 := by
    show ((nodeAt r i a).log.take (call.index + 1)).length = call.index + 1
    rw [List.length_take]
    omega
  have hend : ((history r).log j c).length = call.index := h.index.symm
  omega

end Submission

/-! ## What is applied -/

variable (r)

/-- An entry that is applied was in the node's log at its position. -/
theorem applied_was_logged (a : NodeId) : ∀ i ≤ r.length, ∀ x ∈ (nodeAt r i a).applied,
    ∃ t ≤ i, (nodeAt r t a).log[x.1.toNat]? = some x.2 := by
  refine r.induction (fun x hx => ?_) (fun i hi ih x hx => ?_)
  · rw [nodeAt, r.state_zero] at hx
    simp [Cluster.initial] at hx
  · obtain ⟨inp, out, hacts, -⟩ := node_step r hi a
    have hold : x ∈ (nodeAt r i a).applied →
        ∃ t ≤ i + 1, (nodeAt r t a).log[x.1.toNat]? = some x.2 := by
      intro hx
      obtain ⟨t, ht, hget⟩ := ih x hx
      exact ⟨t, ht.trans i.le_succ, hget⟩
    rcases hacts.commit with hsame | hc
    · exact hold (hsame.applied ▸ hx)
    · rcases hc.applied.2 x hx with hx | ⟨-, -, hget⟩
      · exact hold hx
      · exact ⟨i + 1, Nat.le_refl _, hget⟩

/-- Up to time `i` a call was made with the entry `e`. -/
def Submitted (i : ℕ) (e : LogEntry Command) : Prop :=
  ∃ j < i, ∃ a k, ∃ call : Call Command Result, Submission r j a k call ∧ call.entry = e

variable {r}

theorem Submitted.mono {i i' : ℕ} {e : LogEntry Command} (h : Submitted r i e) (hii : i ≤ i') :
    Submitted r i' e := by
  obtain ⟨j, hj, rest⟩ := h
  exact ⟨j, by omega, rest⟩

theorem submitted_step {i : ℕ} (hi : i < r.length)
    (ih : ∀ i' ≤ i, ∀ a, ∀ e ∈ (nodeAt r i' a).log, Submitted r i' e) {a : NodeId}
    {e : LogEntry Command} (he : e ∈ (nodeAt r (i + 1) a).log) : Submitted r (i + 1) e := by
  obtain ⟨inp, out, hacts, hr⟩ := node_step r hi a
  rcases hacts.entries with hlog | ⟨c, hl, hn⟩ | ⟨m, b, pi, pt, es, lc, hinp, hp, hok, hlog⟩
  · exact (ih i (Nat.le_refl i) a e (hlog ▸ he)).mono i.le_succ
  · rw [hn] at he
    rcases List.mem_append.mp he with hold | hnew
    · exact (ih i (Nat.le_refl i) a e hold).mono i.le_succ
    · have hsub : Submission r i a (nodeAt r i a).calls.length
          { index := (nodeAt r i a).log.length, entry := (nodeAt r i a).newEntry c,
            fut := .pending } :=
        ⟨hi, hl, rfl, rfl, rfl, rfl, by rw [hn]; rfl, by rw [hn]; simp [appendCommand]⟩
      exact ⟨i, Nat.lt_succ_self i, a, _, _, hsub, (List.mem_singleton.mp hnew).symm⟩
  · rw [hlog, insertEntries_eq_splice] at he
    rcases mem_splice es he with hold | hes
    · exact (ih i (Nat.le_refl i) a e hold).mono i.le_succ
    · obtain ⟨-, t, part, hacc⟩ := exists_accepted r hi.le (hr m hinp).mem_net hp hok
      rw [hacc.entries] at hes
      have hmem := hacc.isPart.subset (List.mem_of_mem_drop hes)
      have := hacc.time
      exact (ih t this b e hmem).mono (by omega)

/-- Every entry of a log is the entry of a call that was made before. -/
theorem submitted_of_mem_log : ∀ i ≤ r.length, ∀ i' ≤ i, ∀ a, ∀ e ∈ (nodeAt r i' a).log,
    Submitted r i' e := by
  refine r.induction (fun i' hi' a e he => ?_) (fun i hi ih i' hi' a e he => ?_)
  · obtain rfl : i' = 0 := by omega
    rw [nodeAt, r.state_zero] at he
    simp [Cluster.initial] at he
  · rcases Nat.lt_succ_iff_lt_or_eq.mp (Nat.lt_succ_of_le hi') with hlt | rfl
    · exact ih i' (by omega) a e he
    · exact submitted_step hi ih he

/-! ## The record of the calls -/

variable (r)

/-- Operation `(a, k)` is the call number `k` of `submit` at node `a`. -/
def record : Record (NodeId × ℕ) Command (Option Result) where
  returned := fun o c y => ∃ call entry, (nodeAt r r.length o.1).calls[o.2]? = some call ∧
    call.fut = .done entry y ∧ call.entry.command = c
  precedes := fun o p => ∃ i ≤ r.length, (∃ call entry y,
    (nodeAt r i o.1).calls[o.2]? = some call ∧ call.fut = .done entry y) ∧
      (nodeAt r i p.1).calls.length ≤ p.2

/-- The place of a call is the index of its entry. -/
def place (o : NodeId × ℕ) : ℕ :=
  (((nodeAt r r.length o.1).calls[o.2]?).map Call.index).getD 0

variable {r}

theorem place_of_getElem? {o : NodeId × ℕ} {call : Call Command Result}
    (h : (nodeAt r r.length o.1).calls[o.2]? = some call) : place r o = call.index := by
  rw [place, h]
  rfl

/-- What is applied at a position was submitted by a call of that index. -/
theorem exists_call_of_applied {b : NodeId} {k : ℕ} {x : ℤ × LogEntry Command}
    (h : (nodeAt r r.length b).applied[k]? = some x) : ∃ o call,
      (nodeAt r r.length o.1).calls[o.2]? = some call ∧ call.entry.command = x.2.command ∧
        place r o = k := by
  have hpos := (replayed r r.length (Nat.le_refl _) b).position k x h
  obtain ⟨t, ht, hlog⟩ :=
    applied_was_logged r b r.length (Nat.le_refl _) x (List.mem_of_getElem? h)
  rw [hpos, Int.toNat_natCast] at hlog
  obtain ⟨j, -, a, l, call, hsub, hent⟩ := submitted_of_mem_log r.length (Nat.le_refl _) t ht b x.2
    (List.mem_of_getElem? hlog)
  have hlen : l < (nodeAt r r.length a).calls.length :=
    Nat.lt_of_not_le fun hle => by
      have := hsub.le_of_length (Nat.le_refl _) hle
      have := hsub.lt_length
      omega
  have hcall := List.getElem?_eq_getElem hlen
  obtain ⟨j', -, hsub'⟩ := exists_submission r r.length (Nat.le_refl _) hcall
  obtain ⟨hidx, hent'⟩ := hsub'.same hsub
  refine ⟨(a, l), _, hcall, by rw [hent', hent], ?_⟩
  have hindex := (((wellFormed r t ht).nodes b).log k x.2 hlog).1
  rw [place_of_getElem? hcall, hidx, ← hsub.entry, hent]
  omega

section

variable (ho : ∀ i < r.length, atDelivery orphansCall (r.state i) (r.event i) = false)

include ho

/-- A call that has returned was resolved by its own entry, which is applied at its index. -/
theorem returned_own {o : NodeId × ℕ} {c : Command} {y : Option Result}
    (h : (record r).returned o c y) : ∃ call, (nodeAt r r.length o.1).calls[o.2]? = some call ∧
      call.entry.command = c ∧
      (nodeAt r r.length o.1).applied[call.index]? = some ((call.index : ℤ), call.entry) ∧
      y = ms.applyCallback o.1
        (commands ((nodeAt r r.length o.1).applied.take call.index)) c := by
  obtain ⟨call, entry, hcall, hdone, rfl⟩ := h
  have hown := (callsOk r ho r.length (Nat.le_refl _) o.1).resolved o.2 call entry y hcall hdone
  obtain ⟨happ, hres⟩ :=
    (replayed r r.length (Nat.le_refl _) o.1).result o.2 call entry y hcall hdone
  subst hown
  exact ⟨call, hcall, rfl, happ, hres⟩

variable [Fintype NodeId]

/-- The calls that have returned are explained by what is applied. -/
theorem linearization_of_history {reply : List Command → Command → Option Result}
    (hcb : ∀ a, ms.applyCallback a = reply) {H : List (ℤ × LogEntry Command)}
    (hH : ∀ i ≤ r.length, ∀ a, (nodeAt r i a).applied <+: H) :
    Linearization reply (record r) (commands H) (place r) := by
  have hend : ∀ a, (nodeAt r r.length a).applied <+: H := hH r.length (Nat.le_refl _)
  refine ⟨fun o c y h => ?_, fun o c y h => ?_, fun o c y p d z h h' hpos => ?_,
    fun o c y p d z h h' hprec => ?_⟩
  · obtain ⟨call, hcall, rfl, happ, -⟩ := returned_own ho h
    rw [place_of_getElem? hcall, commands, List.getElem?_map,
      getElem?_of_isPrefix (hend o.1) happ]
    rfl
  · obtain ⟨call, hcall, -, happ, rfl⟩ := returned_own ho h
    have hlt : call.index < (nodeAt r r.length o.1).applied.length :=
      (List.getElem?_eq_some_iff.mp happ).1
    have htake := List.prefix_iff_eq_take.mp (hend o.1)
    rw [hcb, place_of_getElem? hcall, htake, List.take_take, min_eq_left hlt.le, commands,
      commands, List.map_take]
  · obtain ⟨call, hcall, -, happ, -⟩ := returned_own ho h
    obtain ⟨call', hcall', -, happ', -⟩ := returned_own ho h'
    rw [place_of_getElem? hcall, place_of_getElem? hcall'] at hpos
    have hx := getElem?_of_isPrefix (hend o.1) happ
    have hy := getElem?_of_isPrefix (hend p.1) happ'
    rw [hpos, hy] at hx
    have hent : call.entry = call'.entry := (Prod.mk.inj (Option.some.inj hx)).2.symm
    obtain ⟨j, -, hsub⟩ := exists_submission r r.length (Nat.le_refl _) hcall
    obtain ⟨j', -, hsub'⟩ := exists_submission r r.length (Nat.le_refl _) hcall'
    obtain ⟨ha, hk⟩ := hsub.eq_of_entry hsub' hent
    exact Prod.ext ha hk
  · obtain ⟨call, hcall, -, -, -⟩ := returned_own ho h
    obtain ⟨call', hcall', -, happ', -⟩ := returned_own ho h'
    obtain ⟨i, hi, ⟨early, entry, w, hearly, hdone⟩, hlater⟩ := hprec
    rw [place_of_getElem? hcall, place_of_getElem? hcall']
    by_contra hge
    -- the first call was made with this index
    obtain ⟨j, -, hsub⟩ := exists_submission r r.length (Nat.le_refl _) hcall
    obtain ⟨j₁, -, hsub₁⟩ := exists_submission r i hi hearly
    have hidx : early.index = call.index := (hsub₁.same hsub).1
    -- and its node had applied everything up to there when it returned
    obtain ⟨happ, -⟩ := (replayed r i hi o.1).result o.2 early entry w hearly hdone
    have hlt : call'.index < (nodeAt r i o.1).applied.length := by
      have := (List.getElem?_eq_some_iff.mp happ).1
      omega
    have hthere : (nodeAt r i o.1).applied[call'.index]? =
        some ((call'.index : ℤ), call'.entry) := by
      rw [List.getElem?_eq_getElem hlt]
      have hx := getElem?_of_isPrefix (hH i hi o.1) (List.getElem?_eq_getElem hlt)
      rw [getElem?_of_isPrefix (hend p.1) happ'] at hx
      exact hx.symm
    obtain ⟨t, hti, hlog⟩ := applied_was_logged r o.1 i hi _ (List.mem_of_getElem? hthere)
    obtain ⟨j', -, hsub'⟩ := exists_submission r r.length (Nat.le_refl _) hcall'
    have hij' := hsub'.le_of_length hi hlater
    exact hsub'.not_logged (hti.trans hij') o.1 (by simpa using hlog)

end

section

variable [Fintype NodeId]
  (hs : ∀ i < r.length, atDelivery staleAck (r.state i) (r.event i) = false)
  (hu : ∀ i < r.length, atDelivery unverifiedCommit (r.state i) (r.event i) = false)

include hs hu

/-- Without the two branches that break it, the nodes apply front parts of one sequence. -/
theorem applied_comparable {i j : ℕ} (hi : i ≤ r.length) (hj : j ≤ r.length) (a b : NodeId) :
    (nodeAt r i a).applied <+: (nodeAt r j b).applied ∨
      (nodeAt r j b).applied <+: (nodeAt r i a).applied := by
  refine prefix_or_prefix fun k x y hx hy => ?_
  have hpx := (replayed r i hi a).position k x hx
  have hpy := (replayed r j hj b).position k y hy
  obtain ⟨-, T, p, hp, hpe⟩ := (commitOk hs hu hi a).applied x (List.mem_of_getElem? hx)
  obtain ⟨-, U, q, hq, hqf⟩ := (commitOk hs hu hj b).applied y (List.mem_of_getElem? hy)
  rw [hpx] at hpe
  rw [hpy] at hqf
  refine Prod.ext (hpx.trans hpy.symm) ?_
  rcases LogHistory.committed_comparable hp hq with hpq | hqp
  · exact Option.some.inj ((getElem?_of_isPrefix hpq hpe).symm.trans hqf)
  · exact Option.some.inj (hpe.symm.trans (getElem?_of_isPrefix hqp hqf))

/-- One node ends with what all nodes have applied at any time. -/
theorem exists_longest [Nonempty NodeId] : ∃ b, ∀ i ≤ r.length, ∀ a,
    (nodeAt r i a).applied <+: (nodeAt r r.length b).applied := by
  obtain ⟨b, -, hb⟩ := Finset.exists_max_image Finset.univ
    (fun a => (nodeAt r r.length a).applied.length) Finset.univ_nonempty
  refine ⟨b, fun i hi a => (applied_mono r hi (Nat.le_refl _) a).trans ?_⟩
  rcases applied_comparable hs hu (Nat.le_refl _) (Nat.le_refl _) a b with h | h
  · exact h
  · rw [h.eq_of_length (Nat.le_antisymm h.length_le (hb a (Finset.mem_univ a)))]

/-- What one node has applied at a position is there in the longest sequence. -/
theorem exists_history : ∃ H : List (ℤ × LogEntry Command), (∀ i ≤ r.length, ∀ a,
    (nodeAt r i a).applied <+: H) ∧
      ∀ (k : ℕ) x, H[k]? = some x → ∃ b, (nodeAt r r.length b).applied[k]? = some x := by
  rcases isEmpty_or_nonempty NodeId with hempty | hne
  · exact ⟨[], fun i _ a => (hempty.false a).elim, by simp⟩
  · obtain ⟨b, hb⟩ := exists_longest hs hu
    exact ⟨_, hb, fun k x hx => ⟨b, hx⟩⟩

/-- **`submit` is linearizable**: the calls that have returned, at whatever node, are explained by
one sequence of commands. Every node applies a front part of it, and every command in it is that of
a call, at the call's place. -/
theorem submit_linearizable {reply : List Command → Command → Option Result}
    (hcb : ∀ a, ms.applyCallback a = reply)
    (ho : ∀ i < r.length, atDelivery orphansCall (r.state i) (r.event i) = false) :
    ∃ hist : List Command, Linearization reply (record r) hist (place r) ∧
      (∀ i ≤ r.length, ∀ a, commands (nodeAt r i a).applied <+: hist) ∧
      ∀ (k : ℕ) c, hist[k]? = some c → ∃ o call,
        (nodeAt r r.length o.1).calls[o.2]? = some call ∧ call.entry.command = c ∧
          place r o = k := by
  obtain ⟨H, hH, hfrom⟩ := exists_history hs hu
  refine ⟨commands H, linearization_of_history ho hcb hH, fun i hi a => (hH i hi a).map _,
    fun k c hk => ?_⟩
  obtain ⟨x, hx, rfl⟩ := Option.map_eq_some_iff.mp ((List.getElem?_map ..).symm.trans hk)
  obtain ⟨b, hb⟩ := hfrom k x hx
  exact exists_call_of_applied hb

end

end

/-- The call of `replication` has returned. -/
theorem submit_linearizable_replication :
    ∃ hist : List ℕ, Linearization (fun _ c => some c) (record replication) hist
        (place replication) ∧
      (∀ i ≤ replication.length, ∀ a, commands (nodeAt replication i a).applied <+: hist) ∧
      ∀ (k : ℕ) c, hist[k]? = some c → ∃ o call,
        (nodeAt replication replication.length o.1).calls[o.2]? = some call ∧
          call.entry.command = c ∧ place replication o = k :=
  submit_linearizable (by decide +kernel) (by decide +kernel) (fun _ => rfl) (by decide +kernel)

end Raft
