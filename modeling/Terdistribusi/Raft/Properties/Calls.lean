import Terdistribusi.Raft.Properties.Submit

/-!
# The calls of a node

A call is never forgotten (`length_calls_acts`), and the pending future of an index always belongs
to a call of that index (`callsIndexed_acts`). Unlike `CallsOk` this holds in every run.

`Pending` and `Resolved` are the two states of a call whose entry is in the log: `_apply_committed`
takes it from the first to the second when it gets to its index, and not before
(`Pending.applyCommitted`).
-/

namespace Raft

open Infra RaftNode

variable {NodeId Command Result : Type}

/-! ## Calls and indices -/

namespace RaftNode

/-- The pending future of an index belongs to a call of that index. -/
def CallsIndexed (n : RaftNode NodeId Command Result) : Prop :=
  ∀ index fut, n.pendingCommands.get? index = some fut →
    ∃ call, n.calls[fut]? = some call ∧ call.index = index

@[simp] theorem setResult_index (entry : LogEntry Command) (result : Option Result)
    (call : Call Command Result) : (setResult entry result call).index = call.index := by
  unfold setResult
  split <;> rfl

theorem length_calls_applyNext (cfg : Config NodeId Command Result)
    (n : RaftNode NodeId Command Result) : (applyNext cfg n).calls.length = n.calls.length := by
  unfold applyNext
  split
  · rfl
  · split <;> simp

theorem iterate_applyNext_commitIndex (cfg : Config NodeId Command Result)
    (n : RaftNode NodeId Command Result) (k : ℕ) :
    ((applyNext cfg)^[k] n).commitIndex = n.commitIndex := by
  induction k with
  | zero => rfl
  | succ k ih =>
    obtain ⟨_, _, _, _, h⟩ := applyNext_frame cfg ((applyNext cfg)^[k] n)
    rw [Function.iterate_succ_apply', h, ← ih]

theorem CallsIndexed.applyNext {n : RaftNode NodeId Command Result} (h : CallsIndexed n)
    (cfg : Config NodeId Command Result) : CallsIndexed (applyNext cfg n) := by
  unfold RaftNode.applyNext
  split
  · exact h
  · next entry _ =>
    split
    · exact h
    · next fut _ =>
      intro index k hk
      obtain ⟨call, hcall, hidx⟩ := h index k (Dict.get?_of_get?_erase hk)
      simp only [List.getElem?_modify, hcall]
      split
      · exact ⟨_, rfl, by rw [setResult_index, hidx]⟩
      · exact ⟨call, rfl, hidx⟩

theorem CallsIndexed.appendCommand {n : RaftNode NodeId Command Result} (h : CallsIndexed n)
    (c : Command) : CallsIndexed (n.appendCommand c) := by
  intro index fut hfut
  simp only [RaftNode.appendCommand, Dict.get?_set] at hfut ⊢
  split at hfut
  · next hi =>
    obtain rfl := Option.some.inj hfut
    exact ⟨_, List.getElem?_concat_length, hi⟩
  · obtain ⟨call, hcall, hidx⟩ := h index fut hfut
    exact ⟨call, getElem?_of_isPrefix (List.prefix_append _ _) hcall, hidx⟩

theorem CallsIndexed.submitTimeout {n : RaftNode NodeId Command Result} (h : CallsIndexed n)
    (k : ℕ) : CallsIndexed (n.submitTimeout k) := by
  unfold RaftNode.submitTimeout
  split
  · next index entry hk =>
    intro i fut hfut
    obtain ⟨call, hcall, hidx⟩ := h i fut (Dict.get?_of_get?_erase hfut)
    dsimp only
    rw [List.getElem?_set]
    split
    · next hkf =>
      subst hkf
      rw [hk] at hcall
      obtain rfl := Option.some.inj hcall
      rw [if_pos (List.getElem?_eq_some_iff.mp hk).1]
      exact ⟨_, rfl, hidx⟩
    · exact ⟨call, hcall, hidx⟩
  · exact h

variable [DecidableEq NodeId] {cfg : Config NodeId Command Result}
  {n n' : RaftNode NodeId Command Result}

omit [DecidableEq NodeId] in
/-- The calls, their futures and what is applied are as before. -/
structure SameCalls (n m : RaftNode NodeId Command Result) : Prop where
  pendingCommands : m.pendingCommands = n.pendingCommands
  calls : m.calls = n.calls
  applied : m.applied = n.applied
  lastApplied : m.lastApplied = n.lastApplied

omit [DecidableEq NodeId] in
theorem sameCalls_catchUp (term : ℕ) (n : RaftNode NodeId Command Result) :
    SameCalls n (n.catchUp term) := by
  rcases catchUp_cases term n with ⟨-, he⟩ | ⟨-, he⟩ <;> rw [he] <;> exact ⟨rfl, rfl, rfl, rfl⟩

/-- A step leaves the calls and their futures alone, applies what is committed, takes a new call in,
or lets one time out. -/
theorem Acts.calls {inp : Input NodeId Command} {out : List (Message NodeId Command)}
    (h : Acts cfg n inp n' out) : SameCalls n n' ∨
      (∃ m, SameCalls n m ∧ m.commitIndex ≤ m.lastLogIndex ∧ n' = applyCommitted cfg m) ∨
      (∃ c, n.state = .leader ∧ n' = n.appendCommand c) ∨ ∃ k, n' = n.submitTimeout k := by
  have happly : ∀ m : RaftNode NodeId Command Result, SameCalls n m →
      m.commitIndex ≤ m.lastLogIndex → ∃ m', SameCalls n m' ∧ m'.commitIndex ≤ m'.lastLogIndex ∧
        applyCommitted cfg m = applyCommitted cfg m' :=
    fun m hm hle => ⟨m, hm, hle, rfl⟩
  cases h with
  | submit c hl => exact Or.inr (Or.inr (Or.inl ⟨c, hl, rfl⟩))
  | submitTimeout k => exact Or.inr (Or.inr (Or.inr ⟨k, rfl⟩))
  | stepDown m hlt =>
    rw [becomeFollower_of_lt hlt]
    exact Or.inl ⟨rfl, rfl, rfl, rfl⟩
  | deny m => exact Or.inl (sameCalls_catchUp m.term n)
  | grant m =>
    have h := sameCalls_catchUp m.term n
    exact Or.inl ⟨h.pendingCommands, h.calls, h.applied, h.lastApplied⟩
  | reject m =>
    have h := sameCalls_catchUp m.term n
    exact Or.inl ⟨h.pendingCommands, h.calls, h.applied, h.lastApplied⟩
  | accept m a pi pt es lc =>
    have h := sameCalls_catchUp m.term n
    unfold acceptEntries
    rcases followCommit_cases cfg lc { n.followLeader m.term a with
        log := RaftNode.insertEntries n.log (pi + 1).toNat es } with ⟨-, he⟩ | ⟨-, he⟩ <;> rw [he]
    · exact Or.inl ⟨h.pendingCommands, h.calls, h.applied, h.lastApplied⟩
    · exact Or.inr (Or.inl (happly _ ⟨h.pendingCommands, h.calls, h.applied, h.lastApplied⟩
        (min_le_right _ _)))
  | ack m k f =>
    rcases updateCommitIndex_cases cfg { n with
        matchIndex := n.matchIndex.set f k, nextIndex := n.nextIndex.set f (k + 1) } with
      he | ⟨c, -, hle, -, he⟩ <;> rw [he]
    · exact Or.inl ⟨rfl, rfl, rfl, rfl⟩
    · exact Or.inr (Or.inl (happly _ ⟨rfl, rfl, rfl, rfl⟩ hle))
  | idle | timeout | heartbeat | gather | elected | rejectOld | backOff =>
    exact Or.inl ⟨rfl, rfl, rfl, rfl⟩

omit [DecidableEq NodeId] in
theorem CallsIndexed.same {m : RaftNode NodeId Command Result} (h : CallsIndexed n)
    (hm : SameCalls n m) : CallsIndexed m := by
  intro index fut hfut
  rw [hm.pendingCommands] at hfut
  rw [hm.calls]
  exact h index fut hfut

omit [DecidableEq NodeId] in
/-- What every turn of `_apply_committed` keeps is kept by all of them. -/
theorem applyCommitted_induction {P : RaftNode NodeId Command Result → Prop}
    (hs : ∀ m, m.lastApplied < m.commitIndex → P m → P (RaftNode.applyNext cfg m)) (h : P n) :
    P (applyCommitted cfg n) := by
  have key : ∀ k ≤ (n.commitIndex - n.lastApplied).toNat, P ((RaftNode.applyNext cfg)^[k] n) := by
    intro k
    induction k with
    | zero => exact fun _ => h
    | succ k ih =>
      intro hk
      rw [Function.iterate_succ_apply']
      refine hs _ ?_ (ih (Nat.le_of_succ_le hk))
      rw [iterate_applyNext_lastApplied, iterate_applyNext_commitIndex]
      omega
  exact key _ (Nat.le_refl _)

theorem callsIndexed_acts {inp : Input NodeId Command} {out : List (Message NodeId Command)}
    (hacts : Acts cfg n inp n' out) (h : CallsIndexed n) : CallsIndexed n' := by
  rcases hacts.calls with hm | ⟨m, hm, -, rfl⟩ | ⟨c, -, rfl⟩ | ⟨k, rfl⟩
  · exact h.same hm
  · exact applyCommitted_induction (fun m _ hm => hm.applyNext cfg) (h.same hm)
  · exact h.appendCommand c
  · exact h.submitTimeout k

/-- A call is never forgotten. -/
theorem length_calls_acts {inp : Input NodeId Command} {out : List (Message NodeId Command)}
    (hacts : Acts cfg n inp n' out) : n.calls.length ≤ n'.calls.length := by
  rcases hacts.calls with hm | ⟨m, hm, -, rfl⟩ | ⟨c, -, rfl⟩ | ⟨k, rfl⟩
  · rw [hm.calls]
  · refine applyCommitted_induction (P := fun m => n.calls.length ≤ m.calls.length)
      (fun m _ hm => ?_) (by rw [hm.calls])
    rwa [length_calls_applyNext]
  · simp [RaftNode.appendCommand]
  · unfold RaftNode.submitTimeout
    split <;> simp

/-! ## A call that waits for its entry -/

omit [DecidableEq NodeId] in
/-- The call number `fut` waits for the entry `e` at position `k`. -/
structure Pending (k fut : ℕ) (e : LogEntry Command) (n : RaftNode NodeId Command Result) :
    Prop where
  future : n.pendingCommands.get? k = some fut
  call : n.calls[fut]? = some { index := k, entry := e, fut := .pending }
  entry : n.log[k]? = some e
  pos : 0 < k
  ahead : n.lastApplied < k
  indexed : CallsIndexed n
  log : Indexed 0 n.log

/-- The entry `e` at position `k` is the last one that was applied, and the call has its result. -/
def Resolved (cfg : Config NodeId Command Result) (k fut : ℕ) (e : LogEntry Command)
    (n : RaftNode NodeId Command Result) : Prop :=
  ∃ pre, n.applied = pre ++ [((k : ℤ), e)] ∧ n.calls[fut]? = some
    { index := k, entry := e
      fut := .done e (cfg.applyCallback (pre.map fun x => x.2.command) e.command) }

section

variable {k fut : ℕ} {e : LogEntry Command}

omit [DecidableEq NodeId] in
/-- Applying an entry of another index leaves the call alone. -/
theorem Pending.frame (h : Pending k fut e n) (cfg : Config NodeId Command Result)
    (hlt : n.lastApplied + 1 < k) :
    (RaftNode.applyNext cfg n).pendingCommands.get? k = some fut ∧
      (RaftNode.applyNext cfg n).calls[fut]? =
        some { index := k, entry := e, fut := .pending } := by
  have hpos := h.pos
  unfold RaftNode.applyNext
  split
  · exact ⟨h.future, h.call⟩
  · next x hx =>
    have hxk : x.index ≠ k := by
      have := (h.log _ x hx).1
      omega
    split
    · exact ⟨h.future, h.call⟩
    · next other hother =>
      -- another index has another call, so another future
      have hne : other ≠ fut := by
        rintro rfl
        obtain ⟨call, hcall, hidx⟩ := h.indexed x.index other hother
        rw [h.call] at hcall
        obtain rfl := Option.some.inj hcall
        exact hxk hidx.symm
      dsimp only
      rw [Dict.get?_erase, if_neg hxk, List.getElem?_modify, h.call]
      exact ⟨h.future, by simp [hne]⟩

omit [DecidableEq NodeId] in
theorem Pending.applyNext (h : Pending k fut e n) (cfg : Config NodeId Command Result)
    (hlt : n.lastApplied + 1 < k) : Pending k fut e (applyNext cfg n) :=
  ⟨(h.frame cfg hlt).1, (h.frame cfg hlt).2, by simpa using h.entry, h.pos,
    by rwa [applyNext_lastApplied], h.indexed.applyNext cfg, by simpa using h.log⟩

omit [DecidableEq NodeId] in
/-- The turn that gets to the entry sets the result of the call. -/
theorem Pending.resolve (h : Pending k fut e n) (cfg : Config NodeId Command Result)
    (heq : n.lastApplied + 1 = k) : Resolved cfg k fut e (RaftNode.applyNext cfg n) := by
  have hindex : e.index = k := by
    have := (h.log k e h.entry).1
    omega
  refine ⟨n.applied, ?_⟩
  unfold RaftNode.applyNext
  rw [heq, Int.toNat_natCast, h.entry]
  dsimp only
  rw [hindex, h.future]
  dsimp only
  rw [List.getElem?_modify, h.call]
  exact ⟨rfl, by simp [setResult]⟩

omit [DecidableEq NodeId] in
theorem Pending.iterate (h : Pending k fut e n) (cfg : Config NodeId Command Result) : ∀ j : ℕ,
    n.lastApplied + j < k → Pending k fut e ((RaftNode.applyNext cfg)^[j] n) := by
  intro j
  induction j with
  | zero => exact fun _ => h
  | succ j ih =>
    intro hj
    rw [Function.iterate_succ_apply']
    refine (ih (by omega)).applyNext cfg ?_
    rw [iterate_applyNext_lastApplied]
    push_cast at hj
    omega

omit [DecidableEq NodeId] in
/-- `_apply_committed` resolves the call when it gets as far as its entry. -/
theorem Pending.applyCommitted (h : Pending k fut e n) (cfg : Config NodeId Command Result)
    (hle : n.commitIndex ≤ k) :
    (n.commitIndex < k ∧ Pending k fut e (applyCommitted cfg n)) ∨
      (n.commitIndex = k ∧ Resolved cfg k fut e (applyCommitted cfg n)) := by
  have hahead := h.ahead
  unfold RaftNode.applyCommitted
  rcases lt_or_eq_of_le hle with hlt | heq
  · exact Or.inl ⟨hlt, h.iterate cfg _ (by omega)⟩
  · refine Or.inr ⟨heq, ?_⟩
    obtain ⟨j, hj⟩ : ∃ j : ℕ, (n.commitIndex - n.lastApplied).toNat = j + 1 :=
      ⟨(k - n.lastApplied - 1).toNat, by omega⟩
    rw [hj, Function.iterate_succ_apply']
    refine (h.iterate cfg j (by omega)).resolve cfg ?_
    rw [iterate_applyNext_lastApplied]
    omega

/-- The call waits, or it was resolved by the last commit. -/
def Waiting (cfg : Config NodeId Command Result) (k fut : ℕ) (e : LogEntry Command)
    (n : RaftNode NodeId Command Result) : Prop :=
  (n.commitIndex < k ∧ Pending k fut e n) ∨ (n.commitIndex = k ∧ Resolved cfg k fut e n)

/-- The commit rule of a leader keeps the call of its last entry waiting or resolves it. -/
theorem Waiting.updateCommitIndex (h : Waiting cfg k fut e n) (hlen : n.log.length = k + 1) :
    Waiting cfg k fut e (updateCommitIndex cfg n) := by
  rcases updateCommitIndex_cases cfg n with he | ⟨c, hlt, hle, -, he⟩ <;> rw [he]
  · exact h
  · unfold lastLogIndex at hle
    rcases h with ⟨-, hp⟩ | ⟨heq, -⟩
    · have hp' : Pending k fut e { n with commitIndex := c } :=
        ⟨hp.future, hp.call, hp.entry, hp.pos, hp.ahead, hp.indexed, hp.log⟩
      have hc := hp'.applyCommitted cfg (show c ≤ k by omega)
      simp only [Waiting, applyCommitted_commitIndex]
      exact hc
    · omega

end

end RaftNode

/-! ## Runs -/

section

variable [DecidableEq NodeId] {ms : Members NodeId Command Result} (r : ClusterRun ms)

theorem callsIndexed : ∀ i ≤ r.length, ∀ a, CallsIndexed (nodeAt r i a) := by
  refine r.induction (fun a => ?_) (fun i hi ih a => ?_)
  · rw [nodeAt, r.state_zero]
    simp [CallsIndexed, Cluster.initial]
  · obtain ⟨inp, out, h, -⟩ := node_step r hi a
    exact callsIndexed_acts h (ih a)

end

end Raft
