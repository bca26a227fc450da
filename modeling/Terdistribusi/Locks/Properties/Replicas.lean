import Terdistribusi.Locks.Properties.Safety

/-!
# Lock replicas agree

Two nodes that apply the same commands stay in agreement (`replicas_agree`), although each reads its
own clock, makes its own request ids and goes through sets in its own order.

The view of a node is determined by the commands (`view_succ`). The index follows from the view but
for one thing: an empty set stands in it for a client that held something before. `recorded_step`
says which clients a command adds to the index.
-/

namespace Locks

open Infra LockManager

variable {Client Resource : Type} [DecidableEq Client] [DecidableEq Resource]

/-- The two nodes have the same locks, except for times and request ids. -/
structure Agree (s₁ s₂ : LockManager Client Resource) : Prop where
  holders : ∀ r, (s₁.lockState r).holders.mapValues LockHolder.mode =
    (s₂.lockState r).holders.mapValues LockHolder.mode
  waiters : ∀ r, ((s₁.lockState r).waiters.map fun w => (w.clientId, w.mode)) =
    (s₂.lockState r).waiters.map fun w => (w.clientId, w.mode)
  clientLocks : ∀ c, s₁.clientLocks.get? c = s₂.clientLocks.get? c
  edges : ∀ u, s₁.deadlockDetector.holdersOf u = s₂.deadlockDetector.holdersOf u

/-! ## Holders stay -/

namespace Cell

theorem holding_promote {c : Client} : ∀ (q : List (Client × LockMode)) {hs : Dict Client LockMode},
    c ∈ hs.keys → (promote q hs).Holding c
  | [], _, h => h
  | x :: q, hs, h => by
    rw [promote]
    split
    · exact holding_promote q (Dict.mem_keys_set.mpr (Or.inr h))
    · exact h

theorem holding_release_of_ne {k : Cell Client} {c c' : Client} (hne : c' ≠ c)
    (h : k.Holding c') : (k.release c).Holding c' := by
  unfold release
  split
  · exact holding_promote _ (Dict.mem_keys_erase.mpr ⟨hne, h⟩)
  · exact h

end Cell

/-! ## The clients in the index -/

theorem Indexed.mem_keys {s : LockManager Client Resource} (h : Indexed s) {c : Client}
    {r : Resource} (hc : Holds s c r) : c ∈ s.clientLocks.keys := by
  have hr := (h.index r c).mpr hc
  rw [Dict.mem_keys_iff]
  cases hget : s.clientLocks.get? c with
  | none =>
    rw [hget] at hr
    exact absurd hr (Finset.notMem_empty r)
  | some rs => rfl

/-- The loop of `_promote_waiters` adds to the index only clients that hold the resource then. -/
theorem mem_keys_promoteLoop (lease : Time) (clock : ℕ → Time) {c : Client} :
    ∀ (ws : List (LockRequest Client Resource)) (k : ℕ) (st : LockState Client Resource)
      (cl : Dict Client (Finset Resource)), st.waiters = ws →
      (c ∈ cl.keys → c ∈ (promoteLoop lease clock k ws st cl).2.keys) ∧
        (c ∈ (promoteLoop lease clock k ws st cl).2.keys → c ∈ cl.keys ∨
          (promoteLoop lease clock k ws st cl).1.cell.Holding c)
  | [], _, _, _, _ => ⟨id, Or.inl⟩
  | w :: ws, k, st, cl, _ => by
    rw [promoteLoop]
    split
    · let st' : LockState Client Resource :=
        { st with
          holders := st.holders.set w.clientId
            { clientId := w.clientId, mode := w.mode, acquiredAt := clock k,
              leaseUntil := clock (k + 1) + lease }
          waiters := ws }
      obtain ⟨hmono, hnew⟩ := mem_keys_promoteLoop lease clock ws (k + 2) st'
        (addLock w.clientId st.resource cl) rfl
      refine ⟨fun hc => hmono (Dict.mem_keys_set.mpr (Or.inr hc)), fun hc => ?_⟩
      rcases hnew hc with hc | hc
      · rcases Dict.mem_keys_set.mp hc with rfl | hc
        · -- the client that was just granted the resource keeps it
          refine Or.inr ?_
          rw [(promoteLoop_cell lease clock ws (k + 2) st' _ rfl).1]
          refine Cell.holding_promote _ ?_
          show w.clientId ∈ (st'.holders.mapValues LockHolder.mode).keys
          rw [Dict.keys_mapValues]
          exact Dict.mem_keys_set.mpr (Or.inl rfl)
        · exact Or.inl hc
      · exact Or.inr hc
    · exact ⟨id, Or.inl⟩

/-- The index after the command has the clients of the index before it, and all holders. -/
def Recorded (s s' : LockManager Client Resource) : Prop :=
  ∀ c, c ∈ s'.clientLocks.keys ↔ c ∈ s.clientLocks.keys ∨ ∃ r, Holds s' c r

theorem Recorded.of_indexed {s s' : LockManager Client Resource} (h' : Indexed s')
    (hmono : ∀ c ∈ s.clientLocks.keys, c ∈ s'.clientLocks.keys)
    (hnew : ∀ c ∈ s'.clientLocks.keys, c ∈ s.clientLocks.keys ∨ ∃ r, Holds s' c r) :
    Recorded s s' := by
  refine fun c => ⟨hnew c, ?_⟩
  rintro (hc | ⟨r, hc⟩)
  · exact hmono c hc
  · exact h'.mem_keys hc

theorem recorded_doAcquire {s : LockManager Client Resource} (h : Indexed s) (clock : ℕ → Time)
    (requestId : ℕ) (c : Client) (r : Resource) (m : LockMode) (lease : Time) :
    Recorded s (s.doAcquire clock requestId c r m lease).2 := by
  have h' := indexed_doAcquire clock requestId c r m lease h
  unfold doAcquire at h' ⊢
  dsimp only at h' ⊢
  split
  · next ha =>
    rw [if_pos ha] at h'
    refine Recorded.of_indexed h' (fun c' hc' => Dict.mem_keys_set.mpr (Or.inr hc'))
      (fun c' hc' => ?_)
    rcases Dict.mem_keys_set.mp hc' with rfl | hc'
    · refine Or.inr ⟨r, ?_⟩
      unfold Holds
      rw [lockState_of_locks_eq rfl, if_pos rfl]
      exact Dict.mem_keys_set.mpr (Or.inl rfl)
    · exact Or.inl hc'
  · next ha =>
    rw [if_neg ha] at h'
    exact Recorded.of_indexed h' (fun _ hc' => hc') (fun _ hc' => Or.inl hc')

section Release

variable {s : LockManager Client Resource} (h : Indexed s)

include h

theorem keys_doRelease (clock : ℕ → Time) (c : Client) (r : Resource) (c' : Client) :
    (c' ∈ s.clientLocks.keys → c' ∈ (s.doRelease clock c r).2.clientLocks.keys) ∧
      (c' ∈ (s.doRelease clock c r).2.clientLocks.keys → c' ∈ s.clientLocks.keys ∨
        Holds (s.doRelease clock c r).2 c' r) := by
  by_cases hc : c ∈ (s.lockState r).holders.keys
  · rw [doRelease_of_holding clock c r hc]
    obtain ⟨hmono, hnew⟩ := mem_keys_promoteLoop (c := c') (released s c r).defaultLease clock
      (s.lockState r).waiters 0 { s.lockState r with holders := (s.lockState r).holders.erase c }
      (released s c r).clientLocks rfl
    refine ⟨fun hc' => hmono (Dict.mem_keys_set.mpr (Or.inr hc')), fun hc' => ?_⟩
    rcases hnew hc' with hc' | hc'
    · rcases Dict.mem_keys_set.mp hc' with rfl | hc'
      · exact Or.inl (h.mem_keys hc)
      · exact Or.inl hc'
    · refine Or.inr ?_
      rw [← holding_view, promoteWaiters, view_cell_of_locks_eq (s := s) rfl,
        if_pos (h.resource r).symm]
      exact hc'
  · rw [doRelease_of_not_holding clock c r hc]
    exact ⟨id, Or.inl⟩

theorem recorded_doRelease (clock : ℕ → Time) (c : Client) (r : Resource) :
    Recorded s (s.doRelease clock c r).2 :=
  Recorded.of_indexed (indexed_doRelease clock c r h)
    (fun c' => (keys_doRelease h clock c r c').1)
    (fun c' hc' => ((keys_doRelease h clock c r c').2 hc').imp_right fun hr => ⟨r, hr⟩)

end Release

/-- The loop of `_do_release_all` adds to the index only clients that hold something at its end:
what another client is granted on the way it keeps. -/
theorem keys_releaseEach (clock : ℕ → ℕ → Time) (c : Client) {c' : Client} :
    ∀ (rs : List Resource) (i count : ℕ) (s : LockManager Client Resource),
      Indexed s → rs.Nodup →
      (c' ∈ s.clientLocks.keys → c' ∈ (releaseEach clock c i rs count s).2.clientLocks.keys) ∧
        (c' ≠ c → c' ∈ (releaseEach clock c i rs count s).2.clientLocks.keys →
          c' ∈ s.clientLocks.keys ∨ ∃ r, Holds (releaseEach clock c i rs count s).2 c' r)
  | [], _, _, _, _, _ => ⟨id, fun _ => Or.inl⟩
  | r :: rs, i, count, s, h, hn => by
    obtain ⟨-, hn'⟩ := List.nodup_cons.mp hn
    obtain ⟨hmono₁, hnew₁⟩ := keys_doRelease h (clock i) c r c'
    have h₁ := indexed_doRelease (clock i) c r h
    rw [releaseEach]
    generalize s.doRelease (clock i) c r = p at hmono₁ hnew₁ h₁
    obtain ⟨hmono, hnew⟩ := keys_releaseEach clock c rs (i + 1) (if p.1 then count + 1 else count)
      p.2 h₁ hn'
    refine ⟨fun hc' => hmono (hmono₁ hc'), fun hne hc' => ?_⟩
    rcases hnew hne hc' with hc' | hr
    · refine (hnew₁ hc').imp_right fun hr => ⟨r, ?_⟩
      obtain ⟨-, hcell, -⟩ :=
        releaseEach_spec clock c rs (i + 1) (if p.1 then count + 1 else count) p.2 h₁ hn'
      rw [← holding_view] at hr ⊢
      rw [hcell r]
      split
      · exact Cell.holding_release_of_ne hne hr
      · exact hr
    · exact Or.inr hr

theorem recorded_doReleaseAll {s : LockManager Client Resource} (h : Indexed s)
    (clock : ℕ → ℕ → Time) {c : Client} {order : List Resource} (hn : order.Nodup)
    (ho : order.toFinset = s.locksOf c) :
    Recorded s (s.doReleaseAll clock order c).2 := by
  refine Recorded.of_indexed (indexed_doReleaseAll clock h hn)
    (fun c' => (keys_releaseEach clock c order 0 0 s h hn).1) (fun c' hc' => ?_)
  by_cases hne : c' = c
  · subst hne
    refine Or.inl ?_
    cases order with
    | nil => exact hc'
    | cons r rs =>
      have hr : r ∈ s.locksOf c' := by
        rw [← ho]
        exact List.mem_toFinset.mpr List.mem_cons_self
      exact h.mem_keys ((h.index r c').mp hr)
  · exact (keys_releaseEach clock c order 0 0 s h hn).2 hne hc'

/-- **A command adds to the index exactly the clients that hold something after it.** -/
theorem recorded_applyCommand {s : LockManager Client Resource} {cmd : Command Client Resource}
    {env : Env Resource} (h : Indexed s) (hok : env.ok s cmd = true) :
    Recorded s (s.applyCommand env cmd).2 := by
  cases cmd with
  | acquire c r m lease => exact recorded_doAcquire h (env.clock 0) env.requestId c r m _
  | release c r => exact recorded_doRelease h (env.clock 0) c r
  | releaseAll c =>
    obtain ⟨hn, ho⟩ := Bool.and_eq_true_iff.mp hok
    exact recorded_doReleaseAll h env.clock (of_decide_eq_true hn) (of_decide_eq_true ho)
  | abort c =>
    obtain ⟨hn, ho⟩ := Bool.and_eq_true_iff.mp hok
    exact recorded_doReleaseAll h env.clock (of_decide_eq_true hn) (of_decide_eq_true ho)

/-! ## Replies -/

/-- The count of `_do_release_all` when the client holds everything that is released. -/
theorem releaseEach_fst (clock : ℕ → ℕ → Time) (c : Client) :
    ∀ (rs : List Resource) (i count : ℕ) (s : LockManager Client Resource),
      Indexed s → rs.Nodup → (∀ r ∈ rs, Holds s c r) →
      (releaseEach clock c i rs count s).1 = count + rs.length
  | [], _, _, _, _, _, _ => rfl
  | r :: rs, i, count, s, h, hn, hh => by
    obtain ⟨hr, hn'⟩ := List.nodup_cons.mp hn
    have hfst : (s.doRelease (clock i) c r).1 = true := by
      rw [doRelease_fst, decide_eq_true_eq, holding_view]
      exact hh r List.mem_cons_self
    have hrest : ∀ r' ∈ rs, Holds (s.doRelease (clock i) c r).2 c r' := by
      intro r' hr'
      have hne : r' ≠ r := fun he => hr (he ▸ hr')
      rw [← holding_view, view_doRelease (clock i) c r h]
      simp only [Table.apply, Table.actOn, if_neg hne]
      exact (holding_view s c r').mpr (hh r' (List.mem_cons_of_mem r hr'))
    rw [releaseEach, hfst, if_pos rfl, releaseEach_fst clock c rs (i + 1) (count + 1) _
      (indexed_doRelease (clock i) c r h) hn' hrest, List.length_cons]
    omega

/-- `_do_release_all` returns how many resources the client held. -/
theorem doReleaseAll_fst {s : LockManager Client Resource} (h : Indexed s)
    (clock : ℕ → ℕ → Time) {c : Client} {order : List Resource} (hn : order.Nodup)
    (ho : order.toFinset = s.locksOf c) :
    (s.doReleaseAll clock order c).1 = (s.locksOf c).card := by
  have hh : ∀ r ∈ order, Holds s c r := by
    intro r hr
    rw [← List.mem_toFinset, ho] at hr
    exact (h.index r c).mp hr
  show (releaseEach clock c 0 order 0 s).1 = _
  rw [releaseEach_fst clock c order 0 0 s h hn hh, ← ho, List.toFinset_card_of_nodup hn]
  exact Nat.zero_add _

/-! ## Two replicas -/

theorem Agree.view_eq {s₁ s₂ : LockManager Client Resource} (h : Agree s₁ s₂) :
    view s₁ = view s₂ := by
  ext1
  · funext r
    show (s₁.lockState r).cell = (s₂.lockState r).cell
    unfold LockState.cell
    rw [h.holders r, h.waiters r]
  · exact funext h.edges

section Replicas

variable {s₁ s₂ : LockManager Client Resource} (h₁ : Indexed s₁) (h₂ : Indexed s₂)

include h₁ h₂

theorem locksOf_congr (hview : view s₁ = view s₂) (c : Client) : s₁.locksOf c = s₂.locksOf c := by
  ext r
  calc r ∈ s₁.locksOf c ↔ Holds s₁ c r := h₁.index r c
    _ ↔ Holds s₂ c r := by rw [← holding_view, hview, holding_view]
    _ ↔ r ∈ s₂.locksOf c := (h₂.index r c).symm

/-- Two nodes with the same view, and with the same clients in the index, agree. -/
theorem Agree.of_view (hview : view s₁ = view s₂)
    (hkeys : ∀ c, c ∈ s₁.clientLocks.keys ↔ c ∈ s₂.clientLocks.keys) : Agree s₁ s₂ := by
  have hcell : ∀ r, (s₁.lockState r).cell = (s₂.lockState r).cell :=
    fun r => congrArg (fun t => t.cell r) hview
  refine ⟨fun r => congrArg Cell.holders (hcell r), fun r => congrArg Cell.queue (hcell r),
    fun c => ?_, fun u => congrArg (fun t => t.waitFor u) hview⟩
  have hlocks := locksOf_congr h₁ h₂ hview c
  unfold locksOf at hlocks
  by_cases hc : c ∈ s₁.clientLocks.keys
  · obtain ⟨rs₁, hget₁⟩ := Dict.exists_get?_of_mem_keys hc
    obtain ⟨rs₂, hget₂⟩ := Dict.exists_get?_of_mem_keys ((hkeys c).mp hc)
    rw [hget₁, hget₂] at hlocks ⊢
    exact congrArg some hlocks
  · rw [Dict.get?_eq_none_iff.mpr hc, Dict.get?_eq_none_iff.mpr (mt (hkeys c).mpr hc)]

/-- Two nodes that agree give the same reply to a command. -/
theorem reply_congr (h : Agree s₁ s₂) {cmd : Command Client Resource} {env₁ env₂ : Env Resource}
    (hok₁ : env₁.ok s₁ cmd = true) (hok₂ : env₂.ok s₂ cmd = true) :
    (s₁.applyCommand env₁ cmd).1 = (s₂.applyCommand env₂ cmd).1 := by
  have hview := h.view_eq
  cases cmd with
  | acquire c r m lease =>
    show Reply.flag _ = Reply.flag _
    rw [doAcquire_fst, doAcquire_fst, hview]
  | release c r =>
    show Reply.flag _ = Reply.flag _
    rw [doRelease_fst, doRelease_fst]
    simp only [hview]
  | releaseAll c =>
    obtain ⟨hn₁, ho₁⟩ := Bool.and_eq_true_iff.mp hok₁
    obtain ⟨hn₂, ho₂⟩ := Bool.and_eq_true_iff.mp hok₂
    show Reply.count _ = Reply.count _
    rw [doReleaseAll_fst h₁ env₁.clock (of_decide_eq_true hn₁) (of_decide_eq_true ho₁),
      doReleaseAll_fst h₂ env₂.clock (of_decide_eq_true hn₂) (of_decide_eq_true ho₂),
      locksOf_congr h₁ h₂ hview c]
  | abort c =>
    obtain ⟨hn₁, ho₁⟩ := Bool.and_eq_true_iff.mp hok₁
    obtain ⟨hn₂, ho₂⟩ := Bool.and_eq_true_iff.mp hok₂
    show Reply.count _ = Reply.count _
    rw [doReleaseAll_fst h₁ env₁.clock (of_decide_eq_true hn₁) (of_decide_eq_true ho₁),
      doReleaseAll_fst h₂ env₂.clock (of_decide_eq_true hn₂) (of_decide_eq_true ho₂),
      locksOf_congr h₁ h₂ hview c]

/-- Two nodes that agree still do after the same command. -/
theorem Agree.applyCommand (h : Agree s₁ s₂) {cmd : Command Client Resource}
    {env₁ env₂ : Env Resource} (hok₁ : env₁.ok s₁ cmd = true) (hok₂ : env₂.ok s₂ cmd = true) :
    Agree (s₁.applyCommand env₁ cmd).2 (s₂.applyCommand env₂ cmd).2 := by
  have hview : view (s₁.applyCommand env₁ cmd).2 = view (s₂.applyCommand env₂ cmd).2 := by
    rw [view_applyCommand h₁ hok₁, view_applyCommand h₂ hok₂, h.view_eq]
  refine Agree.of_view (indexed_applyCommand h₁ hok₁) (indexed_applyCommand h₂ hok₂) hview
    fun c => ?_
  have hkeys : c ∈ s₁.clientLocks.keys ↔ c ∈ s₂.clientLocks.keys := by
    rw [Dict.mem_keys_iff, Dict.mem_keys_iff, h.clientLocks c]
  have hholds : ∀ r, Holds (s₁.applyCommand env₁ cmd).2 c r ↔
      Holds (s₂.applyCommand env₂ cmd).2 c r := by
    intro r
    rw [← holding_view, hview, holding_view]
  rw [recorded_applyCommand h₁ hok₁ c, recorded_applyCommand h₂ hok₂ c, hkeys]
  simp only [hholds]

end Replicas

/-- **Lock replicas agree**: two nodes that apply the same commands agree in every state and give
the same replies. -/
theorem replicas_agree {lease₁ lease₂ : Time} (run₁ : CommandRun Client Resource lease₁)
    (run₂ : CommandRun Client Resource lease₂) (hlength : run₁.length = run₂.length)
    (hcmd : ∀ i < run₁.length, (run₁.event i).1 = (run₂.event i).1) :
    (∀ i ≤ run₁.length, Agree (run₁.state i) (run₂.state i)) ∧
      ∀ i < run₁.length, ((run₁.state i).applyCommand (run₁.event i).2 (run₁.event i).1).1 =
        ((run₂.state i).applyCommand (run₂.event i).2 (run₂.event i).1).1 := by
  have hagree : ∀ i ≤ run₁.length, Agree (run₁.state i) (run₂.state i) := by
    refine run₁.induction ?_ (fun i hi ih => ?_)
    · rw [run₁.state_zero, run₂.state_zero]
      exact ⟨fun _ => rfl, fun _ => rfl, fun _ => rfl, fun _ => rfl⟩
    · obtain ⟨hok₁, hs₁⟩ := step_eq_some (run₁.state_succ i hi)
      obtain ⟨hok₂, hs₂⟩ := step_eq_some (run₂.state_succ i (hlength ▸ hi))
      rw [hs₁, hs₂, ← hcmd i hi]
      rw [← hcmd i hi] at hok₂
      exact ih.applyCommand (indexed run₁ i hi.le) (indexed run₂ i (hlength ▸ hi.le)) hok₁ hok₂
  refine ⟨hagree, fun i hi => ?_⟩
  obtain ⟨hok₁, -⟩ := step_eq_some (run₁.state_succ i hi)
  obtain ⟨hok₂, -⟩ := step_eq_some (run₂.state_succ i (hlength ▸ hi))
  rw [← hcmd i hi] at hok₂ ⊢
  exact reply_congr (indexed run₁ i hi.le) (indexed run₂ i (hlength ▸ hi.le)) (hagree i hi.le)
    hok₁ hok₂

/-- Client 0 acquires two resources for which clients 1 and 2 wait, and releases both. -/
def bothReleased (env : Env (Fin 2)) : List (Applied (Fin 3) (Fin 2)) :=
  [plain (.acquire 0 0 .exclusive none), plain (.acquire 0 1 .exclusive none),
    (.acquire 1 0 .shared none, env), (.acquire 2 1 .shared none, env), (.releaseAll 0, env)]

/-- One node releases resource 0 first. -/
def lowFirst : CommandRun (Fin 3) (Fin 2) 30 :=
  Run.ofEvents _ _ (bothReleased { clock := fun _ _ => 0, requestId := 0, order := [0, 1] })
    (plain (.releaseAll 0)) (by decide +kernel)

/-- Another node, with another clock and another lease, releases resource 1 first. -/
def highFirst : CommandRun (Fin 3) (Fin 2) 60 :=
  Run.ofEvents _ _ (bothReleased { clock := fun i k => i + k, requestId := 1, order := [1, 0] })
    (plain (.releaseAll 0)) (by decide +kernel)

theorem replicas_agree_bothReleased :
    Agree (lowFirst.state 5) (highFirst.state 5) ∧
      Holds (lowFirst.state 5) 1 0 ∧ Holds (highFirst.state 5) 2 1 := by
  refine ⟨(replicas_agree lowFirst highFirst (by decide) ?_).1 5 (by decide), by decide +kernel,
    by decide +kernel⟩
  decide +kernel

end Locks
