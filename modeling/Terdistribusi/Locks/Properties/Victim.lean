import Terdistribusi.Locks.Properties.Deadlock

/-!
# When the victim is the youngest transaction

A transaction of a client begins with an `acquire` while it neither holds nor waits for anything,
and lasts for as long as it does. The detector keeps an age for each client instead. It sets the age
at the first `acquire` without one, and forgets it when the client is removed from the graph, which
is at every release that frees the resource and at every `release_all`.

The two agree exactly for as long as a client is removed when its transaction ends, and only then
(`AgeFollows`); then the victim of every cycle is its youngest transaction.
-/

namespace Locks

open Infra LockManager

variable {Client Resource : Type} [DecidableEq Client] [DecidableEq Resource]

/-! ## Ages -/

/-- The recorded age of client `c`. -/
def ageOf (s : LockManager Client Resource) (c : Client) : Option Time :=
  s.deadlockDetector.clientAge.get? c

/-- The command takes client `c` out of the detector. -/
def removes (s : LockManager Client Resource) (c : Client) : Command Client Resource → Prop
  | .acquire _ _ _ _ => False
  | .release c' r => c' = c ∧ ((view s).cell r).SoleHolder c'
  | .releaseAll c' | .abort c' => c' = c

/-- The command is an `acquire` of client `c`. -/
def Command.acquiresFor (c : Client) : Command Client Resource → Prop
  | .acquire c' _ _ _ => c' = c
  | _ => False

omit [DecidableEq Client] [DecidableEq Resource] in
/-- A command is an `acquire` of one client. -/
theorem Command.acquiresFor_unique {u v : Client} {cmd : Command Client Resource}
    (hu : cmd.acquiresFor u) (hv : cmd.acquiresFor v) : u = v := by
  cases cmd with
  | acquire c r mode lease => exact Eq.trans (Eq.symm hu) hv
  | release c r => exact hu.elim
  | releaseAll c => exact hu.elim
  | abort c => exact hu.elim

instance (c : Client) (cmd : Command Client Resource) : Decidable (cmd.acquiresFor c) :=
  match cmd with
  | .acquire _ _ _ _ => inferInstanceAs (Decidable (_ = _))
  | .release _ _ | .releaseAll _ | .abort _ => inferInstanceAs (Decidable False)

namespace DeadlockDetector

theorem get?_setClientAge (c u : Client) (ts : Time) (d : DeadlockDetector Client) :
    (d.setClientAge c ts).clientAge.get? u =
      if u = c then some ((d.clientAge.get? u).getD ts) else d.clientAge.get? u := by
  unfold setClientAge Dict.contains
  cases hc : d.clientAge.get? c with
  | some t =>
    by_cases hu : u = c
    · subst hu
      simp [hc]
    · simp [hu]
  | none =>
    by_cases hu : u = c
    · subst hu
      simp [hc]
    · simp [hu, Dict.get?_set_ne _ _ (Ne.symm hu)]

theorem clientAge_addWait (w h : Client) (d : DeadlockDetector Client) :
    (d.addWait w h).clientAge = d.clientAge := by
  unfold addWait
  split <;> rfl

theorem clientAge_foldl_addWait (c : Client) : ∀ (hs : List Client) (d : DeadlockDetector Client),
    (hs.foldl (fun d h => if h ≠ c then d.addWait c h else d) d).clientAge = d.clientAge
  | [], _ => rfl
  | h :: hs, d => by
    rw [List.foldl_cons, clientAge_foldl_addWait c hs]
    split
    · exact clientAge_addWait c h d
    · rfl

theorem get?_removeClient (c u : Client) (d : DeadlockDetector Client) :
    (d.removeClient c).clientAge.get? u = if c = u then none else d.clientAge.get? u :=
  Dict.get?_erase _ c u

end DeadlockDetector

/-- What a release does to the ages. -/
theorem ageOf_doRelease (clock : ℕ → Time) (c : Client) (r : Resource)
    (s : LockManager Client Resource) (u : Client) : ageOf (s.doRelease clock c r).2 u =
      if c = u ∧ ((view s).cell r).SoleHolder c then none else ageOf s u := by
  by_cases hc : c ∈ (s.lockState r).holders.keys
  · rw [doRelease_of_holding clock c r hc]
    have hsole : ((view s).cell r).SoleHolder c ↔
        ((s.lockState r).holders.erase c).keys = [] := by
      rw [Dict.keys_erase_eq_nil_iff hc]
      simp [Cell.SoleHolder, view, LockState.cell]
    show (released s c r).deadlockDetector.clientAge.get? u = _
    unfold released
    by_cases hnil : ((s.lockState r).holders.erase c).keys = []
    · have hheld := (isHeld_eq_false_iff
        { s.lockState r with holders := (s.lockState r).holders.erase c }).mpr hnil
      dsimp only
      rw [hheld, if_neg Bool.false_ne_true, DeadlockDetector.get?_removeClient]
      simp [hsole, hnil, ageOf]
    · have hheld : ¬ LockState.isHeld
          { s.lockState r with holders := (s.lockState r).holders.erase c } = false := fun h =>
        hnil ((isHeld_eq_false_iff _).mp h)
      rw [Bool.not_eq_false] at hheld
      dsimp only
      rw [hheld, if_pos rfl, if_neg fun h => hnil (hsole.mp h.2)]
      rfl
  · rw [doRelease_of_not_holding clock c r hc, if_neg]
    rintro ⟨-, hsole⟩
    exact hc ((holding_view s c r).mp (Dict.keys_eq_singleton_iff.mp hsole).1)

theorem ageOf_releaseEach (clock : ℕ → ℕ → Time) (c : Client) {u : Client} (hu : c ≠ u) :
    ∀ (rs : List Resource) (i count : ℕ) (s : LockManager Client Resource),
      ageOf (releaseEach clock c i rs count s).2 u = ageOf s u
  | [], _, _, _ => rfl
  | r :: rs, i, count, s => by
    rw [releaseEach, ageOf_releaseEach clock c hu rs, ageOf_doRelease, if_neg fun h => hu h.1]

theorem ageOf_doReleaseAll (clock : ℕ → ℕ → Time) (order : List Resource) (c u : Client)
    (s : LockManager Client Resource) :
    ageOf (s.doReleaseAll clock order c).2 u = if c = u then none else ageOf s u := by
  show ((releaseEach clock c 0 order 0 s).2.deadlockDetector.removeClient c).clientAge.get? u = _
  rw [DeadlockDetector.get?_removeClient]
  split
  · rfl
  · next hu => exact ageOf_releaseEach clock c hu order 0 0 s

/-- **The ages after a command.** -/
theorem ageOf_step {s s' : LockManager Client Resource} {a : Applied Client Resource}
    (hs : step s a = some s') (u : Client) :
    (a.1.acquiresFor u → ageOf s' u = some ((ageOf s u).getD (a.2.clock 0 0))) ∧
      (removes s u a.1 → ageOf s' u = none) ∧
      (¬ a.1.acquiresFor u → ¬ removes s u a.1 → ageOf s' u = ageOf s u) := by
  obtain ⟨-, rfl⟩ := step_eq_some hs
  obtain ⟨cmd, env⟩ := a
  cases cmd with
  | acquire c r m lease =>
    have hage : ageOf (s.doAcquire (env.clock 0) env.requestId c r m
        (lease.getD s.defaultLease)).2 u =
          if u = c then some ((ageOf s u).getD (env.clock 0 0)) else ageOf s u := by
      unfold doAcquire ageOf
      dsimp only
      split
      · exact DeadlockDetector.get?_setClientAge c u _ _
      · rw [DeadlockDetector.clientAge_foldl_addWait]
        exact DeadlockDetector.get?_setClientAge c u _ _
    refine ⟨?_, False.elim, fun hc _ => hage.trans (if_neg fun h => hc h.symm)⟩
    rintro rfl
    exact hage.trans (if_pos rfl)
  | release c r =>
    have hage := ageOf_doRelease (env.clock 0) c r s u
    refine ⟨False.elim, ?_, fun _ hno => hage.trans ?_⟩
    · rintro ⟨rfl, hsole⟩
      exact hage.trans (if_pos ⟨rfl, hsole⟩)
    · exact if_neg fun h => hno ⟨h.1, h.2⟩
  | releaseAll c =>
    have hage := ageOf_doReleaseAll env.clock env.order c u s
    exact ⟨False.elim, fun h => hage.trans (if_pos h), fun _ hno => hage.trans (if_neg hno)⟩
  | abort c =>
    have hage := ageOf_doReleaseAll env.clock env.order c u s
    exact ⟨False.elim, fun h => hage.trans (if_pos h), fun _ hno => hage.trans (if_neg hno)⟩

/-! ## Transactions -/

/-- Client `c` holds or waits for some resource. -/
def Active (s : LockManager Client Resource) (c : Client) : Prop := ∃ r, Holds s c r ∨ Waits s c r

/-- The command takes its client out of the detector exactly when its transaction ends. -/
def AgeFollows (s : LockManager Client Resource) : Command Client Resource → Prop
  | .acquire _ _ _ _ => True
  | .release c r => ((view s).cell r).SoleHolder c ↔
      Holds s c r ∧ ∀ r', ¬ Waits s c r' ∧ (Holds s c r' → r' = r)
  | .releaseAll c | .abort c => ∀ r, ¬ Waits s c r

instance [Fintype Resource] (s : LockManager Client Resource) (cmd : Command Client Resource) :
    Decidable (AgeFollows s cmd) :=
  match cmd with
  | .acquire _ _ _ _ => inferInstanceAs (Decidable True)
  | .release _ _ => inferInstanceAs (Decidable (_ ↔ _))
  | .releaseAll _ | .abort _ => inferInstanceAs (Decidable (∀ _, _))

instance [Fintype Resource] (s : LockManager Client Resource) (c : Client) :
    Decidable (Active s c) :=
  inferInstanceAs (Decidable (∃ _, _))

section Step

variable {s s' : LockManager Client Resource} {a : Applied Client Resource}

theorem present_view (s : LockManager Client Resource) (c : Client) (r : Resource) :
    ((view s).cell r).Present c ↔ Holds s c r ∨ Waits s c r :=
  or_congr (holding_view s c r) (waiting_view s c r)

theorem exists_acquires_iff {u : Client} {cmd : Command Client Resource} :
    cmd.acquiresFor u ↔ ∃ r, cmd.acquires u r = true := by
  cases cmd <;> simp [Command.acquiresFor, Command.acquires]

/-- A client becomes active by its own `acquire` only, and stays so at a resource that it waits for
or that is not released. -/
theorem active_step (h : Indexed s) (hs : step s a = some s') (u : Client) :
    Active s' u ↔ a.1.acquiresFor u ∨ ∃ r, (Holds s u r ∨ Waits s u r) ∧
      ¬ (a.1.releases u r = true ∧ Holds s u r ∧ ¬ Waits s u r) := by
  have hcell : ∀ r, Holds s' u r ∨ Waits s' u r ↔ a.1.acquires u r = true ∨
      (Holds s u r ∨ Waits s u r) ∧ ¬ (a.1.releases u r = true ∧ Holds s u r ∧ ¬ Waits s u r) := by
    intro r
    have hpresent := Cell.present_actOn u r a.1 ((view s).cell r)
    rw [holding_view, waiting_view, present_view] at hpresent
    rw [← hpresent, ← present_view, view_step h hs]
    rfl
  unfold Active
  rw [exists_acquires_iff, ← exists_or]
  exact exists_congr hcell

/-- Where the age follows, only a client whose transaction is over is taken out. -/
theorem not_active_of_removes (h : Indexed s) (hs : step s a = some s')
    (hage : AgeFollows s a.1) {u : Client} (hr : removes s u a.1) : ¬ Active s' u := by
  rw [active_step h hs]
  obtain ⟨cmd, env⟩ := a
  cases cmd with
  | acquire c r m lease => exact hr.elim
  | release c r =>
    obtain ⟨rfl, hsole⟩ := hr
    obtain ⟨hholds, hno⟩ := hage.mp hsole
    rintro (hacq | ⟨r', hp, hnot⟩)
    · exact hacq
    · have hholds' := hp.resolve_right (hno r').1
      obtain rfl := (hno r').2 hholds'
      exact hnot ⟨by simp [Command.releases], hholds, (hno r').1⟩
  | releaseAll c =>
    obtain rfl := hr
    rintro (hacq | ⟨r', hp, hnot⟩)
    · exact hacq
    · exact hnot ⟨by simp [Command.releases], hp.resolve_right (hage r'), hage r'⟩
  | abort c =>
    obtain rfl := hr
    rintro (hacq | ⟨r', hp, hnot⟩)
    · exact hacq
    · exact hnot ⟨by simp [Command.releases], hp.resolve_right (hage r'), hage r'⟩

/-- Where the age follows, a client whose transaction ends is taken out. -/
theorem removes_of_not_active (h : Indexed s) (hs : step s a = some s')
    (hage : AgeFollows s a.1) {u : Client} (hu : Active s u) (hno : ¬ Active s' u) :
    removes s u a.1 := by
  rw [active_step h hs] at hno
  obtain ⟨-, hall⟩ := not_or.mp hno
  have hgone : ∀ r, Holds s u r ∨ Waits s u r →
      a.1.releases u r = true ∧ Holds s u r ∧ ¬ Waits s u r := fun r hp =>
    by_contra fun hnot => hall ⟨r, hp, hnot⟩
  obtain ⟨r₀, hr₀⟩ := hu
  obtain ⟨hrel, hholds, -⟩ := hgone r₀ hr₀
  obtain ⟨cmd, env⟩ := a
  cases cmd with
  | acquire c r m lease => cases hrel
  | release c r =>
    have hsame : ∀ r', Holds s u r' ∨ Waits s u r' → c = u ∧ r = r' := fun r' hp => by
      simpa [Command.releases] using (hgone r' hp).1
    obtain ⟨rfl, rfl⟩ := hsame r₀ hr₀
    refine ⟨rfl, hage.mpr ⟨hholds, fun r' => ⟨fun hw => ?_, fun hh => ?_⟩⟩⟩
    · exact (hgone r' (Or.inr hw)).2.2 hw
    · exact (hsame r' (Or.inl hh)).2.symm
  | releaseAll c =>
    have hcu : c = u := of_decide_eq_true hrel
    exact hcu
  | abort c =>
    have hcu : c = u := of_decide_eq_true hrel
    exact hcu

/-- A command adds edges from the client of an `acquire` only, and a client that is taken out has
none left. -/
theorem mem_holdersOf_step (h : Indexed s) (hs : step s a = some s') {u v : Client}
    (hv : v ∈ s'.deadlockDetector.holdersOf u) :
    ¬ removes s u a.1 ∧ (a.1.acquiresFor u ∨ v ∈ s.deadlockDetector.holdersOf u) := by
  have hgraph : v ∈ (view s).graph a.1 u := by
    have hview : s'.deadlockDetector.holdersOf = (view s).graph a.1 :=
      congrArg Table.waitFor (view_step h hs)
    rwa [hview] at hv
  have hdrop : ∀ c, v ∈ dropClient c (view s).waitFor u → c ≠ u ∧
      v ∈ s.deadlockDetector.holdersOf u := fun c hmem => by
    obtain ⟨hu, -, hold⟩ := Table.mem_dropClient.mp hmem
    exact ⟨Ne.symm hu, hold⟩
  obtain ⟨cmd, env⟩ := a
  cases cmd with
  | acquire c r m lease =>
    refine ⟨id, ?_⟩
    simp only [Table.graph] at hgraph
    by_cases hu : c = u
    · exact Or.inl hu
    · refine Or.inr ?_
      split at hgraph
      · exact hgraph
      · rwa [Function.update_of_ne (Ne.symm hu)] at hgraph
  | release c r =>
    simp only [Table.graph] at hgraph
    split at hgraph
    · exact ⟨fun hr => (hdrop c hgraph).1 hr.1, Or.inr (hdrop c hgraph).2⟩
    · next hsole => exact ⟨fun hr => hsole hr.2, Or.inr hgraph⟩
  | releaseAll c => exact ⟨(hdrop c hgraph).1, Or.inr (hdrop c hgraph).2⟩
  | abort c => exact ⟨(hdrop c hgraph).1, Or.inr (hdrop c hgraph).2⟩

end Step

/-! ## Runs -/

section Runs

variable {defaultLease : Time} (run : CommandRun Client Resource defaultLease)

/-- The transaction of client `c` at time `i` has begun with event `m`. -/
def Started (c : Client) (m i : ℕ) : Prop :=
  m < i ∧ (run.event m).1.acquiresFor c ∧ ¬ Active (run.state m) c ∧
    ∀ j ≤ i, m < j → Active (run.state j) c

/-- The clock reading of event `m` that is taken for an age. -/
def startReading (m : ℕ) : Time := (run.event m).2.clock 0 0

/-- The readings taken for ages increase along the run. -/
def ReadingsIncrease : Prop :=
  ∀ j < run.length, ∀ i < j, ∀ c d, (run.event i).1.acquiresFor c →
    (run.event j).1.acquiresFor d → startReading run i < startReading run j

instance [Fintype Resource] (c : Client) (m i : ℕ) : Decidable (Started run c m i) :=
  inferInstanceAs (Decidable (_ ∧ _))

instance [Fintype Client] : Decidable (ReadingsIncrease run) :=
  inferInstanceAs (Decidable (∀ j < run.length, ∀ i < j, ∀ c d,
    (run.event i).1.acquiresFor c → (run.event j).1.acquiresFor d →
      startReading run i < startReading run j))

variable {run}

/-- A transaction begins once. -/
theorem Started.unique {c : Client} {m m' i : ℕ} (h : Started run c m i)
    (h' : Started run c m' i) : m = m' := by
  obtain ⟨hm, -, hno, hall⟩ := h
  obtain ⟨hm', -, hno', hall'⟩ := h'
  rcases Nat.lt_trichotomy m m' with hlt | heq | hgt
  · exact absurd (hall m' hm'.le hlt) hno'
  · exact heq
  · exact absurd (hall' m hm.le hgt) hno

theorem Started.succ {c : Client} {m i : ℕ} (h : Started run c m i)
    (hactive : Active (run.state (i + 1)) c) : Started run c m (i + 1) := by
  obtain ⟨hm, hacq, hno, hall⟩ := h
  refine ⟨by omega, hacq, hno, fun j hj hmj => ?_⟩
  rcases Nat.lt_succ_iff_lt_or_eq.mp (Nat.lt_succ_of_le hj) with hlt | rfl
  · exact hall j (Nat.le_of_lt_succ hlt) hmj
  · exact hactive

variable (run)

/-- The recorded age is that of the current transaction. -/
structure AgeOk (i : ℕ) (c : Client) : Prop where
  started : Active (run.state i) c →
    ∃ m, Started run c m i ∧ ageOf (run.state i) c = some (startReading run m)
  ended : ¬ Active (run.state i) c → ageOf (run.state i) c = none

theorem ageOk_step {i : ℕ} (hi : i < run.length)
    (hage : AgeFollows (run.state i) (run.event i).1) {c : Client} (h : AgeOk run i c) :
    AgeOk run (i + 1) c := by
  have hind := indexed run i hi.le
  have hs := run.state_succ i hi
  obtain ⟨hset, hremoved, hkeep⟩ := ageOf_step hs c
  by_cases hacq : (run.event i).1.acquiresFor c
  · have hactive : Active (run.state (i + 1)) c := (active_step hind hs c).mpr (Or.inl hacq)
    refine ⟨fun _ => ?_, fun hno => absurd hactive hno⟩
    by_cases hbefore : Active (run.state i) c
    · obtain ⟨m, hm, hage'⟩ := h.started hbefore
      refine ⟨m, hm.succ hactive, (hset hacq).trans ?_⟩
      rw [hage', Option.getD_some]
    · refine ⟨i, ⟨i.lt_succ_self, hacq, hbefore, fun j hj hij => ?_⟩, (hset hacq).trans ?_⟩
      · obtain rfl : j = i + 1 := by omega
        exact hactive
      · rw [h.ended hbefore, Option.getD_none]
        rfl
  · have hback : Active (run.state (i + 1)) c → Active (run.state i) c := fun hactive => by
      rcases (active_step hind hs c).mp hactive with hacq' | ⟨r, hp, -⟩
      · exact absurd hacq' hacq
      · exact ⟨r, hp⟩
    refine ⟨fun hactive => ?_, fun hno => ?_⟩
    · obtain ⟨m, hm, hage'⟩ := h.started (hback hactive)
      have hstay : ¬ removes (run.state i) c (run.event i).1 := fun hr =>
        not_active_of_removes hind hs hage hr hactive
      exact ⟨m, hm.succ hactive, (hkeep hacq hstay).trans hage'⟩
    · by_cases hr : removes (run.state i) c (run.event i).1
      · exact hremoved hr
      · rw [hkeep hacq hr]
        exact h.ended fun hbefore => hr (removes_of_not_active hind hs hage hbefore hno)

theorem ageOk (hage : ∀ i < run.length, AgeFollows (run.state i) (run.event i).1) (c : Client) :
    ∀ i ≤ run.length, AgeOk run i c := by
  refine run.induction ⟨?_, fun _ => ?_⟩ fun i hi h => ageOk_step run hi (hage i hi) h
  · rintro ⟨r, hp⟩
    rw [run.state_zero] at hp
    rcases hp with hp | ⟨w, hw, -⟩
    · cases hp
    · cases hw
  · rw [run.state_zero]
    rfl

/-- A client that waits for somebody in the graph has an age. -/
theorem ageOf_isSome : ∀ i ≤ run.length, ∀ u v,
    v ∈ (run.state i).deadlockDetector.holdersOf u → (ageOf (run.state i) u).isSome := by
  refine run.induction ?_ fun i hi ih u v hv => ?_
  · rw [run.state_zero]
    intro u v hv
    cases hv
  · have hs := run.state_succ i hi
    obtain ⟨hset, -, hkeep⟩ := ageOf_step hs u
    obtain ⟨hno, hor⟩ := mem_holdersOf_step (indexed run i hi.le) hs hv
    by_cases hacq : (run.event i).1.acquiresFor u
    · rw [hset hacq]
      rfl
    · rw [hkeep hacq hno]
      exact ih u v (hor.resolve_left hacq)

/-- Every client of a cycle waits for the next one, so it has an age, and that of a transaction. -/
theorem started_of_mem_cycle
    (hage : ∀ i < run.length, AgeFollows (run.state i) (run.event i).1) {i : ℕ}
    (hi : i ≤ run.length) {order : Client → List Client}
    (horder : ∀ u, (order u).toFinset = (run.state i).deadlockDetector.holdersOf u)
    {w : Client} {l : List Client}
    (hchain : List.IsChain (fun u v => v ∈ order u) (w :: (l ++ [w]))) {u : Client}
    (hu : u ∈ w :: (l ++ [w])) :
    ∃ m, Started run u m i ∧ ageOf (run.state i) u = some (startReading run m) := by
  obtain ⟨v, hv, -⟩ := Relation.TransGen.head'_iff.mp (Dfs.transGen_of_mem hchain hu)
  rw [DeadlockDetector.mem_order horder] at hv
  have hsome := ageOf_isSome run i hi u v hv
  have hok := ageOk run hage u i hi
  refine hok.started (by_contra fun hno => ?_)
  rw [hok.ended hno] at hsome
  cases hsome

/-- **The victim is the youngest transaction** of the cycle, in every state of a run in which the
ages follow the transactions. -/
theorem victim_youngest (hclock : ReadingsIncrease run)
    (hage : ∀ i < run.length, AgeFollows (run.state i) (run.event i).1) {i : ℕ}
    (hi : i ≤ run.length) {order : Client → List Client}
    (horder : ∀ u, (order u).toFinset = (run.state i).deadlockDetector.holdersOf u)
    {limit : ℕ} {cycle : List Client}
    (hcycle : (run.state i).deadlockDetector.detectCycle limit order = .ok (some cycle)) :
    ∃ v m, (run.state i).deadlockDetector.selectVictim cycle = some v ∧ v ∈ cycle ∧
      Started run v m i ∧ ∀ u ∈ cycle, u ≠ v → ∃ k, Started run u k i ∧ k < m := by
  obtain ⟨⟨w, l, rfl, hchain⟩, -⟩ := DeadlockDetector.isSimpleCycle_of_detectCycle hcycle
  obtain ⟨v, hv⟩ : ∃ v, (run.state i).deadlockDetector.selectVictim (w :: (l ++ [w])) = some v := by
    refine Option.isSome_iff_exists.mp (Option.isSome_iff_ne_none.mpr fun hnone => ?_)
    cases List.argmax_eq_none.mp hnone
  have hmem : v ∈ w :: (l ++ [w]) := List.argmax_mem hv
  obtain ⟨m, hm, hagev⟩ := started_of_mem_cycle run hage hi horder hchain hmem
  refine ⟨v, m, hv, hmem, hm, fun u hu hne => ?_⟩
  obtain ⟨k, hk, hageu⟩ := started_of_mem_cycle run hage hi horder hchain hu
  refine ⟨k, hk, ?_⟩
  have hle : startReading run k ≤ startReading run m := by
    have hmax := List.le_of_mem_argmax hu hv
    rw [ageOf] at hagev hageu
    rwa [hagev, hageu] at hmax
  rcases Nat.lt_trichotomy k m with hlt | rfl | hgt
  · exact hlt
  · exact absurd (Command.acquiresFor_unique hk.2.1 hm.2.1) hne
  · have hkl : k < run.length := by
      have := hk.1
      omega
    exact absurd hle (not_le.mpr (hclock k hkl m hgt v u hm.2.1 hk.2.1))

end Runs

/-! ## A youngest victim -/

/-- A command of the example runs, whose clock readings come after those of the commands before. -/
def timed (i : ℕ) (cmd : Command (Fin 2) (Fin 3)) : Applied (Fin 2) (Fin 3) :=
  (cmd, { clock := fun _ k => 10 * i + k, requestId := i, order := [] })

/-- Clients 0 and 1 each hold a resource and ask for the other's. -/
def crossedEvents : List (Applied (Fin 2) (Fin 3)) :=
  [timed 1 (.acquire 0 0 .exclusive none), timed 2 (.acquire 1 1 .exclusive none),
    timed 3 (.acquire 0 1 .exclusive none), timed 4 (.acquire 1 0 .exclusive none)]

def crossed : CommandRun (Fin 2) (Fin 3) 30 :=
  Run.ofEvents _ _ crossedEvents (timed 0 (.releaseAll 0)) (by decide +kernel)

theorem victim_youngest_crossed :
    ∃ v m, (crossed.state 4).deadlockDetector.selectVictim [0, 1, 0] = some v ∧ v ∈ [0, 1, 0] ∧
      Started crossed v m 4 ∧ ∀ u ∈ ([0, 1, 0] : List (Fin 2)), u ≠ v →
        ∃ k, Started crossed u k 4 ∧ k < m :=
  have horder : ∀ u, ([u + 1] : List (Fin 2)).toFinset =
      (crossed.state 4).deadlockDetector.holdersOf u := by decide +kernel
  have hcycle : (crossed.state 4).deadlockDetector.detectCycle 1000 (fun u => [u + 1]) =
      .ok (some [0, 1, 0]) := by decide +kernel
  victim_youngest crossed (by decide +kernel) (by decide +kernel) (by decide) horder hcycle

/-! ## A forgotten age -/

/-- Client 0 acquires and releases resource 2 between, and keeps resource 0. -/
def forgottenEvents : List (Applied (Fin 2) (Fin 3)) :=
  [timed 1 (.acquire 0 0 .exclusive none), timed 2 (.acquire 1 1 .exclusive none),
    timed 3 (.acquire 0 2 .exclusive none), timed 4 (.release 0 2),
    timed 5 (.acquire 0 1 .exclusive none), timed 6 (.acquire 1 0 .exclusive none)]

def forgotten : CommandRun (Fin 2) (Fin 3) 30 :=
  Run.ofEvents _ _ forgottenEvents (timed 0 (.releaseAll 0)) (by decide +kernel)

/-- The victim is client 0, and the transaction of client 1 is younger. -/
theorem forgotten_victim_older :
    ReadingsIncrease forgotten ∧
      (∀ u, ([u + 1] : List (Fin 2)).toFinset =
        (forgotten.state 6).deadlockDetector.holdersOf u) ∧
      (forgotten.state 6).deadlockDetector.detectCycle 1000 (fun u => [u + 1]) =
        .ok (some [0, 1, 0]) ∧
      (forgotten.state 6).deadlockDetector.selectVictim [0, 1, 0] = some 0 ∧
      Started forgotten 0 0 6 ∧ Started forgotten 1 1 6 :=
  ⟨by decide +kernel, by decide +kernel, by decide +kernel, by decide +kernel, by decide +kernel,
    by decide +kernel⟩

end Locks
