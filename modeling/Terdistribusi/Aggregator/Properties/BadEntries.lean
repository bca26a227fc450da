import Terdistribusi.Aggregator.Properties.ExactlyOnce
import Mathlib.Data.Finset.Basic

/-!
# Entries that cannot be processed

What becomes of a list of entries that a worker obtains when `process_event` raises for some of
them. The loop over `msgs` catches the exception of one entry and goes on. The loop over `claimed`
does not: the exception ends the iteration, and the entries behind the bad one are left.

* `reading_run`, `claiming_run` — how far a worker has come with its list at each time of an
  iteration
* `others_settled_iff`
-/

namespace Aggregator

open Infra

variable {Value Worker : Type}

/-! ## Iterations -/

namespace Position

/-- The worker is between two iterations, or does not run. -/
def resting : Position Value → Bool
  | .stopped | .top _ | .sleeping _ => true
  | _ => false

/-- The entries that the next call acks. -/
def acks : Position Value → List ℕ
  | .acking _ msgId _ => [msgId]
  | .ackingAll ackIds => ackIds
  | _ => []

/-- The next call returns, unless it is `process_event` of a bad entry, which raises. -/
def answers (bad : Finset ℕ) (o : Outcome) : Position Value → Bool
  | .claiming _ (e :: _) | .processing (e :: _) _ => o = .done ↔ e.1 ∉ bad
  | .acking .. | .reading _ | .ackingAll _ => o = .done
  | _ => true

end Position

namespace System

variable [DecidableEq Worker]

/-- The worker does not crash, and of its calls only `process_event` of a bad entry raises. -/
def onlyBadRaise (bad : Finset ℕ) (w : Worker) (s : System Value Worker) :
    Step Value Worker → Bool
  | .work w' o _ => w' = w → (s.workers w).answers bad o
  | .crash w' => w' ≠ w
  | _ => true

end System

namespace SystemRun

variable [DecidableEq Worker] (run : SystemRun Value Worker) (w : Worker)

/-- The worker claims the list in step `i`. -/
def Claims (i : ℕ) (l : List (Entry Value)) : Prop :=
  i < run.length ∧ ∃ idle claimed, run.event i = .work w .done claimed ∧
    (run.state i).workers w = .top idle ∧ (run.state (i + 1)).workers w = .claiming idle l

/-- The worker reads the list in step `i`. -/
def Reads (i : ℕ) (l : List (Entry Value)) : Prop :=
  i < run.length ∧ ∃ idle claimed, run.event i = .work w .done claimed ∧
    (run.state i).workers w = .reading idle ∧ (run.state (i + 1)).workers w = .processing l []

/-- The iteration of the worker that is going on at time `i` is over at time `j`, and in between
only `process_event` of bad entries raises. -/
structure Iteration (bad : Finset ℕ) (i j : ℕ) : Prop where
  le : i ≤ j
  length : j ≤ run.length
  within : ∀ m < j, i ≤ m → ((run.state m).workers w).resting = false ∧
    (run.state m).onlyBadRaise bad w (run.event m) = true
  rests : ((run.state j).workers w).resting = true

/-- `process_event` of the entry returns in step `m`. -/
def Processes (e : Entry Value) (m : ℕ) : Prop :=
  ((run.state m).workers w).next = some e ∧ ∃ claimed, run.event m = .work w .done claimed

/-- An ack of the entry returns in step `m`. -/
def Acks (e : Entry Value) (m : ℕ) : Prop :=
  e.1 ∈ ((run.state m).workers w).acks ∧ ∃ claimed, run.event m = .work w .done claimed

/-- The worker processes the entry and acks it from time `i` until time `j`. -/
structure Settles (i j : ℕ) (e : Entry Value) : Prop where
  processes : ∃ m < j, i ≤ m ∧ run.Processes w e m
  acks : ∃ m < j, i ≤ m ∧ run.Acks w e m
  acked : (run.state j).stream.IsAcked e.1

end SystemRun

/-! ## The stream -/

namespace System

variable [DecidableEq Worker] {s s' : System Value Worker} {w : Worker} {o : Outcome}

omit [DecidableEq Worker] in
theorem advances_deliver {ids : List ℕ} (h : ∀ i ∈ ids, ¬ s.stream.IsAcked i) :
    s.stream.Advances (s.deliver o w ids).stream := by
  unfold deliver
  split
  · exact .deliver w h
  · exact .refl _

omit [DecidableEq Worker] in
theorem advances_ack (ids : List ℕ) : s.stream.Advances (s.ack o ids).stream := by
  unfold ack
  split
  · exact .ack ids
  · exact .refl _

omit [DecidableEq Worker] in
theorem not_isAcked_toRead : ∀ i ∈ s.toRead, ¬ s.stream.IsAcked i := by
  intro i hi hacked
  have hfresh := (List.mem_filter.mp (List.mem_of_mem_take hi)).2
  unfold ConsumerGroup.IsAcked at hacked
  cases hs : s.stream.status i with
  | fresh => rw [hs] at hacked; cases hacked
  | pending c => rw [hs] at hacked; cases hacked
  | acked => rw [hs] at hfresh; cases hfresh

/-- No entry goes back when a worker takes its turn. -/
theorem advances_work {claimed : List ℕ} (h : s.work w o claimed = some s') :
    s.stream.Advances s'.stream := by
  unfold work at h
  split at h
  · cases h
  · split at h
    · split at h
      · next hc =>
        cases h
        refine advances_deliver fun i hi hacked => ?_
        have hpending := hc.2.2 i hi
        unfold ConsumerGroup.IsAcked at hacked
        cases hs : s.stream.status i with
        | fresh => rw [hs] at hacked; cases hacked
        | pending c => rw [hs] at hacked; cases hacked
        | acked => rw [hs] at hpending; cases hpending
      · cases h
    · cases h
      exact .refl _
  · cases h
    exact .refl _
  · next e _ _ =>
    cases h
    exact (congrArg s.stream.Advances (stream_process e.2)).mpr (.refl _)
  · cases h
    exact advances_ack _
  · cases h
    exact advances_deliver not_isAcked_toRead
  · cases h
    exact .refl _
  · next e _ _ _ =>
    cases h
    exact (congrArg s.stream.Advances (stream_process e.2)).mpr (.refl _)
  · cases h
    exact advances_ack _
  · cases h
    exact .refl _

/-- **No entry of the stream goes back.** -/
theorem advances_step {e : Step Value Worker} (h : s.step e = some s') :
    s.stream.Advances s'.stream := by
  cases e with
  | work w o claimed => exact advances_work h
  | request events =>
    obtain rfl := step_request h
    exact .refl _
  | count k =>
    obtain ⟨rest, -, rfl⟩ := step_count h
    exact .refl _
  | publish k =>
    obtain ⟨ev, rest, -, rfl⟩ := step_publish h
    exact .add ev
  | finish k =>
    obtain ⟨-, rfl⟩ := step_finish h
    exact .refl _
  | start w =>
    obtain rfl := step_start h
    exact .refl _
  | crash w =>
    obtain rfl := Option.some.inj h
    exact .refl _

end System

/-! ## One step of an iteration -/

namespace System

variable [DecidableEq Worker] {s s' : System Value Worker} {w : Worker}

omit [DecidableEq Worker] in
theorem workers_process (o : Outcome) (ev : Event Value) (w' : Worker) :
    (s.process o ev w').workers = s.workers := by
  unfold process
  split <;> rfl

omit [DecidableEq Worker] in
theorem workers_deliver (o : Outcome) (w' : Worker) (ids : List ℕ) :
    (s.deliver o w' ids).workers = s.workers := by
  unfold deliver
  split <;> rfl

omit [DecidableEq Worker] in
theorem workers_ack (o : Outcome) (ids : List ℕ) : (s.ack o ids).workers = s.workers := by
  unfold ack
  split <;> rfl

theorem workers_goTo_ne {w' : Worker} (h : w' ≠ w) (p : Position Value) :
    (s.goTo w' p).workers w = s.workers w :=
  Function.update_of_ne (Ne.symm h) _ _

@[simp] theorem workers_goTo (p : Position Value) : (s.goTo w p).workers w = p :=
  Function.update_self _ _ _

/-- The turn of another worker. -/
theorem workers_work_ne {w' : Worker} {o : Outcome} {claimed : List ℕ} (hne : w' ≠ w)
    (h : s.work w' o claimed = some s') : s'.workers w = s.workers w := by
  have hworks := works_of_work h
  generalize s.commits (.work w' o claimed) = c at hworks
  cases hworks with
  | idle p => exact workers_goTo_ne hne p
  | deliver ids p =>
    exact (workers_goTo_ne hne p).trans (congrFun (workers_deliver o w' ids) w)
  | process e p =>
    exact (workers_goTo_ne hne p).trans (congrFun (workers_process o e.2 w') w)
  | ack ids p => exact (workers_goTo_ne hne p).trans (congrFun (workers_ack o ids) w)

/-- **A step that is not a turn of the worker leaves it where it is**, while it is not between two
iterations and does not crash. -/
theorem workers_step {e : Step Value Worker} (hstep : s.step e = some s')
    (hresting : (s.workers w).resting = false) (hcrash : e ≠ .crash w)
    (hwork : ∀ o claimed, e ≠ .work w o claimed) : s'.workers w = s.workers w := by
  cases e with
  | work w' o claimed =>
    exact workers_work_ne (fun h => hwork o claimed (by rw [h])) hstep
  | request events => rw [step_request hstep]
  | count k =>
    obtain ⟨rest, -, rfl⟩ := step_count hstep
    rfl
  | publish k =>
    obtain ⟨ev, rest, -, rfl⟩ := step_publish hstep
    rfl
  | finish k =>
    obtain ⟨-, rfl⟩ := step_finish hstep
    rfl
  | start w' =>
    have hne : w' ≠ w := by
      rintro rfl
      simp only [step] at hstep
      split at hstep
      · next hstopped =>
        rw [hstopped] at hresting
        cases hresting
      · cases hstep
    rw [step_start hstep, workers_goTo_ne hne]
  | crash w' =>
    obtain rfl := Option.some.inj hstep
    exact workers_goTo_ne (fun h => hcrash (by rw [h])) _

end System

namespace SystemRun

variable [DecidableEq Worker] {run : SystemRun Value Worker} {w : Worker} {bad : Finset ℕ}
  {i j m : ℕ} {l : List (Entry Value)} {e : Entry Value}

theorem advances (run : SystemRun Value Worker) (him : i ≤ m) (hm : m ≤ run.length) :
    (run.state i).stream.Advances (run.state m).stream :=
  run.rel (R := fun s s' => s.stream.Advances s'.stream) (fun _ => .refl _)
    (fun _ _ _ => .trans) (fun n hn => System.advances_step (run.state_succ n hn)) him hm

/-- In an iteration a step is a turn of the worker with an outcome that its position allows, or
leaves the worker where it is. -/
theorem Iteration.cases (h : run.Iteration w bad i j) (him : i ≤ m) (hmj : m < j) :
    (∃ o claimed, run.event m = .work w o claimed ∧
      ((run.state m).workers w).answers bad o = true ∧
      (run.state m).work w o claimed = some (run.state (m + 1))) ∨
    (run.state (m + 1)).workers w = (run.state m).workers w ∧
      ∀ o claimed, run.event m ≠ .work w o claimed := by
  obtain ⟨hresting, hraise⟩ := h.within m hmj him
  have hstep := run.state_succ m (hmj.trans_le h.length)
  by_cases hwork : ∃ o claimed, run.event m = .work w o claimed
  · obtain ⟨o, claimed, hevent⟩ := hwork
    rw [hevent] at hraise hstep
    refine Or.inl ⟨o, claimed, hevent, ?_, hstep⟩
    simpa [System.onlyBadRaise] using hraise
  · have hne : ∀ o claimed, run.event m ≠ .work w o claimed := fun o claimed hevent =>
      hwork ⟨o, claimed, hevent⟩
    refine Or.inr ⟨System.workers_step hstep hresting (fun hcrash => ?_) hne, hne⟩
    rw [hcrash] at hraise
    simp [System.onlyBadRaise] at hraise

/-- What is settled stays settled. -/
theorem Settles.succ (h : run.Settles w i m e) (hm : m < run.length)
    (he : (run.state m).stream.Delivered e.1) : run.Settles w i (m + 1) e := by
  obtain ⟨a, ham, hia, hp⟩ := h.processes
  obtain ⟨b, hbm, hib, hack⟩ := h.acks
  exact ⟨⟨a, Nat.lt_succ_of_lt ham, hia, hp⟩, ⟨b, Nat.lt_succ_of_lt hbm, hib, hack⟩,
    (run.advances (Nat.le_succ m) hm).isAcked he.1 h.acked⟩

/-- An ack of an entry that the worker has processed settles it. -/
theorem settles_of_ack (him : i ≤ m) {claimed : List ℕ}
    (hevent : run.event m = .work w .done claimed) {ids : List ℕ}
    (hacks : ((run.state m).workers w).acks = ids) (hmem : e.1 ∈ ids)
    (hstream : (run.state (m + 1)).stream = (run.state m).stream.ack ids)
    (he : (run.state m).stream.Delivered e.1)
    (hprocesses : ∃ a < m, i ≤ a ∧ run.Processes w e a) : run.Settles w i (m + 1) e := by
  obtain ⟨a, ham, hia, hp⟩ := hprocesses
  refine ⟨⟨a, Nat.lt_succ_of_lt ham, hia, hp⟩,
    ⟨m, Nat.lt_succ_self m, him, ?_, claimed, hevent⟩, ?_⟩
  · rw [hacks]
    exact hmem
  · rw [hstream]
    exact ConsumerGroup.isAcked_ack_of_mem he hmem

/-! ## The loop over the claimed entries -/

/-- How far a worker has come at time `m` with a list that it has claimed. -/
inductive Claiming (run : SystemRun Value Worker) (w : Worker) (bad : Finset ℕ)
    (l : List (Entry Value)) (i m : ℕ) : Prop
  /-- before the next entry of the rest is processed -/
  | claiming (idle : ℕ) (pre rest : List (Entry Value)) (hl : l = pre ++ rest)
    (hpos : (run.state m).workers w = .claiming idle rest)
    (hpre : ∀ e ∈ pre, e.1 ∉ bad ∧ run.Settles w i m e)
    (honly : ∀ a < m, i ≤ a → ∀ e, run.Processes w e a → e ∈ pre)
  /-- before the ack of the entry that has been processed -/
  | acking (idle : ℕ) (pre rest : List (Entry Value)) (e : Entry Value) (hl : l = pre ++ e :: rest)
    (hpos : (run.state m).workers w = .acking idle e.1 rest)
    (hpre : ∀ e ∈ pre, e.1 ∉ bad ∧ run.Settles w i m e) (hgood : e.1 ∉ bad)
    (hprocesses : ∃ a < m, i ≤ a ∧ run.Processes w e a)
    (honly : ∀ a < m, i ≤ a → ∀ e', run.Processes w e' a → e' ∈ pre ++ [e])
  /-- after the exception of a bad entry -/
  | stopped (pre rest : List (Entry Value)) (e : Entry Value) (hl : l = pre ++ e :: rest)
    (hpos : ((run.state m).workers w).resting = true)
    (hpre : ∀ e ∈ pre, e.1 ∉ bad ∧ run.Settles w i m e) (hbad : e.1 ∈ bad)
    (honly : ∀ a < m, i ≤ a → ∀ e, run.Processes w e a → e ∈ pre)
  /-- after the last entry -/
  | through (hall : ∀ e ∈ l, e.1 ∉ bad ∧ run.Settles w i m e)

/-- Of the entries that were processed before, none is new when a step processes nothing. -/
theorem only_succ {pre : List (Entry Value)}
    (honly : ∀ a < m, i ≤ a → ∀ e, run.Processes w e a → e ∈ pre)
    (hnone : ∀ e, ¬ run.Processes w e m) :
    ∀ a < m + 1, i ≤ a → ∀ e, run.Processes w e a → e ∈ pre := by
  intro a ha hia e hp
  rcases Nat.lt_succ_iff_lt_or_eq.mp ha with hlt | rfl
  · exact honly a hlt hia e hp
  · exact absurd hp (hnone e)

/-- The next entry is processed, or its exception ends the iteration. -/
theorem Claiming.process {o : Outcome} {claimed : List ℕ} {idle : ℕ} {pre rest : List (Entry Value)}
    (him : i ≤ m) (hl : l = pre ++ e :: rest) (hevent : run.event m = .work w o claimed)
    (hpos : (run.state m).workers w = .claiming idle (e :: rest))
    (hanswers : ((run.state m).workers w).answers bad o = true)
    (hwork : (run.state m).work w o claimed = some (run.state (m + 1)))
    (hpre : ∀ e ∈ pre, e.1 ∉ bad ∧ run.Settles w i (m + 1) e)
    (honly : ∀ a < m, i ≤ a → ∀ e, run.Processes w e a → e ∈ pre) :
    Claiming run w bad l i (m + 1) := by
  rw [hpos] at hanswers
  simp only [System.work, hpos] at hwork
  have hstate := (Option.some.inj hwork).symm
  have hdone : o = .done ↔ e.1 ∉ bad := of_decide_eq_true hanswers
  by_cases hbad : e.1 ∈ bad
  · have hreturns : o.returns = false := by
      cases o with
      | done => exact absurd hbad (hdone.mp rfl)
      | failed => rfl
      | unanswered => rfl
    -- `process_event` raises, and the iteration ends there
    refine .stopped pre rest e hl ?_ hpre hbad (only_succ honly fun e' hp => ?_)
    · rw [hstate, System.workers_goTo, hreturns]
      rfl
    · obtain ⟨claimed', hevent'⟩ := hp.2
      rw [hevent] at hevent'
      cases hevent'
      exact hdone.mp rfl hbad
  · obtain rfl := hdone.mpr hbad
    -- it returns, and the ack of the entry is next
    have hprocesses : run.Processes w e m := ⟨by rw [hpos]; rfl, claimed, hevent⟩
    refine .acking idle pre rest e hl ?_ hpre hbad ⟨m, Nat.lt_succ_self m, him, hprocesses⟩
      fun a ha hia e' hp => ?_
    · rw [hstate, System.workers_goTo]
      rfl
    · rcases Nat.lt_succ_iff_lt_or_eq.mp ha with hlt | rfl
      · exact List.mem_append_left _ (honly a hlt hia e' hp)
      · have hnext := hp.1
        rw [hprocesses.1] at hnext
        cases hnext
        exact List.mem_append_right _ (List.mem_singleton.mpr rfl)

theorem Claiming.ack {o : Outcome} {claimed : List ℕ} {idle : ℕ} {pre rest : List (Entry Value)}
    (him : i ≤ m) (hl : l = pre ++ e :: rest) (hevent : run.event m = .work w o claimed)
    (hpos : (run.state m).workers w = .acking idle e.1 rest)
    (hanswers : ((run.state m).workers w).answers bad o = true)
    (hwork : (run.state m).work w o claimed = some (run.state (m + 1)))
    (hpre : ∀ e ∈ pre, e.1 ∉ bad ∧ run.Settles w i (m + 1) e) (hgood : e.1 ∉ bad)
    (hdelivered : (run.state m).stream.Delivered e.1)
    (hprocesses : ∃ a < m, i ≤ a ∧ run.Processes w e a)
    (honly : ∀ a < m, i ≤ a → ∀ e', run.Processes w e' a → e' ∈ pre ++ [e]) :
    Claiming run w bad l i (m + 1) := by
  rw [hpos] at hanswers
  simp only [System.work, hpos] at hwork
  have hstate := (Option.some.inj hwork).symm
  obtain rfl : o = .done := of_decide_eq_true hanswers
  have hsettles : run.Settles w i (m + 1) e :=
    settles_of_ack him hevent (by rw [hpos]; rfl) (List.mem_singleton.mpr rfl)
      (by rw [hstate]; rfl) hdelivered hprocesses
  refine .claiming idle (pre ++ [e]) rest (by rw [hl]; simp) ?_ (fun e' he' => ?_)
    (only_succ honly fun e' hp => ?_)
  · rw [hstate, System.workers_goTo]
    rfl
  · rcases List.mem_append.mp he' with hold | hnew
    · exact hpre e' hold
    · obtain rfl := List.mem_singleton.mp hnew
      exact ⟨hgood, hsettles⟩
  · have hnext := hp.1
    rw [hpos] at hnext
    cases hnext

/-- **A step of the loop over `claimed`.** -/
theorem Claiming.succ (h : Claiming run w bad l i m) (hiter : run.Iteration w bad i j)
    (him : i ≤ m) (hmj : m < j) (hdelivered : ∀ e ∈ l, (run.state m).stream.Delivered e.1) :
    Claiming run w bad l i (m + 1) := by
  have hm : m < run.length := hmj.trans_le hiter.length
  have hkeep : ∀ pre : List (Entry Value), (∀ e ∈ pre, e ∈ l) →
      (∀ e ∈ pre, e.1 ∉ bad ∧ run.Settles w i m e) →
      ∀ e ∈ pre, e.1 ∉ bad ∧ run.Settles w i (m + 1) e := fun pre hsub hpre e he =>
    ⟨(hpre e he).1, (hpre e he).2.succ hm (hdelivered e (hsub e he))⟩
  have hnone (hother : ∀ o claimed, run.event m ≠ .work w o claimed) (e : Entry Value) :
      ¬ run.Processes w e m := fun hp => by
    obtain ⟨claimed, hevent⟩ := hp.2
    exact hother _ _ hevent
  have hcases := hiter.cases him hmj
  cases h with
  | claiming idle pre rest hl hpos hpre honly =>
    have hpre' := hkeep pre (fun e he => by rw [hl]; exact List.mem_append_left _ he) hpre
    rcases hcases with ⟨o, claimed, hevent, hanswers, hwork⟩ | ⟨hsame, hother⟩
    · cases rest with
      | nil =>
        rw [List.append_nil] at hl
        exact .through (by rw [hl]; exact hpre')
      | cons e rest => exact .process him hl hevent hpos hanswers hwork hpre' honly
    · exact .claiming idle pre rest hl (hsame.trans hpos) hpre'
        (only_succ honly (hnone hother))
  | acking idle pre rest e hl hpos hpre hgood hprocesses honly =>
    have hpre' := hkeep pre (fun e he => by rw [hl]; exact List.mem_append_left _ he) hpre
    rcases hcases with ⟨o, claimed, hevent, hanswers, hwork⟩ | ⟨hsame, hother⟩
    · refine .ack him hl hevent hpos hanswers hwork hpre' hgood (hdelivered e ?_) hprocesses honly
      rw [hl]
      exact List.mem_append_right _ List.mem_cons_self
    · obtain ⟨a, ha, hia, hp⟩ := hprocesses
      exact .acking idle pre rest e hl (hsame.trans hpos) hpre' hgood
        ⟨a, Nat.lt_succ_of_lt ha, hia, hp⟩ (only_succ honly (hnone hother))
  | stopped pre rest e hl hpos =>
    rw [(hiter.within m hmj him).1] at hpos
    cases hpos
  | through hall => exact .through (hkeep l (fun _ he => he) hall)

/-! ## The loop over the entries that were read -/

/-- The entries for which `process_event` returns. -/
def goodIds (bad : Finset ℕ) (l : List (Entry Value)) : List ℕ :=
  (l.filter fun e => e.1 ∉ bad).map Prod.fst

theorem mem_goodIds : e.1 ∈ goodIds bad l ↔ e.1 ∉ bad ∧ e.1 ∈ l.map Prod.fst := by
  unfold goodIds
  simp only [List.mem_map, List.mem_filter, decide_eq_true_eq]
  constructor
  · rintro ⟨x, ⟨hx, hgood⟩, heq⟩
    exact ⟨heq ▸ hgood, x, hx, heq⟩
  · rintro ⟨hgood, x, hx, heq⟩
    exact ⟨x, ⟨hx, heq ▸ hgood⟩, heq⟩

/-- How far a worker has come at time `m` with a list that it has read. -/
inductive Reading (run : SystemRun Value Worker) (w : Worker) (bad : Finset ℕ)
    (l : List (Entry Value)) (i m : ℕ) : Prop
  /-- before the next entry of the rest is processed -/
  | processing (pre rest : List (Entry Value)) (hl : l = pre ++ rest)
    (hpos : (run.state m).workers w = .processing rest (goodIds bad pre))
    (hpre : ∀ e ∈ pre, e.1 ∉ bad → ∃ a < m, i ≤ a ∧ run.Processes w e a)
  /-- before the ack of the entries that have been processed -/
  | acking (hpos : (run.state m).workers w = .ackingAll (goodIds bad l))
    (hpre : ∀ e ∈ l, e.1 ∉ bad → ∃ a < m, i ≤ a ∧ run.Processes w e a)
  /-- after the ack -/
  | through (hall : ∀ e ∈ l, e.1 ∉ bad → run.Settles w i m e)

theorem Reading.process {o : Outcome} {claimed : List ℕ} {pre rest : List (Entry Value)}
    (him : i ≤ m) (hl : l = pre ++ e :: rest) (hevent : run.event m = .work w o claimed)
    (hpos : (run.state m).workers w = .processing (e :: rest) (goodIds bad pre))
    (hanswers : ((run.state m).workers w).answers bad o = true)
    (hwork : (run.state m).work w o claimed = some (run.state (m + 1)))
    (hpre : ∀ e ∈ pre, e.1 ∉ bad → ∃ a < m + 1, i ≤ a ∧ run.Processes w e a) :
    Reading run w bad l i (m + 1) := by
  rw [hpos] at hanswers
  simp only [System.work, hpos] at hwork
  have hstate := (Option.some.inj hwork).symm
  have hdone : o = .done ↔ e.1 ∉ bad := of_decide_eq_true hanswers
  refine .processing (pre ++ [e]) rest (by rw [hl]; simp) ?_ fun e' he' hgood => ?_
  · rw [hstate, System.workers_goTo]
    unfold goodIds
    rw [List.filter_append, List.map_append]
    cases o with
    | done => simp [Outcome.returns, hdone.mp rfl]
    | failed =>
      have hbad : e.1 ∈ bad := by simpa using hdone
      simp [Outcome.returns, hbad]
    | unanswered =>
      have hbad : e.1 ∈ bad := by simpa using hdone
      simp [Outcome.returns, hbad]
  · rcases List.mem_append.mp he' with hold | hnew
    · exact hpre e' hold hgood
    · obtain rfl := List.mem_singleton.mp hnew
      obtain rfl := hdone.mpr hgood
      exact ⟨m, Nat.lt_succ_self m, him, by rw [hpos]; rfl, claimed, hevent⟩

/-- **A step of the loop over `msgs`.** -/
theorem Reading.succ (h : Reading run w bad l i m) (hiter : run.Iteration w bad i j)
    (him : i ≤ m) (hmj : m < j) (hdelivered : ∀ e ∈ l, (run.state m).stream.Delivered e.1) :
    Reading run w bad l i (m + 1) := by
  have hm : m < run.length := hmj.trans_le hiter.length
  have hkeep : ∀ pre : List (Entry Value),
      (∀ e ∈ pre, e.1 ∉ bad → ∃ a < m, i ≤ a ∧ run.Processes w e a) →
      ∀ e ∈ pre, e.1 ∉ bad → ∃ a < m + 1, i ≤ a ∧ run.Processes w e a :=
        fun pre hpre e he hgood => by
    obtain ⟨a, ha, hia, hp⟩ := hpre e he hgood
    exact ⟨a, Nat.lt_succ_of_lt ha, hia, hp⟩
  have hcases := hiter.cases him hmj
  cases h with
  | processing pre rest hl hpos hpre =>
    rcases hcases with ⟨o, claimed, hevent, hanswers, hwork⟩ | ⟨hsame, -⟩
    · cases rest with
      | nil =>
        rw [List.append_nil] at hl
        simp only [System.work, hpos] at hwork
        have hstate := (Option.some.inj hwork).symm
        refine .acking ?_ (by rw [hl]; exact hkeep pre hpre)
        rw [hstate, System.workers_goTo, hl]
      | cons e rest => exact .process him hl hevent hpos hanswers hwork (hkeep pre hpre)
    · exact .processing pre rest hl (hsame.trans hpos) (hkeep pre hpre)
  | acking hpos hpre =>
    rcases hcases with ⟨o, claimed, hevent, hanswers, hwork⟩ | ⟨hsame, -⟩
    · rw [hpos] at hanswers
      simp only [System.work, hpos] at hwork
      have hstate := (Option.some.inj hwork).symm
      -- the one ack at the end acks all that was processed
      obtain rfl : o = .done := of_decide_eq_true hanswers
      refine .through fun e he hgood => ?_
      exact settles_of_ack him hevent (by rw [hpos]; rfl)
        (mem_goodIds.mpr ⟨hgood, List.mem_map_of_mem he⟩) (by rw [hstate]; rfl) (hdelivered e he)
        (hpre e he hgood)
    · exact .acking (hsame.trans hpos) (hkeep l hpre)
  | through hall =>
    exact .through fun e he hgood => (hall e he hgood).succ hm (hdelivered e he)

/-! ## A whole iteration -/

/-- What is claimed is delivered, each entry once. -/
theorem Claims.delivered (h : run.Claims w i l) :
    (∀ e ∈ l, (run.state (i + 1)).stream.Delivered e.1) ∧ (l.map Prod.fst).Nodup := by
  obtain ⟨hi, idle, claimed, hevent, htop, hpos⟩ := h
  have hstep := run.state_succ i hi
  rw [hevent] at hstep
  simp only [System.step, System.work, htop] at hstep
  split at hstep
  · split at hstep
    · next hclaimable =>
      have hstate := (Option.some.inj hstep).symm
      have hl : l = (run.state i).stream.entries claimed := by
        rw [hstate, System.workers_goTo] at hpos
        cases hpos
        rfl
      have hstream : (run.state (i + 1)).stream = (run.state i).stream.deliver w claimed := by
        rw [hstate]
        rfl
      rw [hstream, hl]
      refine ⟨fun e he => ConsumerGroup.delivered_deliver he, ?_⟩
      exact (hclaimable.2.1.imp Nat.ne_of_lt).sublist (ConsumerGroup.entries_sublist _ _)
    · cases hstep
  · have hstate := (Option.some.inj hstep).symm
    rw [hstate, System.workers_goTo] at hpos
    cases hpos

theorem Reads.delivered (h : run.Reads w i l) :
    ∀ e ∈ l, (run.state (i + 1)).stream.Delivered e.1 := by
  obtain ⟨hi, idle, claimed, hevent, hreading, hpos⟩ := h
  have hstep := run.state_succ i hi
  rw [hevent] at hstep
  simp only [System.step, System.work, hreading] at hstep
  have hstate := (Option.some.inj hstep).symm
  have hl : l = (run.state i).stream.entries (run.state i).toRead := by
    rw [hstate, System.workers_goTo] at hpos
    simp only [Outcome.returns, if_true] at hpos
    split at hpos
    · cases hpos
    · cases hpos
      rfl
  have hstream : (run.state (i + 1)).stream =
      (run.state i).stream.deliver w (run.state i).toRead := by
    rw [hstate]
    rfl
  rw [hstream, hl]
  exact fun e he => ConsumerGroup.delivered_deliver he

theorem claiming_run (h : run.Claims w i l) (hiter : run.Iteration w bad (i + 1) j) :
    ∀ m, i + 1 ≤ m → m ≤ j → Claiming run w bad l (i + 1) m := by
  intro m him
  induction m, him using Nat.le_induction with
  | base =>
    intro _
    obtain ⟨-, idle, claimed, -, -, hpos⟩ := h
    exact .claiming idle [] l rfl hpos (fun e he => by cases he) fun a ha hia => by omega
  | succ m him ih =>
    intro hmj
    refine (ih (Nat.le_of_succ_le hmj)).succ hiter him hmj fun e he => ?_
    exact (h.delivered.1 e he).advances
      (run.advances him ((Nat.le_of_succ_le hmj).trans hiter.length))

theorem reading_run (h : run.Reads w i l) (hiter : run.Iteration w bad (i + 1) j) :
    ∀ m, i + 1 ≤ m → m ≤ j → Reading run w bad l (i + 1) m := by
  intro m him
  induction m, him using Nat.le_induction with
  | base =>
    intro _
    obtain ⟨-, idle, claimed, -, -, hpos⟩ := h
    exact .processing [] l rfl hpos fun e he => by cases he
  | succ m him ih =>
    intro hmj
    refine (ih (Nat.le_of_succ_le hmj)).succ hiter him hmj fun e he => ?_
    exact (h.delivered e he).advances
      (run.advances him ((Nat.le_of_succ_le hmj).trans hiter.length))

/-- **The good entries of a list that is read are processed and acked, whichever are bad.** -/
theorem settles_of_reads (h : run.Reads w i l) (hiter : run.Iteration w bad (i + 1) j) :
    ∀ e ∈ l, e.1 ∉ bad → run.Settles w (i + 1) j e := by
  cases reading_run h hiter j hiter.le (Nat.le_refl j) with
  | processing pre rest hl hpos =>
    have hrests := hiter.rests
    rw [hpos] at hrests
    cases hrests
  | acking hpos =>
    have hrests := hiter.rests
    rw [hpos] at hrests
    cases hrests
  | through hall => exact hall

/-- **The good entries of a list that is claimed are processed and acked** exactly when no bad one
is before them. -/
theorem settles_of_claims_iff (h : run.Claims w i l) (hiter : run.Iteration w bad (i + 1) j) :
    (∀ e ∈ l, e.1 ∉ bad → run.Settles w (i + 1) j e) ↔
      l.Pairwise fun e e' => e.1 ∈ bad → e'.1 ∈ bad := by
  cases claiming_run h hiter j hiter.le (Nat.le_refl j) with
  | claiming idle pre rest hl hpos =>
    have hrests := hiter.rests
    rw [hpos] at hrests
    cases hrests
  | acking idle pre rest e hl hpos =>
    have hrests := hiter.rests
    rw [hpos] at hrests
    cases hrests
  | stopped pre rest e hl hpos hpre hbad honly =>
    have hnodup := h.delivered.2.of_map
    rw [hl] at hnodup ⊢
    constructor
    · intro hall
      -- what is behind the bad entry is not processed before it, so it has to be bad too
      have hrest : ∀ e' ∈ rest, e'.1 ∈ bad := fun e' he' => by
        by_contra hgood
        have hmem : e' ∈ pre ++ e :: rest :=
          List.mem_append_right _ (List.mem_cons_of_mem e he')
        obtain ⟨a, ha, hia, hp⟩ := (hall e' hmem hgood).processes
        exact (List.nodup_append'.mp hnodup).2.2 (honly a ha hia e' hp)
          (List.mem_cons_of_mem e he')
      refine List.pairwise_append.mpr ⟨?_, ?_, ?_⟩
      · exact List.pairwise_of_forall_mem_list fun x hx _ _ hxbad => absurd hxbad (hpre x hx).1
      · exact List.pairwise_of_forall_mem_list fun _ _ y hy _ => by
          rcases List.mem_cons.mp hy with rfl | hy
          · exact hbad
          · exact hrest y hy
      · exact fun x hx _ _ hxbad => absurd hxbad (hpre x hx).1
    · intro hpairwise e' he' hgood
      rcases List.mem_append.mp he' with hold | hnew
      · exact (hpre e' hold).2
      · rcases List.mem_cons.mp hnew with rfl | hnew
        · exact absurd hbad hgood
        · have hafter := (List.pairwise_append.mp hpairwise).2.1
          exact absurd ((List.pairwise_cons.mp hafter).1 e' hnew hbad) hgood
  | through hall =>
    exact iff_of_true (fun e he _ => (hall e he).2)
      (List.pairwise_of_forall_mem_list fun x hx _ _ hxbad => absurd hxbad (hall x hx).1)

/-- What a worker obtains in an iteration is processed and acked in it, but for the bad entries,
exactly when it was read, or claimed with no bad entry before a good one. -/
theorem others_settled_iff (h : run.Claims w i l ∨ run.Reads w i l)
    (hiter : run.Iteration w bad (i + 1) j) :
    (∀ e ∈ l, e.1 ∉ bad → run.Settles w (i + 1) j e) ↔
      run.Reads w i l ∨ l.Pairwise fun e e' => e.1 ∈ bad → e'.1 ∈ bad := by
  rcases h with hclaims | hreads
  · rw [settles_of_claims_iff hclaims hiter]
    refine (or_iff_right ?_).symm
    rintro ⟨-, idle, -, -, hreading, -⟩
    obtain ⟨-, idle', -, -, htop, -⟩ := hclaims
    rw [htop] at hreading
    cases hreading
  · exact iff_of_true (settles_of_reads hreads hiter) (Or.inl hreads)

end SystemRun

/-! ## A bad entry behind a good one, and before one -/

/-- A worker that has read two entries crashes, and another one claims them. -/
def claimedSteps : List (Step Unit Bool) :=
  [.request [event "a", event "b"], .count 0, .publish 0, .publish 0, .finish 0, .start true,
    .work true .done [], .work true .done [], .work true .done [], .crash true, .start false,
    .work false .done [0, 1]]

/-- `process_event` raises for the second entry. -/
def secondBad : SystemRun Unit Bool :=
  Run.ofEvents _ _ (claimedSteps ++ [.work false .done [], .work false .done [],
    .work false .failed []]) (.finish 0) (by decide +kernel)

theorem others_settled_secondBad : secondBad.Settles false 12 15 (0, event "a") := by
  have hclaims : secondBad.Claims false 11 [(0, event "a"), (1, event "b")] :=
    ⟨by decide, 0, [0, 1], by decide +kernel, by decide +kernel, by decide +kernel⟩
  have hiter : secondBad.Iteration false {1} 12 15 :=
    ⟨by decide, by decide, by decide +kernel, by decide +kernel⟩
  exact (SystemRun.others_settled_iff (Or.inl hclaims) hiter).mpr
    (Or.inr (by decide +kernel)) _ List.mem_cons_self (by decide)

/-- `process_event` raises for the first entry. -/
def firstBad : SystemRun Unit Bool :=
  Run.ofEvents _ _ (claimedSteps ++ [.work false .failed []]) (.finish 0) (by decide +kernel)

/-- The exception of the first entry ends the iteration, and the second one is neither processed nor
acked in it. -/
theorem second_left_firstBad :
    firstBad.Claims false 11 [(0, event "a"), (1, event "b")] ∧
      firstBad.Iteration false {0} 12 13 ∧ ¬ firstBad.Settles false 12 13 (1, event "b") ∧
      (firstBad.state 13).db.processedEvents = [] :=
  ⟨⟨by decide, 0, [0, 1], by decide +kernel, by decide +kernel, by decide +kernel⟩,
    ⟨by decide, by decide, by decide +kernel, by decide +kernel⟩,
    fun h => absurd h.acked (by decide +kernel), by decide +kernel⟩

end Aggregator
