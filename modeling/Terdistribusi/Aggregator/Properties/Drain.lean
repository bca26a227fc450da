import Terdistribusi.Aggregator.Properties.Audit
import Terdistribusi.Aggregator.Properties.BadEntries

/-!
# One worker is enough

Workers crash with entries in their hands, calls fail and answers are lost. Whatever has happened,
one worker whose calls return takes over what the others have left: it comes to the head of its
loop, claims, reads, and every iteration acks some entries, until all are.

The database may reject an event, so that `process_event` raises whenever it is tried. An entry with
such an event is never acked.

* `Follows` — what the turns of one worker leave alone
* `exists_claimed`, `exists_processed` — the two loops of an iteration come to their end
* `exists_round` — an iteration leaves fewer entries
* `not_isAcked_of_rejects` — no entry that is rejected is acked
* `drains`
-/

namespace Aggregator

open Infra

variable {Value Worker : Type}

/-- A turn of the worker whose call returns, or its start. -/
def Own (w : Worker) : Step Value Worker → Prop
  | .start x => x = w
  | .work x o _ => x = w ∧ o = .done
  | _ => False

namespace System

variable [DecidableEq Worker] {s s' s'' : System Value Worker} {w : Worker}

/-- What turns of `w` leave alone, and no entry goes back. -/
structure Follows (w : Worker) (s s' : System Value Worker) : Prop where
  values : s'.stream.values = s.stream.values
  advances : s.stream.Advances s'.stream
  requests : s'.requests = s.requests
  workers : ∀ x ≠ w, s'.workers x = s.workers x

omit [DecidableEq Worker] in
theorem Follows.refl (w : Worker) (s : System Value Worker) : Follows w s s :=
  ⟨rfl, .refl _, rfl, fun _ _ => rfl⟩

omit [DecidableEq Worker] in
theorem Follows.trans (h : Follows w s s') (h' : Follows w s' s'') : Follows w s s'' :=
  ⟨h'.values.trans h.values, h.advances.trans h'.advances, h'.requests.trans h.requests,
    fun x hx => (h'.workers x hx).trans (h.workers x hx)⟩

theorem follows_step {e : Step Value Worker} (he : Own w e) (h : s.step e = some s') :
    Follows w s s' := by
  cases e with
  | start x =>
    obtain rfl : x = w := he
    obtain rfl := step_start h
    exact ⟨rfl, .refl _, rfl, fun y hy => workers_goTo_ne (Ne.symm hy) _⟩
  | work x o claimed =>
    obtain ⟨rfl, rfl⟩ := he
    obtain ⟨hrequests, hvalues, -⟩ := (works_of_work h).frame
    exact ⟨hvalues, advances_work h, hrequests, fun y hy => workers_work_ne (Ne.symm hy) h⟩
  | request events => cases he
  | count k => cases he
  | publish k => cases he
  | finish k => cases he
  | crash x => cases he

theorem Follows.of_reaches (h : ReachesBy (Own w) step s s') : Follows w s s' :=
  h.rel (.refl w) (fun _ _ _ => .trans) fun _ _ _ => follows_step

/-- The worker takes a turn. -/
theorem reaches_work (claimed : List ℕ) (h : s.work w .done claimed = some s') :
    ReachesBy (Own w) step s s' :=
  .single (e := .work w .done claimed) ⟨rfl, rfl⟩ h

/-! ## The loops of an iteration -/

/-- The loop over `claimed` comes to its end, and what it went through is acked. -/
theorem exists_claimed {idle : ℕ} : ∀ (l : List (Entry Value)) (s : System Value Worker),
    s.workers w = .claiming idle l → ∃ s', ReachesBy (Own w) step s s' ∧
      s'.workers w = .reading idle ∧
      ∀ e ∈ l, s.stream.Delivered e.1 → s'.stream.IsAcked e.1
  | [], s, hp => by
    refine ⟨s.goTo w (.reading idle), reaches_work [] ?_, workers_goTo _, ?_⟩
    · simp [work, hp]
    · simp
  | e :: l, s, hp => by
    let s₁ := (s.process .done e.2 w).goTo w (.acking idle e.1 l)
    let s₂ := (s₁.ack .done [e.1]).goTo w (.claiming idle l)
    have h₁ : ReachesBy (Own w) step s s₁ :=
      reaches_work [] (by simp [work, hp, Outcome.returns, s₁])
    have h₂ : ReachesBy (Own w) step s₁ s₂ :=
      reaches_work [] (by simp [work, s₁, Outcome.returns, s₂])
    obtain ⟨s', hreach, hpos, hacked⟩ := exists_claimed l s₂ (workers_goTo _)
    have hboth := h₁.trans h₂
    refine ⟨s', hboth.trans hreach, hpos, fun x hx hdelivered => ?_⟩
    have hx₂ := hdelivered.advances (Follows.of_reaches hboth).advances
    rcases List.mem_cons.mp hx with rfl | hx
    · refine (Follows.of_reaches hreach).advances.isAcked hx₂.1 ?_
      have hx₁ := hdelivered.advances (Follows.of_reaches h₁).advances
      exact ConsumerGroup.isAcked_ack_of_mem hx₁ List.mem_cons_self
    · exact hacked x hx hx₂

/-- The loop over `msgs` comes to its end, and the ack after it is of all that was in it. -/
theorem exists_processed : ∀ (l : List (Entry Value)) (ids : List ℕ) (s : System Value Worker),
    s.workers w = .processing l ids → ∃ s', ReachesBy (Own w) step s s' ∧
      s'.workers w = .top 0 ∧
      ∀ i ∈ ids ++ l.map Prod.fst, s.stream.Delivered i → s'.stream.IsAcked i
  | [], ids, s, hp => by
    let s₁ := s.goTo w (.ackingAll ids)
    have h₁ : ReachesBy (Own w) step s s₁ :=
      reaches_work [] (by simp [work, hp, s₁])
    have h₂ : ReachesBy (Own w) step s₁ ((s₁.ack .done ids).goTo w (.top 0)) :=
      reaches_work [] (by simp [work, s₁, Outcome.returns])
    refine ⟨_, h₁.trans h₂, workers_goTo _, fun i hi hdelivered => ?_⟩
    rw [List.map_nil, List.append_nil] at hi
    exact ConsumerGroup.isAcked_ack_of_mem
      (hdelivered.advances (Follows.of_reaches h₁).advances) hi
  | e :: l, ids, s, hp => by
    let s₁ := (s.process .done e.2 w).goTo w (.processing l (ids ++ [e.1]))
    have h₁ : ReachesBy (Own w) step s s₁ :=
      reaches_work [] (by simp [work, hp, Outcome.returns, s₁])
    obtain ⟨s', hreach, hpos, hacked⟩ := exists_processed l (ids ++ [e.1]) s₁ (workers_goTo _)
    refine ⟨s', h₁.trans hreach, hpos, fun i hi hdelivered => ?_⟩
    refine hacked i ?_ (hdelivered.advances (Follows.of_reaches h₁).advances)
    rwa [List.append_assoc, List.singleton_append]

/-- From `read_group` on the worker comes back to the head of the loop, and what it read is acked.
-/
theorem exists_read {idle : ℕ} (hp : s.workers w = .reading idle) :
    ∃ s' idle', ReachesBy (Own w) step s s' ∧ s'.workers w = .top idle' ∧
      (idle' = 0 ∨ idle' = idle + 1) ∧
      ∀ i ∈ s.toRead, s'.stream.IsAcked i := by
  by_cases hnil : s.toRead = []
  · refine ⟨(s.deliver .done w s.toRead).goTo w (.top (idle + 1)), idle + 1,
      reaches_work [] ?_, workers_goTo _, Or.inr rfl, ?_⟩
    · simp [work, hp, hnil, Outcome.returns]
    · simp [hnil]
  · let s₁ := (s.deliver .done w s.toRead).goTo w (.processing (s.stream.entries s.toRead) [])
    have h₁ : ReachesBy (Own w) step s s₁ :=
      reaches_work [] (by simp [work, hp, hnil, Outcome.returns, s₁])
    obtain ⟨s', hreach, hpos, hacked⟩ :=
      exists_processed (s.stream.entries s.toRead) [] s₁ (workers_goTo _)
    refine ⟨s', 0, h₁.trans hreach, hpos, Or.inl rfl, fun i hi => ?_⟩
    obtain ⟨v, hv⟩ : ∃ v, s.stream.values[i]? = some v := by
      have hlt := List.mem_range.mp (List.mem_filter.mp (List.mem_of_mem_take hi)).1
      exact ⟨_, List.getElem?_eq_getElem hlt⟩
    have hentry : (i, v) ∈ s.stream.entries s.toRead := ConsumerGroup.mem_entries.mpr ⟨hi, hv⟩
    refine hacked i ?_ (ConsumerGroup.delivered_deliver (c := w) hentry)
    exact List.mem_map.mpr ⟨(i, v), hentry, rfl⟩

/-! ## The head of the loop -/

/-- The worker is where it claims next. -/
def AtClaim (w : Worker) (s : System Value Worker) : Prop :=
  ∃ idle, s.workers w = .top idle ∧ idle % 5 = 0

/-- After at most four iterations the worker claims again. -/
theorem exists_atClaim_of_top : ∀ (n idle : ℕ) (s : System Value Worker),
    s.workers w = .top idle → (idle + n) % 5 = 0 →
      ∃ s', ReachesBy (Own w) step s s' ∧ s'.AtClaim w
  | 0, idle, s, hp, hn => ⟨s, .refl _ _ s, idle, hp, hn⟩
  | n + 1, idle, s, hp, hn => by
    by_cases hidle : idle % 5 = 0
    · exact ⟨s, .refl _ _ s, idle, hp, hidle⟩
    · have h₁ : ReachesBy (Own w) step s (s.goTo w (.reading idle)) :=
        reaches_work [] (by simp [work, hp, hidle])
      obtain ⟨s₂, idle', h₂, hpos, hidle', -⟩ := exists_read (workers_goTo (s := s) _)
      rcases hidle' with rfl | rfl
      · exact ⟨s₂, h₁.trans h₂, 0, hpos, rfl⟩
      · obtain ⟨s', h', hat⟩ := exists_atClaim_of_top n (idle + 1) s₂ hpos
          (by omega)
        exact ⟨s', (h₁.trans h₂).trans h', hat⟩

theorem exists_atClaim_of_reading {idle : ℕ} (hp : s.workers w = .reading idle) :
    ∃ s', ReachesBy (Own w) step s s' ∧ s'.AtClaim w := by
  obtain ⟨s₁, idle', h₁, hpos, -⟩ := exists_read hp
  obtain ⟨s', h', hat⟩ := exists_atClaim_of_top (5 - idle' % 5) idle' s₁ hpos (by omega)
  exact ⟨s', h₁.trans h', hat⟩

theorem exists_atClaim_of_claiming {idle : ℕ} {l : List (Entry Value)}
    (hp : s.workers w = .claiming idle l) :
    ∃ s', ReachesBy (Own w) step s s' ∧ s'.AtClaim w := by
  obtain ⟨s₁, h₁, hpos, -⟩ := exists_claimed l s hp
  obtain ⟨s', h', hat⟩ := exists_atClaim_of_reading hpos
  exact ⟨s', h₁.trans h', hat⟩

/-- **From wherever it is the worker comes to where it claims.** -/
theorem exists_atClaim (w : Worker) (s : System Value Worker) :
    ∃ s', ReachesBy (Own w) step s s' ∧ s'.AtClaim w := by
  cases hp : s.workers w with
  | stopped =>
    refine ⟨s.goTo w (.top 0), .single (e := .start w) rfl ?_, 0, workers_goTo _, rfl⟩
    simp [step, hp]
  | top idle => exact exists_atClaim_of_top (5 - idle % 5) idle s hp (by omega)
  | claiming idle l => exact exists_atClaim_of_claiming hp
  | acking idle msgId l =>
    have h₁ : ReachesBy (Own w) step s ((s.ack .done [msgId]).goTo w (.claiming idle l)) :=
      reaches_work [] (by simp [work, hp, Outcome.returns])
    obtain ⟨s', h', hat⟩ := exists_atClaim_of_claiming (workers_goTo (s := s.ack .done [msgId]) _)
    exact ⟨s', h₁.trans h', hat⟩
  | reading idle => exact exists_atClaim_of_reading hp
  | processing l ids =>
    obtain ⟨s', h', hpos, -⟩ := exists_processed l ids s hp
    exact ⟨s', h', 0, hpos, rfl⟩
  | ackingAll ids =>
    refine ⟨(s.ack .done ids).goTo w (.top 0), reaches_work [] ?_, 0,
      workers_goTo _, rfl⟩
    simp [work, hp, Outcome.returns]
  | sleeping idle =>
    have h₁ : ReachesBy (Own w) step s (s.goTo w (.top idle)) :=
      reaches_work [] (by simp [work, hp])
    obtain ⟨s', h', hat⟩ := exists_atClaim_of_top (5 - idle % 5) idle _ (workers_goTo (s := s) _)
      (by omega)
    exact ⟨s', h₁.trans h', hat⟩

/-! ## One iteration after the other -/

/-- **An iteration leaves less to do**, as long as an entry is not acked. -/
theorem exists_round (hat : s.AtClaim w) {k : ℕ} (hk : k < s.stream.values.length)
    (hnot : ¬ s.stream.IsAcked k) :
    ∃ s', ReachesBy (Own w) step s s' ∧ s'.AtClaim w ∧ s'.stream.left < s.stream.left := by
  obtain ⟨idle, hp, hidle⟩ := hat
  -- it claims what is pending, reads what is fresh, and comes back
  let ids := s.stream.stale.take 50
  let s₁ := (s.deliver .done w ids).goTo w (.claiming idle (s.stream.entries ids))
  have h₁ : ReachesBy (Own w) step s s₁ := by
    refine reaches_work ids ?_
    have hclaim := s.stream.claimable_stale 50
    simp [work, hp, hidle, hclaim, Outcome.returns, s₁, ids]
  obtain ⟨s₂, h₂, hpos₂, hacked₂⟩ := exists_claimed (s.stream.entries ids) s₁ (workers_goTo _)
  obtain ⟨s₃, idle₃, h₃, hpos₃, -, hacked₃⟩ := exists_read hpos₂
  obtain ⟨s', h', hat'⟩ := exists_atClaim w s₃
  have hfirst := h₁.trans h₂
  have hlast := h₃.trans h'
  have hfollows := Follows.of_reaches (hfirst.trans hlast)
  refine ⟨s', hfirst.trans hlast, hat', ?_⟩
  have hprogress : ∀ i < s.stream.values.length,
      (s.stream.status i).rank < (s'.stream.status i).rank → s'.stream.left < s.stream.left :=
    fun i hi => hfollows.advances.left_lt hfollows.values hi
  have hknot : (s.stream.status k).rank ≠ 2 := fun h => hnot (Status.rank_eq_two_iff.mp h)
  by_cases hpending : (s.stream.status k).isPending = true
  · -- the oldest pending entry is claimed and acked
    have hne : s.stream.stale ≠ [] :=
      List.ne_nil_of_mem (List.mem_filter.mpr ⟨List.mem_range.mpr hk, hpending⟩)
    obtain ⟨i, rest, hstale⟩ := List.exists_cons_of_ne_nil hne
    have hi : i ∈ s.stream.stale := hstale ▸ List.mem_cons_self
    obtain ⟨hlt, hipending⟩ := List.mem_filter.mp hi
    have hlt := List.mem_range.mp hlt
    have hentry : (i, s.stream.values[i]) ∈ s.stream.entries ids := by
      refine ConsumerGroup.mem_entries.mpr ⟨?_, List.getElem?_eq_getElem hlt⟩
      simp [ids, hstale]
    have hdelivered : s₁.stream.Delivered i := ConsumerGroup.delivered_deliver (c := w) hentry
    have hacked := hacked₂ _ hentry hdelivered
    have hacked' := (Follows.of_reaches hlast).advances.isAcked
      (hdelivered.advances (Follows.of_reaches h₂).advances).1 hacked
    refine hprogress i hlt ?_
    rw [Status.rank_eq_two_iff.mpr hacked', Status.rank_eq_one_iff.mpr hipending]
    exact Nat.lt_succ_self 1
  · have hone : (s.stream.status k).rank ≠ 1 := fun h => hpending (Status.rank_eq_one_iff.mp h)
    have hzero : (s.stream.status k).rank = 0 := by
      have := (s.stream.status k).rank_le_two
      omega
    have hfirst' := Follows.of_reaches hfirst
    by_cases hfresh : (s₂.stream.status k).rank = 0
    · -- the oldest fresh entry is read and acked
      have hk₂ : k ∈ s₂.stream.unread := by
        refine List.mem_filter.mpr ⟨List.mem_range.mpr ?_, Status.rank_eq_zero_iff.mp hfresh⟩
        rwa [hfirst'.values]
      obtain ⟨i, rest, hunread⟩ := List.exists_cons_of_ne_nil (List.ne_nil_of_mem hk₂)
      have hi : i ∈ s₂.stream.unread := hunread ▸ List.mem_cons_self
      obtain ⟨hlt, hifresh⟩ := List.mem_filter.mp hi
      have hlt := List.mem_range.mp hlt
      have hacked := hacked₃ i (by simp [toRead, hunread])
      have hacked' := (Follows.of_reaches h').advances.isAcked
        (hlt.trans_le (Follows.of_reaches h₃).advances.length) hacked
      rw [hfirst'.values] at hlt
      refine hprogress i hlt ?_
      have hle := hfirst'.advances.rank i hlt
      rw [Status.rank_eq_zero_iff.mpr hifresh] at hle
      rw [Status.rank_eq_two_iff.mpr hacked']
      omega
    · -- somebody has it already
      refine hprogress k hk ?_
      have hle := (Follows.of_reaches hlast).advances.rank k (by rwa [hfirst'.values])
      omega

/-- The worker acks everything. -/
theorem exists_acked (w : Worker) (s : System Value Worker) :
    ∃ s', ReachesBy (Own w) step s s' ∧ ∀ k < s'.stream.values.length, s'.stream.IsAcked k := by
  obtain ⟨s₁, h₁, hat₁⟩ := exists_atClaim w s
  have hrounds : ∀ s : System Value Worker, s.AtClaim w → ∃ s', ReachesBy (Own w) step s s' ∧
      s'.AtClaim w ∧ ∀ k < s'.stream.values.length, s'.stream.IsAcked k := by
    refine ReachesBy.exists_of_measure (fun s => s.stream.left) fun s hat hnot => ?_
    push Not at hnot
    obtain ⟨k, hk, hnot⟩ := hnot
    exact exists_round hat hk hnot
  obtain ⟨s', h', -, hacked⟩ := hrounds s₁ hat₁
  exact ⟨s', h₁.trans h', hacked⟩

/-! ## A database that rejects events -/

/-- One step, with a database that rejects some events: `process_event` raises for them and has no
effect. -/
def stepRejecting (rejects : Event Value → Bool) (s : System Value Worker) :
    Step Value Worker → Option (System Value Worker)
  | .work w o claimed =>
    if (s.workers w).next.any (fun e => rejects e.2) ∧ o ≠ .failed then none
    else s.work w o claimed
  | e => s.step e

variable {rejects : Event Value → Bool} {e : Step Value Worker}

theorem step_of_stepRejecting (h : s.stepRejecting rejects e = some s') : s.step e = some s' := by
  cases e with
  | work w o claimed =>
    simp only [stepRejecting] at h
    split at h
    · cases h
    · exact h
  | request | count | publish | finish | start | crash => exact h

/-- What is processed is not rejected. -/
theorem not_rejects_of_commits (h : s.stepRejecting rejects e = some s') {k : ℕ}
    (hk : k ∈ s.commits e) :
    ∃ w x, (s.workers w).next = some x ∧ x.1 = k ∧ rejects x.2 = false := by
  cases e with
  | work w o claimed =>
    simp only [stepRejecting] at h
    simp only [commits] at hk
    cases hx : (s.workers w).next with
    | none => rw [hx] at hk; cases hk
    | some x =>
      rw [hx] at h hk
      split at h
      · cases h
      · next hno =>
        cases o with
        | failed => cases hk
        | done | unanswered =>
          refine ⟨w, x, hx, Option.some.inj hk, ?_⟩
          simpa using hno
  | request | count | publish | finish | start | crash => cases hk

/-- On a stream without rejected events, turns of a worker are the same with such a database. -/
theorem exec_stepRejecting : ∀ (es : List (Step Value Worker)) {l : List ℕ}
    {s s' : System Value Worker}, Consistent l s → (∀ ev ∈ s.stream.values, rejects ev = false) →
      (∀ e ∈ es, Own w e) → exec step s es = some s' → exec (stepRejecting rejects) s es = some s'
  | [], _, _, _, _, _, _, h => h
  | e :: es, l, s, s', hc, hgood, hown, h => by
    obtain ⟨t, ht, hrest⟩ := Option.bind_eq_some_iff.mp h
    obtain ⟨he, hown'⟩ := List.forall_mem_cons.mp hown
    have hstep : s.stepRejecting rejects e = some t := by
      cases e with
      | start x => exact ht
      | work x o claimed =>
        simp only [stepRejecting]
        rw [if_neg]
        · exact ht
        · rintro ⟨hany, -⟩
          obtain ⟨y, hy, hrej⟩ := (Option.any_eq_true _ _).mp hany
          have hheld := hc.held x y (Position.mem_entries_of_next hy)
          rw [hgood y.2 (List.mem_of_getElem? hheld)] at hrej
          cases hrej
      | request events => cases he
      | count k => cases he
      | publish k => cases he
      | finish k => cases he
      | crash x => cases he
    have hgood' : ∀ ev ∈ t.stream.values, rejects ev = false := by
      rw [(follows_step he ht).values]
      exact hgood
    rw [exec_cons, hstep, Option.bind_some]
    exact exec_stepRejecting es (hc.step ht) hgood' hown' hrest

end System

/-- A run with a database that rejects some events. -/
abbrev RejectingRun (rejects : Event Value → Bool) (Worker : Type) [DecidableEq Worker] :=
  Run (System.stepRejecting rejects) ({} : System Value Worker)

namespace RejectingRun

variable [DecidableEq Worker] {rejects : Event Value → Bool}

/-- It is a run of the system. -/
def toSystemRun (run : RejectingRun rejects Worker) : SystemRun Value Worker where
  length := run.length
  state := run.state
  event := run.event
  state_zero := run.state_zero
  state_succ := fun i hi => System.step_of_stepRejecting (run.state_succ i hi)

/-- **An entry that is rejected is never acked.** -/
theorem not_isAcked_of_rejects (run : RejectingRun rejects Worker) {i : ℕ} (hi : i ≤ run.length)
    {k : ℕ} {ev : Event Value} (hk : (run.state i).stream.values[k]? = some ev)
    (hrej : rejects ev = true) : ¬ (run.state i).stream.IsAcked k := by
  intro hacked
  have hmem := (SystemRun.consistent run.toSystemRun i hi).acked k hacked
  obtain ⟨j, hj, hcommits⟩ := List.mem_filterMap.mp hmem
  have hji := List.mem_range.mp hj
  have hjl : j < run.length := hji.trans_le hi
  obtain ⟨w, x, hx, rfl, hgood⟩ := System.not_rejects_of_commits (run.state_succ j hjl) hcommits
  -- the entry that was processed was in the stream already
  have hheld : (run.state j).stream.values[x.1]? = some x.2 :=
    (SystemRun.consistent run.toSystemRun j hjl.le).held w x (Position.mem_entries_of_next hx)
  obtain ⟨added, hadded⟩ : (run.state j).stream.values <+: (run.state i).stream.values :=
    run.toSystemRun.rel (R := fun s s' => s.stream.values <+: s'.stream.values)
      (fun _ => List.prefix_rfl) (fun _ _ _ => List.IsPrefix.trans)
      (fun n hn => System.values_isPrefix_step (run.toSystemRun.state_succ n hn)) hji.le hi
  rw [← hadded, List.getElem?_append_left (List.getElem?_eq_some_iff.mp hheld).1, hheld] at hk
  obtain rfl := Option.some.inj hk
  rw [hgood] at hrej
  cases hrej

/-- **One worker is enough** when the database rejects nothing of the stream, and only then. In
every run, whatever the workers hold and whichever calls have failed, the worker `w` can go on
alone, with calls that return, to where every entry of the stream is acked. Then the keys in the
table of events are those of the entries, each once. -/
theorem drains (run : RejectingRun rejects Worker) {i : ℕ} (hi : i ≤ run.length) (w : Worker) :
    (∃ es s', (∀ e ∈ es, Own w e) ∧
      exec (System.stepRejecting rejects) (run.state i) es = some s' ∧
      s'.stream.values = (run.state i).stream.values ∧
      (∀ k < s'.stream.values.length, s'.stream.IsAcked k) ∧
      (∀ key, key ∈ s'.db.processedEvents.map Event.key ↔
        key ∈ s'.stream.values.map Event.key) ∧
      (s'.db.processedEvents.map Event.key).Nodup ∧
      ∀ x ≠ w, s'.workers x = (run.state i).workers x) ↔
    ∀ ev ∈ (run.state i).stream.values, rejects ev = false := by
  have : Nonempty (Step Value Worker) := ⟨.finish 0⟩
  constructor
  · rintro ⟨es, s', -, hexec, hvalues, hacked, -⟩ ev hev
    by_contra hrej
    -- the state is the last one of a longer run
    obtain ⟨run', rfl⟩ := ((Reaches.of_run run i hi).trans ⟨es, hexec⟩).exists_run
    rw [← hvalues] at hev
    obtain ⟨k, hlt, hk⟩ := List.mem_iff_getElem.mp hev
    refine not_isAcked_of_rejects run' (Nat.le_refl _) ?_ (by simpa using hrej) (hacked k hlt)
    rw [List.getElem?_eq_getElem hlt, hk]
  · intro hgood
    obtain ⟨s', hreach, hacked⟩ := System.exists_acked w (run.state i)
    have hfollows := System.Follows.of_reaches hreach
    obtain ⟨run', rfl⟩ :=
      ((Reaches.of_run run.toSystemRun i hi).trans hreach.reaches).exists_run
    have hle := Nat.le_refl run'.length
    have hnodup := (SystemRun.consistent run' _ hle).tables.nodup
    obtain ⟨es, hes, hexec⟩ := hreach
    have hexec' := System.exec_stepRejecting es (SystemRun.consistent run.toSystemRun i hi) hgood
      hes hexec
    refine ⟨es, _, hes, hexec', hfollows.values, hacked,
      fun key => ⟨SystemRun.key_mem_values run' hle, fun hkey => ?_⟩, hnodup, hfollows.workers⟩
    obtain ⟨ev, hev, rfl⟩ := List.mem_map.mp hkey
    exact SystemRun.key_mem_of_acked run' hle hacked hev

end RejectingRun

/-- A worker has taken a batch of two entries and crashed; the other one is not running. -/
def abandonedSteps : List (Step Unit Bool) :=
  [.request [event "a", event "b"], .count 0, .publish 0, .publish 0, .finish 0, .start false,
    .work false .done [], .work false .done [], .work false .done [], .crash false]

/-- The database rejects another event. -/
def abandoned : RejectingRun (fun ev => ev = event "c") Bool :=
  Run.ofEvents _ _ abandonedSteps (.finish 0) (by decide +kernel)

theorem drains_abandoned :
    ((abandoned.state 10).stream.stale = [0, 1] ∧ ∀ x, (abandoned.state 10).workers x = .stopped) ∧
    ∃ es s', (∀ e ∈ es, Own true e) ∧
      exec (System.stepRejecting fun ev => ev = event "c") (abandoned.state 10) es = some s' ∧
      s'.stream.values = (abandoned.state 10).stream.values ∧
      (∀ k < s'.stream.values.length, s'.stream.IsAcked k) ∧
      (∀ key, key ∈ s'.db.processedEvents.map Event.key ↔
        key ∈ s'.stream.values.map Event.key) ∧
      (s'.db.processedEvents.map Event.key).Nodup ∧
      ∀ x ≠ true, s'.workers x = (abandoned.state 10).workers x :=
  ⟨by decide +kernel,
    (RejectingRun.drains abandoned (i := 10) (by decide) true).mpr (by decide +kernel)⟩

end Aggregator
