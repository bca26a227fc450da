import Terdistribusi.Locks.Properties.Deadlock

/-!
# Waiters are served in order

The queue of a resource is first in, first out (`waiters_fifo`): a request is put at its end when it
is refused, and leaves it from the front, when it is granted. An `acquire` never looks at the queue,
so it may be granted before those who wait; but only a shared one, next to shared holders, before an
exclusive request.
-/

namespace Locks

open Infra LockManager

variable {Client Resource : Type} [DecidableEq Client] [DecidableEq Resource]

namespace Cell

/-- What `promote` takes from the front of the queue. -/
def promoted : List (Client × LockMode) → Dict Client LockMode → List (Client × LockMode)
  | [], _ => []
  | x :: q, hs => if admits hs x.2 then x :: promoted q (hs.set x.1 x.2) else []

theorem promoted_append_queue : ∀ (q : List (Client × LockMode)) (hs : Dict Client LockMode),
    promoted q hs ++ (promote q hs).queue = q
  | [], _ => rfl
  | x :: q, hs => by
    rw [promoted, promote]
    split
    · rw [List.cons_append, promoted_append_queue q]
    · rfl

/-- What leaves the queue is granted. -/
theorem holders_of_mem_promoted {x : Client × LockMode} : ∀ (q : List (Client × LockMode))
    (hs : Dict Client LockMode), (q.map Prod.fst).Nodup → x ∈ promoted q hs →
      (promote q hs).holders.get? x.1 = some x.2
  | [], _, _, hx => absurd hx List.not_mem_nil
  | y :: q, hs, hq, hx => by
    obtain ⟨hy, hq'⟩ := List.nodup_cons.mp hq
    rw [promoted] at hx
    rw [promote]
    split at hx
    · next ha =>
      rw [if_pos ha]
      rcases List.mem_cons.mp hx with rfl | hmem
      · rw [get?_promote_of_not_mem q _ hy, Dict.get?_set_self]
      · exact holders_of_mem_promoted q _ hq' hmem
    · exact absurd hx List.not_mem_nil

end Cell

namespace Table

/-- What a command puts at the end of the queue of resource `r`: a refused request, unless its
client waits already. -/
def queued (r : Resource) (t : Table Client Resource) :
    Command Client Resource → List (Client × LockMode)
  | .acquire c r' m _ =>
    if r = r' ∧ Cell.admits (t.cell r).holders m = false ∧ ¬ (t.cell r).Waiting c then [(c, m)]
    else []
  | .release _ _ | .releaseAll _ | .abort _ => []

/-- What a command grants of the queue of resource `r`. -/
def served (r : Resource) (t : Table Client Resource) (cmd : Command Client Resource) :
    List (Client × LockMode) :=
  match cmd with
  | .acquire _ _ _ _ => []
  | .release c _ | .releaseAll c | .abort c =>
    if cmd.releases c r && decide ((t.cell r).Holding c) then
      Cell.promoted (t.cell r).queue ((t.cell r).holders.erase c)
    else []

variable {t : Table Client Resource} {r : Resource}

theorem queue_acquire {c : Client} {r' : Resource} {m : LockMode} {l : Option Time} :
    (t.cell r).queue ++ t.queued r (.acquire c r' m l) =
      (actOn r (.acquire c r' m l) (t.cell r)).queue := by
  by_cases hr : r = r'
  · subst hr
    simp only [queued, actOn, if_true, true_and, Cell.acquire]
    split_ifs <;> simp_all
  · simp [queued, actOn, hr]

theorem queue_release (c : Client) (k : Cell Client) :
    k.queue = (if k.Holding c then Cell.promoted k.queue (k.holders.erase c) else []) ++
      (k.release c).queue := by
  unfold Cell.release
  split
  · exact (Cell.promoted_append_queue _ _).symm
  · simp

/-- **One command**: what comes into the queue comes at its end, what goes goes from its front. -/
theorem queue_apply (cmd : Command Client Resource) :
    (t.cell r).queue ++ t.queued r cmd = t.served r cmd ++ ((t.apply cmd).cell r).queue := by
  cases cmd with
  | acquire c r' m l => exact queue_acquire
  | release c r' =>
    by_cases hr : r = r'
    · subst hr
      simpa [queued, served, apply, actOn, Command.releases] using queue_release c (t.cell r)
    · simp [queued, served, apply, actOn, Command.releases, hr, Ne.symm hr]
  | releaseAll c =>
    simpa [queued, served, apply, actOn, Command.releases] using queue_release c (t.cell r)
  | abort c =>
    simpa [queued, served, apply, actOn, Command.releases] using queue_release c (t.cell r)

/-- What is served is granted, when a holder releases. -/
theorem served_spec (hok : (t.cell r).Ok) {cmd : Command Client Resource} {x : Client × LockMode}
    (hx : x ∈ t.served r cmd) :
    ((t.apply cmd).cell r).holders.get? x.1 = some x.2 ∧
      ∃ c, cmd.releases c r = true ∧ (t.cell r).Holding c := by
  have key : ∀ c, (t.cell r).Holding c →
      x ∈ Cell.promoted (t.cell r).queue ((t.cell r).holders.erase c) →
        ((t.cell r).release c).holders.get? x.1 = some x.2 := by
    intro c hc hmem
    rw [Cell.release, if_pos hc]
    exact Cell.holders_of_mem_promoted _ _ hok.distinct hmem
  cases cmd with
  | acquire => exact absurd hx List.not_mem_nil
  | release c r' =>
    simp only [served] at hx
    split at hx
    · next h =>
      obtain ⟨hrel, hhold⟩ := Bool.and_eq_true_iff.mp h
      have hc := of_decide_eq_true hhold
      have hr : r = r' := by
        simpa [Command.releases, eq_comm] using hrel
      refine ⟨?_, c, hrel, hc⟩
      show (actOn r (.release c r') (t.cell r)).holders.get? x.1 = some x.2
      rw [actOn, if_pos hr]
      exact key c hc hx
    · exact absurd hx List.not_mem_nil
  | releaseAll c | abort c =>
    simp only [served] at hx
    split at hx
    · next h =>
      obtain ⟨hrel, hhold⟩ := Bool.and_eq_true_iff.mp h
      have hc := of_decide_eq_true hhold
      exact ⟨key c hc hx, c, hrel, hc⟩
    · exact absurd hx List.not_mem_nil

omit [DecidableEq Client] [DecidableEq Resource] in
/-- Who is granted a resource that others wait for shares it with all holders, and the first of
those who wait does not want to share. -/
theorem overtakes {k : Cell Client} (hok : k.Ok) {m : LockMode}
    (ha : Cell.admits k.holders m = true)
    {x : Client × LockMode} (hx : x ∈ k.queue.head?) :
    m = .shared ∧ x.2 = .exclusive ∧ ∀ v ∈ k.holders.values, v = .shared := by
  have hb := hok.blocked x hx
  have hshared : ∀ v ∈ k.holders.values, v = .shared := by
    intro v hv
    exact (Cell.admits_eq_true.mp ha v hv).2
  refine ⟨?_, hok.head_exclusive hshared hx, hshared⟩
  -- the head is blocked, so there is a holder
  cases hv : k.holders.values with
  | nil => simp [Cell.admits, hv] at hb
  | cons v l => exact (Cell.admits_eq_true.mp ha v (by simp [hv])).1

end Table

/-- **Waiters are served first in, first out.** For every resource of every run: the requests that
have been refused and queued are those that have been granted from the queue, in the same order, and
then the queue; what leaves the queue is granted in its own mode when a holder releases; and an
`acquire` that is granted while others wait is shared, as are all holders, and the first of those
who wait is exclusive. -/
theorem waiters_fifo {defaultLease : Time} (run : CommandRun Client Resource defaultLease)
    (r : Resource) :
    (∀ i ≤ run.length,
      run.history (fun s e => (view s).queued r e.1) i =
        run.history (fun s e => (view s).served r e.1) i ++ ((view (run.state i)).cell r).queue) ∧
    (∀ i < run.length, ∀ x ∈ (view (run.state i)).served r (run.event i).1,
      ((view (run.state (i + 1))).cell r).holders.get? x.1 = some x.2 ∧
        ∃ c, (run.event i).1.releases c r = true ∧ Holds (run.state i) c r) ∧
    ∀ i < run.length, ∀ c m l, (run.event i).1 = .acquire c r m l →
      ((run.state i).lockState r).admits m = true →
        ∀ x ∈ ((view (run.state i)).cell r).queue.head?,
          m = .shared ∧ x.2 = .exclusive ∧
            ∀ v ∈ ((view (run.state i)).cell r).holders.values, v = .shared := by
  refine ⟨?_, fun i hi x hx => ?_, fun i hi c m l _ ha x hx => ?_⟩
  · refine run.fifo (fun s => ((view s).cell r).queue) rfl fun i hi => ?_
    show ((view (run.state i)).cell r).queue ++ _ = _
    rw [view_succ run hi]
    exact Table.queue_apply _
  · obtain ⟨hgrant, c, hrel, hhold⟩ := Table.served_spec (cellOk run hi.le r) hx
    rw [view_succ run hi]
    exact ⟨hgrant, c, hrel, (holding_view _ c r).mp hhold⟩
  · rw [LockState.admits_eq] at ha
    exact Table.overtakes (cellOk run hi.le r) ha hx

end Locks
