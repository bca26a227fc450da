import Terdistribusi.Locks.Properties.Deadlock

/-!
# When a detected deadlock is real

An edge of the graph records a wait, and it may outlive the wait: when one of several holders of a
resource releases it, the edges to this holder stay. Exactly in a run without such a release
(`LeavesEdge`) every edge stands for a wait at all times (`edgesSound_iff`), and what the detector
finds is then a circular wait.
-/

namespace Locks

open Infra LockManager

variable {Client Resource : Type} [DecidableEq Client] [DecidableEq Resource]

/-! ## One resource -/

namespace Cell

theorem waiting_acquire {k : Cell Client} {c w : Client} {m : LockMode} (h : k.Waiting w) :
    (k.acquire c m).Waiting w := by
  unfold acquire
  split
  · exact h
  · split
    · exact h
    · show w ∈ (k.queue ++ [(c, m)]).map Prod.fst
      rw [List.map_append]
      exact List.mem_append_left _ h

theorem holding_acquire {k : Cell Client} {c h : Client} {m : LockMode} (hk : k.Holding h) :
    (k.acquire c m).Holding h := by
  unfold acquire
  split
  · exact Dict.mem_keys_set.mpr (Or.inr hk)
  · split
    · exact hk
    · exact hk

/-- A refused client waits. -/
theorem waiting_acquire_self {k : Cell Client} {c : Client} {m : LockMode}
    (ha : ¬ admits k.holders m = true) : (k.acquire c m).Waiting c := by
  rw [acquire, if_neg ha]
  split
  · next hw => exact hw
  · show c ∈ (k.queue ++ [(c, m)]).map Prod.fst
    simp

theorem waiting_release_of_not_sole {k : Cell Client} (hok : k.Ok) {c w : Client}
    (hsole : ¬ k.SoleHolder c) : (k.release c).Waiting w ↔ k.Waiting w := by
  rw [hok.release_of_not_sole hsole]
  exact Iff.rfl

theorem holding_release_of_not_sole {k : Cell Client} (hok : k.Ok) {c h : Client}
    (hsole : ¬ k.SoleHolder c) : (k.release c).Holding h ↔ h ≠ c ∧ k.Holding h := by
  rw [hok.release_of_not_sole hsole]
  exact Dict.mem_keys_erase

end Cell

/-! ## The graph of the detector -/

namespace Table

/-- Every edge stands for a wait: its source waits for a resource that its target holds. -/
def EdgesSound (t : Table Client Resource) : Prop :=
  ∀ w h, h ∈ t.waitFor w → ∃ r, (t.cell r).Waiting w ∧ (t.cell r).Holding h

/-- One of several holders releases the resource, and somebody with an edge to it waits for it
nowhere else. -/
def LeavesEdge (t : Table Client Resource) : Command Client Resource → Prop
  | .release c r =>
    (t.cell r).Holding c ∧ ¬ (t.cell r).SoleHolder c ∧
      ∃ w, c ∈ t.waitFor w ∧ ∀ r', (t.cell r').Waiting w → (t.cell r').Holding c → r' = r
  | _ => False

instance [Fintype Client] [Fintype Resource] (t : Table Client Resource)
    (cmd : Command Client Resource) : Decidable (t.LeavesEdge cmd) :=
  match cmd with
  | .release _ _ => inferInstanceAs (Decidable (_ ∧ _))
  | .acquire _ _ _ _ | .releaseAll _ | .abort _ => inferInstanceAs (Decidable False)

variable {t : Table Client Resource}

theorem EdgesSound.acquire (he : t.EdgesSound) {c : Client} {r : Resource} {m : LockMode}
    {l : Option Time} : (t.apply (.acquire c r m l)).EdgesSound := by
  have hwait : ∀ r' w, (t.cell r').Waiting w →
      (actOn r' (.acquire c r m l) (t.cell r')).Waiting w := by
    intro r' w hw
    simp only [actOn]
    split
    · exact Cell.waiting_acquire hw
    · exact hw
  have hhold : ∀ r' h, (t.cell r').Holding h →
      (actOn r' (.acquire c r m l) (t.cell r')).Holding h := by
    intro r' h hk
    simp only [actOn]
    split
    · exact Cell.holding_acquire hk
    · exact hk
  intro w h hedge
  by_cases hold : h ∈ t.waitFor w
  · obtain ⟨r', hw, hk⟩ := he w h hold
    exact ⟨r', hwait r' w hw, hhold r' h hk⟩
  · -- a new edge leads from the refused client to a holder
    simp only [apply, graph] at hedge
    split at hedge
    · exact absurd hedge hold
    · next ha =>
      by_cases hwc : w = c
      · subst hwc
        rw [Function.update_self] at hedge
        obtain ⟨-, hk⟩ := Finset.mem_erase.mp ((Finset.mem_union.mp hedge).resolve_left hold)
        refine ⟨r, ?_, hhold r h (List.mem_toFinset.mp hk)⟩
        show (actOn r (.acquire w r m l) (t.cell r)).Waiting w
        simp only [actOn, if_true]
        exact Cell.waiting_acquire_self ha
      · rw [Function.update_of_ne hwc] at hedge
        exact absurd hedge hold

/-- The waits of others for others survive a release. -/
theorem wait_release {k : Cell Client} (hok : k.Ok) {c w h : Client} (hhc : h ≠ c)
    (hw : k.Waiting w) (hk : k.Holding h) : (k.release c).Waiting w ∧ (k.release c).Holding h := by
  have hsole : ¬ k.SoleHolder c :=
    fun hs => hhc ((Dict.keys_eq_singleton_iff.mp hs).2 h hk)
  exact ⟨(Cell.waiting_release_of_not_sole hok hsole).mpr hw,
    (Cell.holding_release_of_not_sole hok hsole).mpr ⟨hhc, hk⟩⟩

theorem EdgesSound.release (he : t.EdgesSound) (hok : t.Ok) {c : Client} {r : Resource} :
    (t.apply (.release c r)).EdgesSound ↔ ¬ t.LeavesEdge (.release c r) := by
  -- an edge to another client keeps its resource
  have hkeep : ∀ w h, h ≠ c → h ∈ t.waitFor w →
      ∃ r', (actOn r' (.release c r) (t.cell r')).Waiting w ∧
        (actOn r' (.release c r) (t.cell r')).Holding h := by
    intro w h hhc hedge
    obtain ⟨r', hw, hk⟩ := he w h hedge
    refine ⟨r', ?_⟩
    simp only [actOn]
    split
    · exact wait_release (hok r') hhc hw hk
    · exact ⟨hw, hk⟩
  by_cases hsole : (t.cell r).SoleHolder c
  · refine iff_of_true (fun w h hedge => ?_) fun hl => hl.2.1 hsole
    simp only [apply, graph, if_pos hsole] at hedge
    obtain ⟨-, hhc, hedge⟩ := mem_dropClient.mp hedge
    exact hkeep w h hhc hedge
  · constructor
    · rintro hall ⟨hc, -, w, hedge, honly⟩
      obtain ⟨r', hw, hk⟩ := hall w c (by simpa only [apply, graph, if_neg hsole] using hedge)
      by_cases hr : r' = r
      · subst hr
        simp only [apply, actOn, if_true] at hk
        exact ((Cell.holding_release_of_not_sole (hok r') hsole).mp hk).1 rfl
      · simp only [apply, actOn, if_neg hr] at hw hk
        exact hr (honly r' hw hk)
    · intro hno w h hedge
      simp only [apply, graph, if_neg hsole] at hedge
      by_cases hhc : h = c
      · -- the edge needs another resource for which `w` waits
        subst hhc
        obtain ⟨r₀, hw₀, hk₀⟩ := he w h hedge
        obtain ⟨r', hw, hk, hr⟩ :
            ∃ r', (t.cell r').Waiting w ∧ (t.cell r').Holding h ∧ r' ≠ r := by
          by_contra hall
          have honly : ∀ r', (t.cell r').Waiting w → (t.cell r').Holding h → r' = r := by
            intro r' hw hk
            by_contra hr
            exact hall ⟨r', hw, hk, hr⟩
          obtain rfl := honly r₀ hw₀ hk₀
          exact hno ⟨hk₀, hsole, w, hedge, honly⟩
        refine ⟨r', ?_⟩
        simp only [apply, actOn, if_neg hr]
        exact ⟨hw, hk⟩
      · exact hkeep w h hhc hedge

theorem EdgesSound.releaseAll (he : t.EdgesSound) (hok : t.Ok) {c : Client} :
    (t.apply (.releaseAll c)).EdgesSound := by
  intro w h hedge
  obtain ⟨-, hhc, hedge⟩ := mem_dropClient.mp hedge
  obtain ⟨r, hw, hk⟩ := he w h hedge
  exact ⟨r, wait_release (hok r) hhc hw hk⟩

/-- A command keeps the graph sound exactly when it leaves no edge behind. -/
theorem EdgesSound.apply (he : t.EdgesSound) (hok : t.Ok) (cmd : Command Client Resource) :
    (t.apply cmd).EdgesSound ↔ ¬ t.LeavesEdge cmd := by
  cases cmd with
  | acquire c r m l => exact iff_of_true he.acquire id
  | release c r => exact he.release hok
  | releaseAll c => exact iff_of_true (he.releaseAll hok) id
  | abort c => exact iff_of_true (he.releaseAll hok) id

end Table

/-! ## Detection -/

/-- Client `u` waits for a resource that client `v` holds. -/
def WaitsForHolder (s : LockManager Client Resource) (u v : Client) : Prop :=
  ∃ r, Waits s u r ∧ Holds s v r

variable {defaultLease : Time}

/-- Every edge stands for a wait in all states of a run exactly when no command leaves an edge
behind. -/
theorem edgesSound_iff (run : CommandRun Client Resource defaultLease) :
    (∀ i ≤ run.length, (view (run.state i)).EdgesSound) ↔
      ∀ i < run.length, ¬ (view (run.state i)).LeavesEdge (run.event i).1 := by
  refine run.always_iff (P := fun s => (view s).EdgesSound)
    (G := fun s e => ¬ (view s).LeavesEdge e.1) ?_ (fun i hi he => ?_)
  · intro w h hedge
    cases hedge
  · rw [view_succ run hi]
    exact he.apply (cellOk run hi.le) _

/-- **A detected deadlock is real** in every state of a run in which no command leaves an edge
behind: each client of the cycle waits for a resource that the next one holds, and the client that
is aborted is in a circular wait. -/
theorem cycle_waits (run : CommandRun Client Resource defaultLease)
    (hno : ∀ i < run.length, ¬ (view (run.state i)).LeavesEdge (run.event i).1) {i : ℕ}
    (hi : i ≤ run.length) (limit : ℕ) {order : Client → List Client}
    (horder : ∀ u, (order u).toFinset = (run.state i).deadlockDetector.holdersOf u) :
    (∀ cycle, (run.state i).deadlockDetector.detectCycle limit order = .ok (some cycle) →
      cycle.IsChain (WaitsForHolder (run.state i))) ∧
    ∀ c, (run.state i).detectDeadlock limit order = .ok (some (.abort c)) →
      Relation.TransGen (WaitsForHolder (run.state i)) c c := by
  have hedge : ∀ u v, v ∈ order u → WaitsForHolder (run.state i) u v := by
    intro u v hv
    rw [← List.mem_toFinset, horder] at hv
    obtain ⟨r, hw, hk⟩ := (edgesSound_iff run).mpr hno i hi u v hv
    exact ⟨r, (waiting_view _ u r).mp hw, (holding_view _ v r).mp hk⟩
  have hcycle : ∀ cycle, (run.state i).deadlockDetector.detectCycle limit order =
      .ok (some cycle) →
      ∃ v l, cycle = v :: (l ++ [v]) ∧ cycle.IsChain (WaitsForHolder (run.state i)) := by
    intro cycle hfound
    obtain ⟨v, l, hl, hchain⟩ := (DeadlockDetector.isSimpleCycle_of_detectCycle hfound).1
    exact ⟨v, l, hl, hchain.imp hedge⟩
  constructor
  · intro cycle hfound
    obtain ⟨-, -, -, hchain⟩ := hcycle cycle hfound
    exact hchain
  · intro c habort
    rw [LockManager.detectDeadlock] at habort
    split at habort
    · cases habort
    · cases habort
    · next cycle hfound =>
      obtain ⟨v, l, rfl, hchain⟩ := hcycle cycle hfound
      obtain ⟨c', hc', heq⟩ := Option.map_eq_some_iff.mp (Except.ok.inj habort)
      cases heq
      exact Dfs.transGen_of_mem hchain (List.argmax_mem hc')

/-- In the deadlock of two clients, client 0 is aborted. -/
theorem cycle_waits_deadlock :
    ((deadlock.state 4).deadlockDetector.detectCycle 1000 (fun u => [u + 1]) =
        .ok (some [0, 1, 0]) ∧ [0, 1, 0].IsChain (WaitsForHolder (deadlock.state 4))) ∧
    (deadlock.state 4).detectDeadlock 1000 (fun u => [u + 1]) = .ok (some (.abort 0)) ∧
      Relation.TransGen (WaitsForHolder (deadlock.state 4)) 0 0 := by
  have horder : ∀ u : Fin 2, ([u + 1] : List (Fin 2)).toFinset =
      (deadlock.state 4).deadlockDetector.holdersOf u := by decide +kernel
  have hboth := cycle_waits deadlock (by decide +kernel) (by decide) 1000 horder
  have hcycle : (deadlock.state 4).deadlockDetector.detectCycle 1000 (fun u => [u + 1]) =
      .ok (some [0, 1, 0]) := by decide +kernel
  have habort : (deadlock.state 4).detectDeadlock 1000 (fun u => [u + 1]) =
      .ok (some (.abort 0)) := by decide +kernel
  exact ⟨⟨hcycle, hboth.1 _ hcycle⟩, habort, hboth.2 _ habort⟩

/-! ## A phantom deadlock -/

/-- Clients 0 and 1 share resource 0, and client 2, which holds resource 1, waits for it. Client 0
releases resource 0 and then waits for resource 1. -/
def phantomEvents : List (Applied (Fin 3) (Fin 2)) :=
  [plain (.acquire 2 1 .exclusive none), plain (.acquire 0 0 .shared none),
    plain (.acquire 1 0 .shared none), plain (.acquire 2 0 .exclusive none),
    plain (.release 0 0), plain (.acquire 0 1 .exclusive none)]

def phantom : CommandRun (Fin 3) (Fin 2) 30 :=
  Run.ofEvents _ _ phantomEvents (plain (.releaseAll 0)) (by decide +kernel)

/-- The order in which the sets of `phantom` are gone through. -/
def phantomOrder (u : Fin 3) : List (Fin 3) :=
  if u = 0 then [2] else if u = 2 then [0, 1] else []

/-- Client 2 is aborted for a cycle with client 0, which holds nothing. -/
theorem phantom_detected :
    (∀ u, (phantomOrder u).toFinset = (phantom.state 6).deadlockDetector.holdersOf u) ∧
      (phantom.state 6).deadlockDetector.detectCycle 1000 phantomOrder = .ok (some [2, 0, 2]) ∧
      (phantom.state 6).detectDeadlock 1000 phantomOrder = .ok (some (.abort 2)) ∧
      ∀ r, ¬ Holds (phantom.state 6) 0 r := by
  decide +kernel

end Locks
