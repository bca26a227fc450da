import Terdistribusi.Locks.Properties.Deadlock

/-!
# What a command does to the records of the holders

`view` forgets the leases. Here they are kept: `grant` reads off the state before a command which
record the command makes for a client at a resource, and `get?_holders_step` says that the records
change by these grants and by releases, and by nothing else.

A release makes records only where it frees the resource. It grants `Cell.granted` of the queue
then, and each grant reads the clock twice.
-/

namespace Locks

open Infra LockManager

variable {Client Resource : Type} [DecidableEq Client] [DecidableEq Resource]

/-- The record that `_promote_waiters` makes for a request, after `j` others. -/
def grantedHolder (lease : Time) (clock : ℕ → Time) (j : ℕ) (x : Client × LockMode) :
    LockHolder Client :=
  { clientId := x.1, mode := x.2, acquiredAt := clock (2 * j),
    leaseUntil := clock (2 * j + 1) + lease }

/-- The records that a release by `c` makes. -/
def LockState.grants (lease : Time) (clock : ℕ → Time) (c : Client)
    (st : LockState Client Resource) : List (LockHolder Client) :=
  if st.cell.SoleHolder c then (Cell.granted st.cell.queue).mapIdx (grantedHolder lease clock)
  else []

/-- The record that the command makes for client `c` at resource `r`. -/
def LockManager.grant (s : LockManager Client Resource) (a : Applied Client Resource) (c : Client)
    (r : Resource) : Option (LockHolder Client) :=
  match a.1 with
  | .acquire c' r' m lease =>
    if c' = c ∧ r' = r ∧ (s.lockState r).admits m = true then
      some { clientId := c, mode := m, acquiredAt := a.2.clock 0 1,
             leaseUntil := a.2.clock 0 2 + lease.getD s.defaultLease }
    else none
  | .release c' r' =>
    if r' = r then
      ((s.lockState r).grants s.defaultLease (a.2.clock 0) c').find? fun h => h.clientId = c
    else none
  | .releaseAll c' | .abort c' =>
    ((s.lockState r).grants s.defaultLease (a.2.clock (a.2.order.idxOf r)) c').find?
      fun h => h.clientId = c

/-! ## Granting the queue -/

section Promote

variable (lease : Time) (clock : ℕ → Time)

/-- The index is not read. -/
theorem promoteLoop_fst : ∀ (ws : List (LockRequest Client Resource)) (k : ℕ)
    (st : LockState Client Resource) (cl cl' : Dict Client (Finset Resource)),
    (promoteLoop lease clock k ws st cl).1 = (promoteLoop lease clock k ws st cl').1
  | [], _, _, _, _ => rfl
  | w :: ws, k, st, cl, cl' => by
    rw [promoteLoop, promoteLoop]
    split
    · exact promoteLoop_fst ws (k + 2) _ _ _
    · rfl

omit [DecidableEq Client] [DecidableEq Resource] in
theorem admits_of_exclusive {st : LockState Client Resource} {h : LockHolder Client}
    (hh : h ∈ st.holders.values) (hm : h.mode = .exclusive) (m : LockMode) :
    ¬ st.admits m = true := by
  rw [LockState.admits_eq, Cell.admits_eq_true]
  intro hall
  have hmem : h.mode ∈ st.cell.holders.values := by
    simp only [LockState.cell, Dict.values_mapValues]
    exact List.mem_map_of_mem hh
  rw [hm] at hmem
  cases (hall _ hmem).2

omit [DecidableEq Resource] in
theorem admits_exclusive {st : LockState Client Resource} (hne : st.holders.keys ≠ []) :
    ¬ st.admits .exclusive = true := by
  rw [LockState.admits_eq, Cell.admits_eq_true]
  intro hall
  obtain ⟨c, hc⟩ := List.exists_mem_of_ne_nil _ hne
  obtain ⟨h, hget⟩ := Dict.exists_get?_of_mem_keys hc
  have hmem : h.mode ∈ st.cell.holders.values := by
    simp only [LockState.cell, Dict.values_mapValues]
    exact List.mem_map_of_mem (Dict.mem_values_of_get? hget)
  cases (hall _ hmem).1

omit [DecidableEq Client] [DecidableEq Resource] in
theorem admits_shared {st : LockState Client Resource}
    (hs : ∀ h ∈ st.holders.values, h.mode = .shared) : st.admits .shared = true := by
  rw [LockState.admits_eq, Cell.admits_eq_true]
  intro v hv
  simp only [LockState.cell, Dict.values_mapValues] at hv
  obtain ⟨h, hh, rfl⟩ := List.mem_map.mp hv
  exact ⟨rfl, hs h hh⟩

/-- The records for the shared requests at the head of the queue of a shared lock. -/
theorem promoteLoop_shared : ∀ (ws : List (LockRequest Client Resource)) (j : ℕ)
    (st : LockState Client Resource) (cl : Dict Client (Finset Resource)),
    st.holders.keys ≠ [] → (∀ h ∈ st.holders.values, h.mode = .shared) →
    (ws.map LockRequest.clientId).Nodup → (∀ w ∈ ws, w.clientId ∉ st.holders.keys) →
    (promoteLoop lease clock (2 * j) ws st cl).1.holders.entries = st.holders.entries ++
      (((ws.map fun w => (w.clientId, w.mode)).takeWhile fun x => x.2 = .shared).mapIdx
        fun i => grantedHolder lease clock (j + i)).map fun h => (h.clientId, h)
  | [], _, st, _, _, _, _, _ => by simp [promoteLoop]
  | w :: ws, j, st, cl, hne, hs, hn, hd => by
    rw [promoteLoop]
    cases hw : w.mode with
    | exclusive =>
      rw [if_neg (admits_exclusive hne)]
      simp [hw]
    | shared =>
      obtain ⟨hw', hn'⟩ := List.nodup_cons.mp hn
      have hfree := hd w List.mem_cons_self
      rw [if_pos (admits_shared hs), show 2 * j + 2 = 2 * (j + 1) by omega,
        promoteLoop_shared ws (j + 1)]
      · rw [Dict.entries_set_of_not_mem hfree, List.append_assoc, List.map_cons,
          List.takeWhile_cons_of_pos (by simp [hw]), List.mapIdx_cons, List.map_cons,
          List.singleton_append]
        simp only [hw, grantedHolder, Nat.add_zero, Nat.add_assoc, Nat.add_comm 1]
      · exact List.ne_nil_of_mem (Dict.mem_keys_set.mpr (Or.inl rfl))
      · intro h hh
        rcases Dict.mem_values_set hh with rfl | hold
        · rfl
        · exact hs h hold
      · exact hn'
      · intro v hv hk
        rcases Dict.mem_keys_set.mp hk with heq | hold
        · exact hw' (heq ▸ List.mem_map_of_mem hv)
        · exact hd v (List.mem_cons_of_mem w hv) hold

/-- The records after the queue of a free resource has been granted. -/
theorem promoteLoop_free (ws : List (LockRequest Client Resource))
    (st : LockState Client Resource) (cl : Dict Client (Finset Resource))
    (hfree : st.holders.entries = []) (hn : (ws.map LockRequest.clientId).Nodup) :
    (promoteLoop lease clock 0 ws st cl).1.holders.entries =
      ((Cell.granted (ws.map fun w => (w.clientId, w.mode))).mapIdx
        (grantedHolder lease clock)).map fun h => (h.clientId, h) := by
  cases ws with
  | nil => exact hfree
  | cons w ws =>
    have hkeys : st.holders.keys = [] := by rw [Dict.keys, hfree]; rfl
    have hadmits : st.admits w.mode = true := by
      rw [LockState.admits_eq]
      refine Cell.admits_of_keys_eq_nil ?_ _
      rw [LockState.cell, Dict.keys_mapValues, hkeys]
    obtain ⟨hw, hn'⟩ := List.nodup_cons.mp hn
    have hentries : ∀ h : LockHolder Client, (st.holders.set w.clientId h).entries =
        [(w.clientId, h)] := fun h => by
      rw [Dict.entries_set_of_not_mem (by rw [hkeys]; exact List.not_mem_nil), hfree]
      rfl
    rw [promoteLoop, if_pos hadmits, List.map_cons, Cell.granted]
    cases hm : w.mode with
    | exclusive =>
      rw [if_pos rfl]
      -- an exclusive grant is the only one
      cases ws with
      | nil => simpa [promoteLoop, grantedHolder] using hentries _
      | cons v vs =>
        rw [promoteLoop, if_neg]
        · simpa [grantedHolder] using hentries _
        · exact admits_of_exclusive (Dict.mem_values_of_get? (Dict.get?_set_self _ _ _)) rfl v.mode
    | shared =>
      -- the shared requests behind it are granted too, up to the first exclusive one
      rw [if_neg (by simp), List.takeWhile_cons_of_pos (by simp), List.mapIdx_cons, List.map_cons,
        show 0 + 2 = 2 * 1 from rfl, promoteLoop_shared lease clock ws 1]
      · simp only [hentries, List.singleton_append, grantedHolder, Nat.add_comm 1]
      · exact List.ne_nil_of_mem (Dict.mem_keys_set.mpr (Or.inl rfl))
      · intro h hh
        rcases Dict.mem_values_set hh with rfl | hold
        · rfl
        · rw [Dict.values, hfree] at hold
          cases hold
      · exact hn'
      · intro v hv hk
        rcases Dict.mem_keys_set.mp hk with heq | hold
        · exact hw (heq ▸ List.mem_map_of_mem hv)
        · rw [hkeys] at hold
          cases hold

end Promote

/-! ## One release -/

/-- What becomes of the lock state of a resource when `c` releases it. -/
def LockState.release (lease : Time) (clock : ℕ → Time) (c : Client)
    (st : LockState Client Resource) : LockState Client Resource :=
  if c ∈ st.holders.keys then
    (promoteLoop lease clock 0 st.waiters { st with holders := st.holders.erase c } Dict.empty).1
  else st

/-- The others keep the resource shared, and the head of the queue is exclusive. -/
theorem LockState.holders_release_of_others {st : LockState Client Resource} (hok : st.cell.Ok)
    (lease : Time) (clock : ℕ → Time) {c : Client} (hc : c ∈ st.holders.keys)
    (hothers : ¬ st.cell.SoleHolder c) :
    (st.release lease clock c).holders = st.holders.erase c := by
  have hhold : st.cell.Holding c := (LockState.holding_cell st c).mpr hc
  obtain ⟨d, hd⟩ : ∃ d, d ∈ (st.holders.erase c).keys := by
    refine List.exists_mem_of_ne_nil _ fun hnil => hothers ?_
    have hkeys := (Dict.keys_erase_eq_nil_iff hc).mp hnil
    simpa [Cell.SoleHolder, LockState.cell] using hkeys
  have hd' : d ∈ (st.cell.holders.erase c).keys := by
    simpa only [LockState.cell, ← Dict.mapValues_erase, Dict.keys_mapValues] using hd
  unfold LockState.release
  rw [if_pos hc]
  cases hw : st.waiters with
  | nil => rfl
  | cons w ws =>
    rw [promoteLoop, if_neg]
    rw [LockState.admits_eq, Bool.not_eq_true]
    have hrefused := hok.head_refused hhold hd' (w.clientId, w.mode) (by
      simp [LockState.cell, hw])
    simpa [LockState.cell] using hrefused

/-- **The records after a release**: the granted ones, and those that were there. -/
theorem LockState.get?_holders_release {st : LockState Client Resource} (hok : st.cell.Ok)
    (lease : Time) (clock : ℕ → Time) (c u : Client) :
    (st.release lease clock c).holders.get? u =
      ((st.grants lease clock c).find? fun h => h.clientId = u).or
        (if c = u then none else st.holders.get? u) := by
  by_cases hc : c ∈ st.holders.keys
  · by_cases hsole : st.cell.SoleHolder c
    · have hkeys : st.holders.keys = [c] := by simpa [Cell.SoleHolder, LockState.cell] using hsole
      have hfree : (st.holders.erase c).entries = [] :=
        List.map_eq_nil_iff.mp ((Dict.keys_erase_eq_nil_iff hc).mpr hkeys)
      have hn : (st.waiters.map LockRequest.clientId).Nodup := by
        have hd := hok.distinct
        simpa [LockState.cell, List.map_map, Function.comp_def] using hd
      have hold : (if c = u then none else st.holders.get? u) = none := by
        split
        · rfl
        · next hne =>
          rw [Dict.get?_eq_none_iff, hkeys, List.mem_singleton]
          exact Ne.symm hne
      rw [LockState.release, if_pos hc, hold, Option.or_none, Dict.get?,
        promoteLoop_free lease clock _ _ _ hfree hn, Dict.lookup_map_self, LockState.grants,
        if_pos hsole]
      rfl
    · rw [LockState.holders_release_of_others hok lease clock hc hsole, Dict.get?_erase,
        LockState.grants, if_neg hsole]
      rfl
  · have hsole : ¬ st.cell.SoleHolder c := fun hs =>
      hc ((LockState.holding_cell st c).mp (Dict.keys_eq_singleton_iff.mp hs).1)
    rw [LockState.release, if_neg hc, LockState.grants, if_neg hsole, List.find?_nil,
      Option.none_or]
    split
    · next heq =>
      subst heq
      exact Dict.get?_eq_none_iff.mpr hc
    · rfl

section Release

variable (clock : ℕ → Time) (c : Client) (r : Resource) {s : LockManager Client Resource}

theorem defaultLease_doRelease : (s.doRelease clock c r).2.defaultLease = s.defaultLease := by
  by_cases hc : c ∈ (s.lockState r).holders.keys
  · rw [doRelease_of_holding clock c r hc]
    rfl
  · rw [doRelease_of_not_holding clock c r hc]

theorem lockState_doRelease (h : Indexed s) (r' : Resource) :
    (s.doRelease clock c r).2.lockState r' =
      if r' = r then (s.lockState r).release s.defaultLease clock c else s.lockState r' := by
  unfold LockState.release
  by_cases hc : c ∈ (s.lockState r).holders.keys
  · rw [doRelease_of_holding clock c r hc, if_pos hc, promoteWaiters]
    rw [lockState_of_locks_eq (s := s) rfl]
    dsimp only
    rw [h.resource r, promoteLoop_fst _ _ _ _ _ _ Dict.empty]
    rfl
  · rw [doRelease_of_not_holding clock c r hc, if_neg hc]
    split
    · next heq => rw [heq]
    · rfl

end Release

theorem lockState_releaseEach (clock : ℕ → ℕ → Time) (c : Client) (r : Resource) :
    ∀ (rs : List Resource) (i count : ℕ) (s : LockManager Client Resource), Indexed s → rs.Nodup →
      (releaseEach clock c i rs count s).2.lockState r =
        if r ∈ rs then (s.lockState r).release s.defaultLease (clock (i + rs.idxOf r)) c
        else s.lockState r
  | [], _, _, _, _, _ => by simp [releaseEach]
  | r' :: rs, i, count, s, h, hn => by
    obtain ⟨hr', hn'⟩ := List.nodup_cons.mp hn
    have hlock := lockState_doRelease (clock i) c r' h r
    have hlease := defaultLease_doRelease (clock i) c r' (s := s)
    have hind := indexed_doRelease (clock i) c r' h
    rw [releaseEach, lockState_releaseEach clock c r rs (i + 1) _ _ hind hn', hlock, hlease]
    by_cases hrr : r = r'
    · subst hrr
      simp [hr']
    · rw [if_neg hrr, List.idxOf_cons_ne _ (Ne.symm hrr)]
      simp only [List.mem_cons, hrr, false_or]
      rw [show i + 1 + rs.idxOf r = i + (rs.idxOf r + 1) by omega]

/-! ## Commands -/

theorem get?_holders_doReleaseAll {s : LockManager Client Resource} (h : Indexed s)
    (hok : ∀ r, ((view s).cell r).Ok) (env : Env Resource) (c' c : Client) (r : Resource)
    (hn : env.order.Nodup) (ho : env.order.toFinset = s.locksOf c') :
    ((s.doReleaseAll env.clock env.order c').2.lockState r).holders.get? c =
      (((s.lockState r).grants s.defaultLease (env.clock (env.order.idxOf r)) c').find?
        fun h => h.clientId = c).or
        (if c' = c then none else (s.lockState r).holders.get? c) := by
  have hlock : (s.doReleaseAll env.clock env.order c').2.lockState r =
      (s.lockState r).release s.defaultLease (env.clock (env.order.idxOf r)) c' := by
    refine (lockState_releaseEach env.clock c' r env.order 0 0 s h hn).trans ?_
    rw [Nat.zero_add]
    split
    · rfl
    · next hr =>
      -- a resource that is not in the index is not held
      refine (if_neg fun hk => hr ?_).symm
      rw [← List.mem_toFinset, ho]
      exact (h.index r c').mpr hk
  rw [hlock]
  exact LockState.get?_holders_release (hok r) _ _ _ _

theorem get?_holders_doAcquire (s : LockManager Client Resource) (clock : ℕ → Time)
    (requestId : ℕ) (c' c : Client) (r' r : Resource) (m : LockMode) (lease : Time) :
    ((s.doAcquire clock requestId c' r' m lease).2.lockState r).holders.get? c =
      (if c' = c ∧ r' = r ∧ (s.lockState r).admits m = true then
        some { clientId := c, mode := m, acquiredAt := clock 1,
               leaseUntil := clock 2 + lease }
      else none).or ((s.lockState r).holders.get? c) := by
  unfold doAcquire
  dsimp only
  split
  · next hadm =>
    rw [lockState_of_locks_eq (s := s) rfl]
    by_cases hr : r = r'
    · subst hr
      rw [if_pos rfl, Dict.get?_set]
      by_cases hc : c' = c
      · subst hc
        simp [hadm]
      · simp [hc]
    · simp [hr, Ne.symm hr]
  · next hadm =>
    rw [lockState_of_locks_eq (s := s) rfl]
    have hno : ¬ (c' = c ∧ r' = r ∧ (s.lockState r).admits m = true) := by
      rintro ⟨-, rfl, hall⟩
      exact hadm hall
    rw [if_neg hno, Option.none_or]
    split
    · next hr =>
      subst hr
      rfl
    · rfl

/-- **The records after a command**: the one that it grants, or what was there and is not
released. -/
theorem get?_holders_step {s s' : LockManager Client Resource} {a : Applied Client Resource}
    (h : Indexed s) (hok : ∀ r, ((view s).cell r).Ok) (hs : step s a = some s') (c : Client)
    (r : Resource) :
    (s'.lockState r).holders.get? c = (s.grant a c r).or
      (if a.1.releases c r then none else (s.lockState r).holders.get? c) := by
  obtain ⟨hfit, rfl⟩ := step_eq_some hs
  obtain ⟨cmd, env⟩ := a
  cases cmd with
  | acquire c' r' m lease =>
    simp only [applyCommand, grant, Command.releases, Bool.false_eq_true, if_false]
    exact get?_holders_doAcquire s (env.clock 0) env.requestId c' c r' r m _
  | release c' r' =>
    simp only [applyCommand, grant, Command.releases]
    rw [lockState_doRelease _ _ _ h]
    by_cases hr : r' = r
    · subst hr
      rw [if_pos rfl, if_pos rfl, LockState.get?_holders_release (hok r')]
      simp
    · rw [if_neg (Ne.symm hr), if_neg hr]
      simp [hr]
  | releaseAll c' =>
    obtain ⟨hn, ho⟩ := Bool.and_eq_true_iff.mp hfit
    refine (get?_holders_doReleaseAll h hok env c' c r (of_decide_eq_true hn)
      (of_decide_eq_true ho)).trans ?_
    simp [grant, Command.releases]
  | abort c' =>
    obtain ⟨hn, ho⟩ := Bool.and_eq_true_iff.mp hfit
    refine (get?_holders_doReleaseAll h hok env c' c r (of_decide_eq_true hn)
      (of_decide_eq_true ho)).trans ?_
    simp [grant, Command.releases]

end Locks
