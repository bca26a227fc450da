import Terdistribusi.Locks.Table

/-!
# The lock manager refines the lock table

`view` forgets clocks, leases and request ids. A command that is applied to the lock manager does to
its view what `Table.apply` says (`view_refines`), whatever the clock shows and in whatever order a
set is gone through, and answers what the table tells (`doAcquire_fst`, `doRelease_fst`).

The index `client_locks` is part of the proof: `release_all` finds the resources of a client there.
`Indexed` says that it lists exactly the resources that the client holds.
-/

namespace Locks

open Infra LockManager

variable {Client Resource : Type} [DecidableEq Client] [DecidableEq Resource]

/-! ## One resource -/

def LockState.cell (st : LockState Client Resource) : Cell Client where
  holders := st.holders.mapValues LockHolder.mode
  queue := st.waiters.map fun w => (w.clientId, w.mode)

omit [DecidableEq Client] [DecidableEq Resource] in
/-- The two conditions of the source say that the mode is compatible with every holder. -/
theorem LockState.admits_eq (st : LockState Client Resource) (m : LockMode) :
    st.admits m = Cell.admits st.cell.holders m := by
  have hvalues : st.cell.holders.values = st.holders.values.map LockHolder.mode :=
    Dict.values_mapValues _ _
  rw [Bool.eq_iff_iff, Cell.admits_eq_true, hvalues]
  by_cases hnil : st.holders.values = []
  · simp [LockState.admits, LockState.isHeld, hnil]
  · have hheld : st.isHeld = true := by
      simpa [LockState.isHeld] using List.length_pos_iff.mpr hnil
    simp only [LockState.admits, LockState.mode, hheld, Bool.not_true, Bool.false_or,
      Bool.and_eq_true, decide_eq_true_eq, if_true, List.mem_map, forall_exists_index, and_imp,
      forall_apply_eq_imp_iff₂]
    constructor
    · rintro ⟨hm, hmode⟩ h hh
      refine ⟨hm, ?_⟩
      cases hx : h.mode with
      | shared => rfl
      | exclusive =>
        rw [if_pos (List.any_eq_true.mpr ⟨h, hh, by simpa using hx⟩)] at hmode
        cases hmode
    · intro hall
      obtain ⟨v, hv⟩ := List.exists_mem_of_ne_nil _ hnil
      refine ⟨(hall v hv).1, if_neg ?_⟩
      rw [List.any_eq_true]
      rintro ⟨h, hh, hx⟩
      rw [decide_eq_true_eq, (hall h hh).2] at hx
      cases hx

/-- The resource `r` stands in the index under exactly the clients that hold it. -/
def IndexedAt (cl : Dict Client (Finset Resource)) (r : Resource)
    (holders : Dict Client (LockHolder Client)) : Prop :=
  ∀ c, r ∈ (cl.get? c).getD ∅ ↔ c ∈ holders.keys

theorem mem_addLock {cl : Dict Client (Finset Resource)} {c c' : Client} {r r' : Resource} :
    r' ∈ ((addLock c r cl).get? c').getD ∅ ↔ (c' = c ∧ r' = r) ∨ r' ∈ (cl.get? c').getD ∅ := by
  unfold addLock
  rw [Dict.get?_set]
  by_cases h : c = c'
  · subst h
    simp
  · simp [h, Ne.symm h]

theorem mem_discardLock {cl : Dict Client (Finset Resource)} {c c' : Client} {r r' : Resource} :
    r' ∈ ((discardLock c r cl).get? c').getD ∅ ↔
      ¬ (c' = c ∧ r' = r) ∧ r' ∈ (cl.get? c').getD ∅ := by
  unfold discardLock
  rw [Dict.get?_set]
  by_cases h : c = c'
  · subst h
    simp
  · simp [h, Ne.symm h]

/-- The loop of `_promote_waiters` is `Cell.promote`. -/
theorem promoteLoop_cell (lease : Time) (clock : ℕ → Time) :
    ∀ (ws : List (LockRequest Client Resource)) (k : ℕ) (st : LockState Client Resource)
      (cl : Dict Client (Finset Resource)), st.waiters = ws →
      (promoteLoop lease clock k ws st cl).1.cell = Cell.promote st.cell.queue st.cell.holders ∧
        (promoteLoop lease clock k ws st cl).1.resource = st.resource
  | [], k, st, cl, h => by
    have hcell : st.cell = { holders := st.cell.holders, queue := [] } := by
      simp [LockState.cell, h]
    refine ⟨?_, rfl⟩
    rw [hcell]
    exact hcell
  | w :: ws, k, st, cl, h => by
    have hq : st.cell.queue = (w.clientId, w.mode) :: ws.map fun w => (w.clientId, w.mode) := by
      simp [LockState.cell, h]
    rw [promoteLoop, hq, Cell.promote, LockState.admits_eq]
    split
    · obtain ⟨hcell, hres⟩ := promoteLoop_cell lease clock ws (k + 2)
        { st with
          holders := st.holders.set w.clientId
            { clientId := w.clientId, mode := w.mode, acquiredAt := clock k,
              leaseUntil := clock (k + 1) + lease }
          waiters := ws }
        (addLock w.clientId st.resource cl) rfl
      refine ⟨hcell.trans ?_, hres⟩
      simp [LockState.cell]
    · refine ⟨?_, rfl⟩
      rw [← hq]

/-- The loop of `_promote_waiters` keeps the index, and touches one resource of it. -/
theorem promoteLoop_index (lease : Time) (clock : ℕ → Time) :
    ∀ (ws : List (LockRequest Client Resource)) (k : ℕ) (st : LockState Client Resource)
      (cl : Dict Client (Finset Resource)), IndexedAt cl st.resource st.holders →
      IndexedAt (promoteLoop lease clock k ws st cl).2 st.resource
          (promoteLoop lease clock k ws st cl).1.holders ∧
        ∀ c r, r ≠ st.resource →
          (r ∈ ((promoteLoop lease clock k ws st cl).2.get? c).getD ∅ ↔
            r ∈ (cl.get? c).getD ∅)
  | [], _, _, _, h => ⟨h, fun _ _ _ => Iff.rfl⟩
  | w :: ws, k, st, cl, h => by
    rw [promoteLoop]
    split
    · have hadd : IndexedAt (addLock w.clientId st.resource cl) st.resource
          (st.holders.set w.clientId
            { clientId := w.clientId, mode := w.mode, acquiredAt := clock k,
              leaseUntil := clock (k + 1) + lease }) := by
        intro c
        rw [mem_addLock, Dict.mem_keys_set, h c]
        tauto
      obtain ⟨hidx, hother⟩ := promoteLoop_index lease clock ws (k + 2)
        { st with
          holders := st.holders.set w.clientId
            { clientId := w.clientId, mode := w.mode, acquiredAt := clock k,
              leaseUntil := clock (k + 1) + lease }
          waiters := ws }
        (addLock w.clientId st.resource cl) hadd
      refine ⟨hidx, fun c r hr => (hother c r hr).trans ?_⟩
      rw [mem_addLock]
      tauto
    · exact ⟨h, fun _ _ _ => Iff.rfl⟩

/-! ## The graph of the detector -/

namespace DeadlockDetector

theorem holdersOf_addWait (w h u : Client) (d : DeadlockDetector Client) :
    (d.addWait w h).holdersOf u =
      if u = w ∧ h ≠ w then insert h (d.holdersOf u) else d.holdersOf u := by
  unfold addWait
  by_cases hwh : w = h
  · simp [hwh]
  · rw [if_neg hwh, holdersOf, Dict.get?_set]
    by_cases hu : w = u
    · subst hu
      simp [Ne.symm hwh]
    · simp [hu, Ne.symm hu, holdersOf]

@[simp] theorem holdersOf_setClientAge (c u : Client) (ts : Time) (d : DeadlockDetector Client) :
    (d.setClientAge c ts).holdersOf u = d.holdersOf u := by
  unfold setClientAge
  split <;> rfl

/-- The edges that a refused `acquire` adds. -/
theorem holdersOf_foldl_addWait (c u : Client) : ∀ (hs : List Client) (d : DeadlockDetector Client),
    (hs.foldl (fun d h => if h ≠ c then d.addWait c h else d) d).holdersOf u =
      if u = c then d.holdersOf u ∪ hs.toFinset.erase c else d.holdersOf u
  | [], d => by simp
  | h :: hs, d => by
    rw [List.foldl_cons, holdersOf_foldl_addWait c u hs]
    by_cases hc : h = c
    · subst hc
      simp [Finset.erase_insert_eq_erase]
    · rw [if_pos hc, holdersOf_addWait]
      by_cases hu : u = c
      · simp [hu, hc, Finset.erase_insert_of_ne hc]
      · simp [hu]

theorem discardHolder_getD (c w u : Client) (g : Dict Client (Finset Client)) :
    ((discardHolder c g w).get? u).getD ∅ =
      if u = w then ((g.get? u).getD ∅).erase c else (g.get? u).getD ∅ := by
  show ((if ((g.get? w).getD ∅).erase c = ∅ then g.erase w
    else g.set w (((g.get? w).getD ∅).erase c)).get? u).getD ∅ = _
  by_cases hrest : ((g.get? w).getD ∅).erase c = ∅
  · rw [if_pos hrest, Dict.get?_erase]
    by_cases hu : w = u
    · subst hu
      simp [hrest]
    · simp [hu, Ne.symm hu]
  · rw [if_neg hrest, Dict.get?_set]
    by_cases hu : w = u
    · subst hu
      simp
    · simp [hu, Ne.symm hu]

theorem foldl_discardHolder_getD (c u : Client) :
    ∀ (ws : List Client) (g : Dict Client (Finset Client)),
      ((ws.foldl (discardHolder c) g).get? u).getD ∅ =
        if u ∈ ws then ((g.get? u).getD ∅).erase c else (g.get? u).getD ∅
  | [], g => by simp
  | w :: ws, g => by
    rw [List.foldl_cons, foldl_discardHolder_getD c u ws, discardHolder_getD]
    by_cases huw : u = w
    · subst huw
      simp
    · simp [huw]

theorem holdersOf_removeClient (c : Client) (d : DeadlockDetector Client) :
    (d.removeClient c).holdersOf = dropClient c d.holdersOf := by
  funext u
  show (((d.waitFor.erase c).keys.foldl (discardHolder c) (d.waitFor.erase c)).get? u).getD ∅ = _
  rw [foldl_discardHolder_getD, Dict.get?_erase, dropClient]
  by_cases hu : c = u
  · simp [hu]
  · rw [if_neg hu, if_neg (Ne.symm hu)]
    split
    · rfl
    · next hmem =>
      have hnone : d.waitFor.get? u = none := by
        rw [Dict.get?_eq_none_iff]
        exact fun hk => hmem (Dict.mem_keys_erase.mpr ⟨Ne.symm hu, hk⟩)
      simp [holdersOf, hnone]

end DeadlockDetector

/-! ## The whole state -/

/-- The table that the state stands for. -/
def view (s : LockManager Client Resource) : Table Client Resource where
  cell := fun r => (s.lockState r).cell
  waitFor := s.deadlockDetector.holdersOf

/-- Client `c` is among the holders of resource `r`. -/
def Holds (s : LockManager Client Resource) (c : Client) (r : Resource) : Prop :=
  c ∈ (s.lockState r).holders.keys

instance (s : LockManager Client Resource) (c : Client) (r : Resource) : Decidable (Holds s c r) :=
  inferInstanceAs (Decidable (c ∈ (s.lockState r).holders.keys))

/-- Client `c` has a request in the queue of resource `r`. -/
def Waits (s : LockManager Client Resource) (c : Client) (r : Resource) : Prop :=
  ∃ w ∈ (s.lockState r).waiters, w.clientId = c

instance (s : LockManager Client Resource) (c : Client) (r : Resource) : Decidable (Waits s c r) :=
  inferInstanceAs (Decidable (∃ w ∈ (s.lockState r).waiters, w.clientId = c))

omit [DecidableEq Client] [DecidableEq Resource] in
theorem LockState.holding_cell (st : LockState Client Resource) (c : Client) :
    st.cell.Holding c ↔ c ∈ st.holders.keys := by
  simp [Cell.Holding, LockState.cell]

omit [DecidableEq Client] [DecidableEq Resource] in
theorem LockState.waiting_cell (st : LockState Client Resource) (c : Client) :
    st.cell.Waiting c ↔ ∃ w ∈ st.waiters, w.clientId = c := by
  simp [Cell.Waiting, LockState.cell]

theorem holding_view (s : LockManager Client Resource) (c : Client) (r : Resource) :
    ((view s).cell r).Holding c ↔ Holds s c r :=
  LockState.holding_cell _ c

theorem get?_holders_view {s : LockManager Client Resource} {c : Client} {r : Resource}
    {h : LockHolder Client} (hget : (s.lockState r).holders.get? c = some h) :
    ((view s).cell r).holders.get? c = some h.mode := by
  show ((s.lockState r).holders.mapValues LockHolder.mode).get? c = some h.mode
  rw [Dict.get?_mapValues, hget]
  rfl

theorem waiting_view (s : LockManager Client Resource) (c : Client) (r : Resource) :
    ((view s).cell r).Waiting c ↔ Waits s c r :=
  LockState.waiting_cell _ c

/-- Every lock state stands under its own name, and the index lists what each client holds. -/
structure Indexed (s : LockManager Client Resource) : Prop where
  resource : ∀ r, (s.lockState r).resource = r
  index : ∀ r, IndexedAt s.clientLocks r (s.lockState r).holders

omit [DecidableEq Client] in
theorem lockState_of_locks_eq {s s' : LockManager Client Resource} {r : Resource}
    {st : LockState Client Resource} (h : s'.locks = s.locks.set r st) (r' : Resource) :
    s'.lockState r' = if r' = r then st else s.lockState r' := by
  unfold lockState
  rw [h, Dict.get?_set]
  by_cases hr : r = r'
  · subst hr
    simp
  · simp [hr, Ne.symm hr]

/-- A state with a new lock state for one resource: its view in every resource. -/
theorem view_cell_of_locks_eq {s s' : LockManager Client Resource} {r : Resource}
    {st : LockState Client Resource} (h : s'.locks = s.locks.set r st) (r' : Resource) :
    (view s').cell r' = if r' = r then st.cell else (view s).cell r' := by
  simp only [view, lockState_of_locks_eq h]
  split <;> rfl

/-- A new lock state for one resource, with the index brought up to date for it. -/
theorem Indexed.update {s s' : LockManager Client Resource} (h : Indexed s) {r : Resource}
    {st : LockState Client Resource} (hl : s'.locks = s.locks.set r st) (hr : st.resource = r)
    (hi : IndexedAt s'.clientLocks r st.holders)
    (ho : ∀ c r', r' ≠ r →
      (r' ∈ (s'.clientLocks.get? c).getD ∅ ↔ r' ∈ (s.clientLocks.get? c).getD ∅)) :
    Indexed s' := by
  refine ⟨fun r' => ?_, fun r' => ?_⟩
  · rw [lockState_of_locks_eq hl]
    split
    · next he => rw [hr, he]
    · exact h.resource r'
  · rw [lockState_of_locks_eq hl]
    split
    · next he => rw [he]; exact hi
    · next hne => exact fun c => (ho c r' hne).trans (h.index r' c)

/-- Granting the queue of one resource keeps the index. -/
theorem Indexed.promoteWaiters {s s₁ : LockManager Client Resource} (h : Indexed s)
    (clock : ℕ → Time) {st : LockState Client Resource} (hl : s₁.locks = s.locks)
    (hi : IndexedAt s₁.clientLocks st.resource st.holders)
    (ho : ∀ c r', r' ≠ st.resource →
      (r' ∈ (s₁.clientLocks.get? c).getD ∅ ↔ r' ∈ (s.clientLocks.get? c).getD ∅)) :
    Indexed (promoteWaiters clock st s₁) := by
  obtain ⟨hidx, hother⟩ :=
    promoteLoop_index s₁.defaultLease clock st.waiters 0 st s₁.clientLocks hi
  refine h.update ?_
    (promoteLoop_cell _ _ _ _ st _ rfl).2 hidx
    (fun c r' hr => (hother c r' hr).trans (ho c r' hr))
  rw [← hl]
  rfl

/-! ### Acquire -/

section Acquire

variable (clock : ℕ → Time) (requestId : ℕ) (c : Client) (r : Resource) (m : LockMode)
  (lease : Time) (s : LockManager Client Resource)

/-- `_do_acquire` returns whether the mode is compatible with every holder. -/
theorem doAcquire_fst : (s.doAcquire clock requestId c r m lease).1 =
    Cell.admits ((view s).cell r).holders m := by
  rw [show (view s).cell r = (s.lockState r).cell from rfl, ← LockState.admits_eq]
  unfold doAcquire
  dsimp only
  split <;> simp [*]

theorem view_doAcquire (l : Option Time) :
    view (s.doAcquire clock requestId c r m lease).2 = (view s).apply (.acquire c r m l) := by
  have hadm := LockState.admits_eq (s.lockState r) m
  unfold doAcquire
  dsimp only
  by_cases ha : (s.lockState r).admits m = true
  · rw [if_pos ha]
    rw [ha] at hadm
    -- granted: only the holders of `r` change
    ext1
    · funext r'
      rw [view_cell_of_locks_eq rfl]
      simp only [Table.apply, Table.actOn]
      split
      · next hr =>
        subst hr
        simp only [Cell.acquire, view, ← hadm, if_true]
        simp [LockState.cell]
      · rfl
    · funext u
      simp only [Table.apply, Table.graph, view, ← hadm, if_true]
      exact DeadlockDetector.holdersOf_setClientAge c u _ _
  · rw [if_neg ha]
    rw [Bool.not_eq_true] at ha
    rw [ha] at hadm
    -- refused: the request is queued, and the client gets edges to the holders
    ext1
    · funext r'
      rw [view_cell_of_locks_eq rfl]
      simp only [Table.apply, Table.actOn]
      split
      · next hr =>
        subst hr
        simp only [Cell.acquire, view, ← hadm, Bool.false_eq_true, if_false,
          LockState.waiting_cell, List.any_eq_true, decide_eq_true_eq]
        split
        · rfl
        · simp [LockState.cell]
      · rfl
    · funext u
      simp only [Table.apply, Table.graph, view, ← hadm, Bool.false_eq_true, if_false]
      rw [DeadlockDetector.holdersOf_foldl_addWait, DeadlockDetector.holdersOf_setClientAge]
      by_cases hu : u = c
      · subst hu
        simp [LockState.cell]
      · rw [if_neg hu, Function.update_of_ne hu]

theorem indexed_doAcquire {s : LockManager Client Resource} (h : Indexed s) :
    Indexed (s.doAcquire clock requestId c r m lease).2 := by
  unfold doAcquire
  dsimp only
  split
  · refine h.update rfl (h.resource r) (fun c' => ?_) (fun c' r' hr => ?_)
    · rw [mem_addLock, Dict.mem_keys_set, h.index r c']
      tauto
    · rw [mem_addLock]
      tauto
  · exact h.update rfl (h.resource r) (h.index r) (fun _ _ _ => Iff.rfl)

end Acquire

/-! ### Release -/

section Release

variable (clock : ℕ → Time) (c : Client) (r : Resource) {s : LockManager Client Resource}

omit [DecidableEq Client] in
theorem lockState_of_get? {st : LockState Client Resource} (h : s.locks.get? r = some st) :
    s.lockState r = st := by
  rw [lockState, h]
  rfl

/-- `_do_release` returns whether the client held the resource. -/
theorem doRelease_fst :
    (s.doRelease clock c r).1 = decide (((view s).cell r).Holding c) := by
  simp only [view, LockState.holding_cell]
  unfold doRelease
  cases hget : s.locks.get? r with
  | none => simp [lockState, hget]
  | some st =>
    rw [lockState_of_get? r hget]
    dsimp only
    by_cases hc : st.holders.contains c = true
    · rw [if_pos hc]
      exact (decide_eq_true (Dict.mem_keys_iff.mpr hc)).symm
    · rw [if_neg hc]
      exact (decide_eq_false fun hk => hc (Dict.mem_keys_iff.mp hk)).symm

omit [DecidableEq Client] [DecidableEq Resource] in
theorem isHeld_eq_false_iff (st : LockState Client Resource) :
    st.isHeld = false ↔ st.holders.keys = [] := by
  rw [LockState.isHeld, Dict.length_values, decide_eq_false_iff_not, Nat.not_lt,
    Nat.le_zero, List.length_eq_zero_iff]

theorem doRelease_of_not_holding (hc : c ∉ (s.lockState r).holders.keys) :
    (s.doRelease clock c r).2 = s := by
  unfold doRelease
  cases hget : s.locks.get? r with
  | none => rfl
  | some st =>
    rw [lockState_of_get? r hget] at hc
    exact congrArg Prod.snd (if_neg fun hk => hc (Dict.mem_keys_iff.mpr hk))

/-- The state after a release by a holder, before the queue is looked at. -/
def released (s : LockManager Client Resource) (c : Client) (r : Resource) :
    LockManager Client Resource :=
  let st := { s.lockState r with holders := (s.lockState r).holders.erase c }
  { s with
    clientLocks := discardLock c r s.clientLocks
    deadlockDetector :=
      if st.isHeld then s.deadlockDetector else s.deadlockDetector.removeClient c }

theorem doRelease_of_holding (hc : c ∈ (s.lockState r).holders.keys) :
    (s.doRelease clock c r).2 = promoteWaiters clock
      { s.lockState r with holders := (s.lockState r).holders.erase c } (released s c r) := by
  unfold doRelease released
  cases hget : s.locks.get? r with
  | none =>
    simp [lockState, hget] at hc
  | some st =>
    rw [lockState_of_get? r hget] at hc ⊢
    exact congrArg Prod.snd (if_pos (Dict.mem_keys_iff.mp hc))

theorem view_doRelease (h : Indexed s) :
    view (s.doRelease clock c r).2 = (view s).apply (.release c r) := by
  by_cases hc : c ∈ (s.lockState r).holders.keys
  · have hhold : ((view s).cell r).Holding c := (LockState.holding_cell _ c).mpr hc
    rw [doRelease_of_holding clock c r hc]
    ext1
    · funext r'
      rw [promoteWaiters, view_cell_of_locks_eq (s := s) rfl,
        (promoteLoop_cell _ clock _ 0 _ _ rfl).1]
      dsimp only
      rw [h.resource r]
      simp only [Table.apply, Table.actOn]
      split
      · next hr =>
        subst hr
        rw [Cell.release, if_pos hhold]
        simp [LockState.cell, view]
      · rfl
    · show DeadlockDetector.holdersOf (released s c r).deadlockDetector = _
      have hsole : ((view s).cell r).SoleHolder c ↔
          ((s.lockState r).holders.erase c).keys = [] := by
        rw [Dict.keys_erase_eq_nil_iff hc]
        simp [Cell.SoleHolder, view, LockState.cell]
      simp only [Table.apply, Table.graph, hsole, released]
      by_cases hnil : ((s.lockState r).holders.erase c).keys = []
      · rw [if_pos hnil, (isHeld_eq_false_iff _).mpr hnil]
        exact DeadlockDetector.holdersOf_removeClient c _
      · rw [if_neg hnil, if_pos]
        · rfl
        · rw [← Bool.not_eq_false, isHeld_eq_false_iff]
          exact hnil
  · have hhold : ¬ ((view s).cell r).Holding c := fun hk => hc ((LockState.holding_cell _ c).mp hk)
    rw [doRelease_of_not_holding clock c r hc, Table.apply_release_of_not_holding hhold]

theorem indexed_doRelease (h : Indexed s) : Indexed (s.doRelease clock c r).2 := by
  by_cases hc : c ∈ (s.lockState r).holders.keys
  · rw [doRelease_of_holding clock c r hc]
    have hres := h.resource r
    refine h.promoteWaiters clock rfl (fun c' => ?_) (fun c' r' hr => ?_)
    · rw [hres]
      simp only [released]
      rw [mem_discardLock, Dict.mem_keys_erase, h.index r c']
      tauto
    · rw [hres] at hr
      simp only [released]
      rw [mem_discardLock]
      tauto
  · rw [doRelease_of_not_holding clock c r hc]
    exact h

end Release

/-! ### Release of everything -/

section ReleaseAll

variable (clock : ℕ → ℕ → Time) (c : Client)

/-- The loop of `_do_release_all` over some resources. What it does to the graph is undone by the
final `remove_client`. -/
theorem releaseEach_spec : ∀ (rs : List Resource) (i count : ℕ) (s : LockManager Client Resource),
    Indexed s → rs.Nodup → Indexed (releaseEach clock c i rs count s).2 ∧
      (∀ r, (view (releaseEach clock c i rs count s).2).cell r =
        if r ∈ rs then ((view s).cell r).release c else (view s).cell r) ∧
      dropClient c (view (releaseEach clock c i rs count s).2).waitFor =
        dropClient c (view s).waitFor
  | [], _, _, s, h, _ => ⟨h, fun r => by simp [releaseEach], rfl⟩
  | r :: rs, i, count, s, h, hn => by
    obtain ⟨hr, hn'⟩ := List.nodup_cons.mp hn
    have hview := view_doRelease (clock i) c r h
    rw [releaseEach]
    generalize hs₁ : s.doRelease (clock i) c r = p
    rw [hs₁] at hview
    have hind : Indexed p.2 := hs₁ ▸ indexed_doRelease (clock i) c r h
    obtain ⟨hidx, hcell, hgraph⟩ :=
      releaseEach_spec rs (i + 1) (if p.1 then count + 1 else count) p.2 hind hn'
    refine ⟨hidx, fun r' => ?_, hgraph.trans ?_⟩
    · rw [hcell r', hview]
      simp only [Table.apply, Table.actOn]
      by_cases hrr : r' = r
      · subst hrr
        simp [hr]
      · simp [hrr]
    · rw [hview]
      simp only [Table.apply, Table.graph]
      split
      · exact dropClient_dropClient c _
      · rfl

variable {c} {s : LockManager Client Resource} {order : List Resource}

theorem view_doReleaseAll (h : Indexed s) (hn : order.Nodup) (ho : order.toFinset = s.locksOf c) :
    view (s.doReleaseAll clock order c).2 = (view s).apply (.releaseAll c) := by
  obtain ⟨-, hcell, hgraph⟩ := releaseEach_spec clock c order 0 0 s h hn
  ext1
  · funext r
    refine (hcell r).trans ?_
    split
    · rfl
    · next hr =>
      -- a resource that is not in the index is not held
      have hnot : ¬ ((view s).cell r).Holding c := by
        rw [view, LockState.holding_cell, ← h.index r c]
        rw [← List.mem_toFinset, ho] at hr
        exact hr
      exact (if_neg hnot).symm
  · exact (DeadlockDetector.holdersOf_removeClient c _).trans hgraph

theorem indexed_doReleaseAll (h : Indexed s) (hn : order.Nodup) :
    Indexed (s.doReleaseAll clock order c).2 := by
  obtain ⟨hidx, -, -⟩ := releaseEach_spec clock c order 0 0 s h hn
  exact ⟨hidx.resource, hidx.index⟩

end ReleaseAll

/-! ### Commands -/

section Commands

variable {s s' : LockManager Client Resource} {cmd : Command Client Resource} {env : Env Resource}

/-- A command does to the view what it does to the table. -/
theorem view_applyCommand (h : Indexed s) (hok : env.ok s cmd = true) :
    view (s.applyCommand env cmd).2 = (view s).apply cmd := by
  cases cmd with
  | acquire c r m lease => exact view_doAcquire (env.clock 0) env.requestId c r m _ s lease
  | release c r => exact view_doRelease (env.clock 0) c r h
  | releaseAll c =>
    obtain ⟨hn, ho⟩ := Bool.and_eq_true_iff.mp hok
    exact view_doReleaseAll env.clock h (of_decide_eq_true hn) (of_decide_eq_true ho)
  | abort c =>
    obtain ⟨hn, ho⟩ := Bool.and_eq_true_iff.mp hok
    exact view_doReleaseAll env.clock h (of_decide_eq_true hn) (of_decide_eq_true ho)

theorem indexed_applyCommand (h : Indexed s) (hok : env.ok s cmd = true) :
    Indexed (s.applyCommand env cmd).2 := by
  cases cmd with
  | acquire c r m lease => exact indexed_doAcquire (env.clock 0) env.requestId c r m _ h
  | release c r => exact indexed_doRelease (env.clock 0) c r h
  | releaseAll c =>
    exact indexed_doReleaseAll env.clock h (of_decide_eq_true (Bool.and_eq_true_iff.mp hok).1)
  | abort c =>
    exact indexed_doReleaseAll env.clock h (of_decide_eq_true (Bool.and_eq_true_iff.mp hok).1)

theorem step_eq_some {e : Applied Client Resource} (hs : step s e = some s') :
    e.2.ok s e.1 = true ∧ s' = (s.applyCommand e.2 e.1).2 := by
  unfold step at hs
  split at hs
  · next hok => exact ⟨hok, (Option.some.inj hs).symm⟩
  · cases hs

theorem view_step {e : Applied Client Resource} (h : Indexed s) (hs : step s e = some s') :
    view s' = (view s).apply e.1 := by
  obtain ⟨hok, rfl⟩ := step_eq_some hs
  exact view_applyCommand h hok

theorem indexed_step {e : Applied Client Resource} (h : Indexed s) (hs : step s e = some s') :
    Indexed s' := by
  obtain ⟨hok, rfl⟩ := step_eq_some hs
  exact indexed_applyCommand h hok

end Commands

/-- **The lock manager refines the lock table.** -/
theorem view_refines : Refinement
    (step : LockManager Client Resource → Applied Client Resource → Option _)
    (Table.step : Table Client Resource → Command Client Resource → Option _) Indexed view := by
  constructor
  · intro s e s' h hs
    exact indexed_step h hs
  · intro s e s' h hs
    right
    exact ⟨e.1, congrArg some (view_step h hs).symm⟩

/-! ## Runs -/

section Runs

variable {defaultLease : Time}

theorem indexed_initial (lease : Time) :
    Indexed ({ defaultLease := lease } : LockManager Client Resource) :=
  ⟨fun _ => rfl, fun r c => by simp [lockState]⟩

theorem tableOk_initial (lease : Time) :
    (view ({ defaultLease := lease } : LockManager Client Resource)).Ok :=
  fun _ => Cell.ok_empty

variable (run : CommandRun Client Resource defaultLease)

theorem indexed : ∀ i ≤ run.length, Indexed (run.state i) :=
  view_refines.inv run (indexed_initial defaultLease)

/-- **Every resource keeps its invariant throughout a run.** -/
theorem cellOk {i : ℕ} (hi : i ≤ run.length) (r : Resource) : ((view (run.state i)).cell r).Ok :=
  view_refines.invariant run (indexed_initial defaultLease) (tableOk_initial defaultLease)
    (fun _ _ _ h hs => Table.Ok.step h hs) i hi r

/-- A run of the lock manager is a run of the table. -/
theorem view_succ {i : ℕ} (hi : i < run.length) :
    view (run.state (i + 1)) = (view (run.state i)).apply (run.event i).1 :=
  view_step (indexed run i hi.le) (run.state_succ i hi)

theorem cell_succ {i : ℕ} (hi : i < run.length) (r : Resource) :
    (view (run.state (i + 1))).cell r =
      Table.actOn r (run.event i).1 ((view (run.state i)).cell r) := by
  rw [view_succ run hi]
  rfl

end Runs

end Locks
