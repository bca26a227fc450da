import Terdistribusi.Locks.Properties.Safety

/-!
# The head of the queue is blocked by somebody else

After every command the request at the head of a queue cannot be granted (`Cell.Ok.blocked`). That
does not say by whom: a client may be blocked by its own lock, and then nothing wakes it.
`head_blocked_by_other` says exactly when this happens in a run: when the only holder of a resource
with an empty queue is refused, or when a release leaves the client at the head of the queue as the
only holder.
-/

namespace Locks

open Infra LockManager

variable {Client Resource : Type} [DecidableEq Client] [DecidableEq Resource]

/-! ## One resource -/

namespace Cell

/-- The head of the queue is incompatible with a holder other than its own client. -/
def HeadBlocked (k : Cell Client) : Prop :=
  ∀ x ∈ k.queue.head?, ∃ c m, k.holders.get? c = some m ∧ c ≠ x.1 ∧ compatible x.2 m = false

/-- A refused request is incompatible with some holder. -/
theorem exists_incompatible {hs : Dict Client LockMode} {m : LockMode} (h : admits hs m = false) :
    ∃ c v, hs.get? c = some v ∧ compatible m v = false := by
  obtain ⟨v, hv, hm⟩ := List.all_eq_false.mp h
  obtain ⟨c, hc⟩ := Dict.mem_values_iff.mp hv
  exact ⟨c, v, hc, by simpa using hm⟩

/-- Granting a queue of clients that are not holders leaves a head that is blocked by another
client. -/
theorem headBlocked_promote : ∀ (q : List (Client × LockMode)) (hs : Dict Client LockMode),
    (q.map Prod.fst).Nodup → (∀ c ∈ q.map Prod.fst, c ∉ hs.keys) → (promote q hs).HeadBlocked
  | [], _, _, _ => by simp [promote, HeadBlocked]
  | x :: q, hs, hn, hd => by
    rw [promote]
    split
    · obtain ⟨hx, hn'⟩ := List.nodup_cons.mp hn
      refine headBlocked_promote q _ hn' fun c hc hk => ?_
      rcases Dict.mem_keys_set.mp hk with rfl | hk
      · exact hx hc
      · exact hd c (List.mem_cons_of_mem _ hc) hk
    · next ha =>
      intro y hy
      obtain rfl : x = y := by simpa using hy
      obtain ⟨c, v, hget, hinc⟩ := exists_incompatible (Bool.eq_false_iff.mpr ha)
      refine ⟨c, v, hget, ?_, hinc⟩
      rintro rfl
      exact hd x.1 List.mem_cons_self (Dict.mem_keys_of_get? hget)

/-- With an `acquire` the head stays blocked by another client, unless the only holder queues
behind itself. -/
theorem headBlocked_acquire {k : Cell Client} (hok : k.Ok) (h : k.HeadBlocked) (c : Client)
    (m : LockMode) : (k.acquire c m).HeadBlocked ↔
      ¬ (k.queue = [] ∧ k.SoleHolder c ∧ admits k.holders m = false) := by
  unfold acquire
  by_cases ha : admits k.holders m = true
  · rw [if_pos ha]
    refine iff_of_true (fun x hx => ?_) (by simp [ha])
    obtain ⟨d, v, hget, hne, hinc⟩ := h x hx
    by_cases hdc : c = d
    · -- the blocking holder renews its shared lock
      subst hdc
      obtain ⟨hm, hv⟩ := admits_eq_true.mp ha v (Dict.mem_values_of_get? hget)
      exact ⟨c, m, Dict.get?_set_self _ c m, hne, by rw [hm, ← hv]; exact hinc⟩
    · exact ⟨d, v, by rw [Dict.get?_set_ne _ _ hdc]; exact hget, hne, hinc⟩
  · rw [if_neg ha]
    rw [Bool.not_eq_true] at ha
    by_cases hw : k.Waiting c
    · rw [if_pos hw]
      -- the client waits already and is not queued twice
      refine iff_of_true h fun hbad => ?_
      unfold Waiting at hw
      rw [hbad.1] at hw
      cases hw
    · rw [if_neg hw]
      cases hq : k.queue with
      | cons y q =>
        -- the request goes behind the old head of the queue
        refine iff_of_true (fun x hx => h x ?_) (by simp)
        rw [hq]
        exact hx
      | nil =>
        -- the request is the new head, and waits for a holder other than its own client
        simp only [ha, and_true, true_and]
        obtain ⟨d, v, hget, hinc⟩ := exists_incompatible ha
        constructor
        · intro hb hsole
          obtain ⟨e, w, hget', hne, -⟩ := hb (c, m) rfl
          have hmem := Dict.mem_keys_of_get? hget'
          unfold SoleHolder at hsole
          rw [hsole, List.mem_singleton] at hmem
          exact hne hmem
        · intro hsole x hx
          obtain rfl : (c, m) = x := by simpa using hx
          by_cases hdc : d = c
          · -- another holder: then all are shared, and the request is exclusive
            subst hdc
            obtain ⟨e, he, hed⟩ := Dict.exists_mem_keys_ne (Dict.mem_keys_of_get? hget) hsole
            have hsh := hok.shared he (Dict.mem_keys_of_get? hget) hed
            obtain ⟨w, hw'⟩ := Dict.exists_get?_of_mem_keys he
            have hv := hsh v (Dict.mem_values_of_get? hget)
            have hw'' := hsh w (Dict.mem_values_of_get? hw')
            exact ⟨e, w, hw', hed, by rw [hw'', ← hv]; exact hinc⟩
          · exact ⟨d, v, hget, hdc, hinc⟩

/-- With a `release` the head stays blocked by another client, unless its own client is left as the
only holder. -/
theorem headBlocked_release {k : Cell Client} (hok : k.Ok) (h : k.HeadBlocked) (c : Client) :
    (k.release c).HeadBlocked ↔
      ¬ (k.Holding c ∧ ∃ x ∈ k.queue.head?, (k.holders.erase c).keys = [x.1]) := by
  unfold release
  by_cases hc : k.Holding c
  · rw [if_pos hc]
    simp only [hc, true_and]
    by_cases hnil : (k.holders.erase c).keys = []
    · -- the resource is free: only clients of the queue become holders
      refine iff_of_true (headBlocked_promote k.queue _ hok.distinct fun d _ hd => ?_)
        (by simp [hnil])
      rw [hnil] at hd
      cases hd
    · -- shared holders are left, so nothing is granted and the head is exclusive
      obtain ⟨d, hd⟩ := List.exists_mem_of_ne_nil _ hnil
      obtain ⟨hdc, hdk⟩ := Dict.mem_keys_erase.mp hd
      have hrel := hok.release_of_shared hc hd
      rw [release, if_pos hc] at hrel
      rw [hrel]
      have hx2 : ∀ x ∈ k.queue.head?, x.2 = .exclusive := fun x hx =>
        hok.head_exclusive (hok.shared hc hdk (Ne.symm hdc)) hx
      constructor
      · rintro hb ⟨x, hx, hkeys⟩
        obtain ⟨e, v, hget, hne, -⟩ := hb x hx
        exact hne ((Dict.keys_eq_singleton_iff.mp hkeys).2 e (Dict.mem_keys_of_get? hget))
      · intro hno x hx
        obtain ⟨e, he, hne⟩ := Dict.exists_mem_keys_ne hd fun hkeys => hno ⟨x, hx, hkeys⟩
        obtain ⟨v, hv⟩ := Dict.exists_get?_of_mem_keys he
        exact ⟨e, v, hv, hne, by simp [compatible, hx2 x hx]⟩
  · rw [if_neg hc]
    exact iff_of_true h (by simp [hc])

end Cell

/-! ## The whole table -/

/-- A release by `c` leaves the client at the head of the queue as the only holder. -/
def leavesHeadAlone (st : LockState Client Resource) (c : Client) : Bool :=
  match st.waiters with
  | [] => false
  | req :: _ => st.holders.contains c && (st.holders.erase c).keys = [req.clientId]

/-- The command makes a client wait for its own lock alone: it is the only holder and is refused
with an empty queue, or a release leaves it alone with its request at the head. -/
def selfBlocks (s : LockManager Client Resource) : Command Client Resource → Bool
  | .acquire c r m _ =>
    (s.lockState r).waiters.isEmpty && (s.lockState r).holders.keys = [c] &&
      !(s.lockState r).admits m
  | .release c r => leavesHeadAlone (s.lockState r) c
  | .releaseAll c | .abort c => s.locks.keys.any fun r => leavesHeadAlone (s.lockState r) c

/-- At every resource with a waiter, the first request is incompatible with the lock of a holder
other than the requesting client. -/
def HeadsBlockedByOthers (s : LockManager Client Resource) : Prop :=
  ∀ r req, req ∈ (s.lockState r).waiters.head? → ∃ c h,
    (s.lockState r).holders.get? c = some h ∧ c ≠ req.clientId ∧
      ¬ (req.mode = .shared ∧ h.mode = .shared)

theorem headsBlockedByOthers_iff (s : LockManager Client Resource) :
    HeadsBlockedByOthers s ↔ ∀ r, ((view s).cell r).HeadBlocked := by
  refine forall_congr' fun r => ?_
  simp only [Cell.HeadBlocked, view, LockState.cell]
  cases (s.lockState r).waiters with
  | nil => simp
  | cons w ws =>
    simp only [List.head?_cons, List.map_cons, Option.mem_some_iff, forall_eq']
    simp [compatible, imp_iff_not_or]

omit [DecidableEq Resource] in
theorem leavesHeadAlone_iff (st : LockState Client Resource) (c : Client) :
    leavesHeadAlone st c = true ↔ st.cell.Holding c ∧
      ∃ x ∈ st.cell.queue.head?, (st.cell.holders.erase c).keys = [x.1] := by
  have herase : (st.cell.holders.erase c).keys = (st.holders.erase c).keys := by
    rw [LockState.cell, ← Dict.mapValues_erase, Dict.keys_mapValues]
  rw [LockState.holding_cell, herase, leavesHeadAlone, LockState.cell]
  cases st.waiters with
  | nil => simp
  | cons w ws => simp [Dict.contains, Dict.mem_keys_iff]

omit [DecidableEq Client] in
/-- Where one resource changes, a property of all of them rests on that one. -/
theorem forall_changed_iff {P : Cell Client → Prop} {k : Resource → Cell Client} (h : ∀ r, P (k r))
    (f : Cell Client → Cell Client) (r : Resource) :
    (∀ r', P (if r' = r then f (k r') else k r')) ↔ P (f (k r)) := by
  constructor
  · intro hall
    simpa using hall r
  · intro hr r'
    split
    · next he =>
      rw [he]
      exact hr
    · exact h r'

/-- From a state in which every head is blocked by another client, a command leads to such a state
exactly when it does not make a client wait for itself. -/
theorem headBlocked_actOn {s : LockManager Client Resource} {cmd : Command Client Resource}
    (hok : ∀ r, ((view s).cell r).Ok) (h : ∀ r, ((view s).cell r).HeadBlocked) :
    (∀ r, (Table.actOn r cmd ((view s).cell r)).HeadBlocked) ↔ selfBlocks s cmd = false := by
  have hall : ∀ c, (∀ r, (((view s).cell r).release c).HeadBlocked) ↔
      (s.locks.keys.any fun r => leavesHeadAlone (s.lockState r) c) = false := by
    intro c
    rw [List.any_eq_false]
    constructor
    · intro hb r _
      rw [leavesHeadAlone_iff]
      exact (Cell.headBlocked_release (hok r) (h r) c).mp (hb r)
    · intro hno r
      rw [Cell.headBlocked_release (hok r) (h r) c]
      by_cases hr : r ∈ s.locks.keys
      · have := hno r hr
        rwa [leavesHeadAlone_iff] at this
      · -- nobody holds a resource that has no lock state
        rintro ⟨hc, -⟩
        have hnone : s.locks.get? r = none := Dict.get?_eq_none_iff.mpr hr
        rw [holding_view, Holds, lockState, hnone] at hc
        cases hc
  cases cmd with
  | acquire c r m lease =>
    refine (forall_changed_iff h (Cell.acquire c m) r).trans ?_
    rw [Cell.headBlocked_acquire (hok r) (h r)]
    simp [selfBlocks, LockState.admits_eq, view, LockState.cell, Cell.SoleHolder]
  | release c r =>
    refine (forall_changed_iff h (Cell.release c) r).trans ?_
    rw [Cell.headBlocked_release (hok r) (h r), selfBlocks, ← Bool.not_eq_true,
      leavesHeadAlone_iff]
    rfl
  | releaseAll c => exact hall c
  | abort c => exact hall c

/-- **No waiter is blocked by itself alone**: every head of a queue is blocked by another client, in
all states of a run, exactly when no command of the run makes a client wait for itself. -/
theorem head_blocked_by_other {defaultLease : Time}
    (run : CommandRun Client Resource defaultLease) :
    (∀ i ≤ run.length, HeadsBlockedByOthers (run.state i)) ↔
      ∀ i < run.length, selfBlocks (run.state i) (run.event i).1 = false := by
  refine run.always_iff (G := fun s e => selfBlocks s e.1 = false) ?_ (fun i hi h => ?_)
  · intro r req hreq
    cases hreq
  · rw [headsBlockedByOthers_iff] at h ⊢
    rw [← headBlocked_actOn (fun r => cellOk run hi.le r) h]
    exact forall_congr' fun r => by rw [cell_succ run hi r]

/-! ## A client that waits for itself -/

/-- Clients 1 and 2 share resource 0, client 1 asks for it exclusively, and client 2 releases it. -/
def upgradeEvents : List (Applied ℕ ℕ) :=
  [plain (.acquire 1 0 .shared none), plain (.acquire 2 0 .shared none),
    plain (.acquire 1 0 .exclusive none), plain (.release 2 0)]

def upgrade : CommandRun ℕ ℕ 30 :=
  Run.ofEvents _ _ upgradeEvents (plain (.releaseAll 0)) (by decide +kernel)

/-- Client 1 is the only holder and the only waiter. -/
theorem upgrade_not_blocked_by_other : ¬ HeadsBlockedByOthers (upgrade.state 4) := by
  intro h
  have hhead : ((upgrade.state 4).lockState 0).waiters.head?.isSome := by decide +kernel
  obtain ⟨req, hreq⟩ := Option.isSome_iff_exists.mp hhead
  obtain ⟨c, ho, hget, hne, -⟩ := h 0 req hreq
  have hkeys : ((upgrade.state 4).lockState 0).holders.keys = [1] := by decide +kernel
  have hreq1 : ((upgrade.state 4).lockState 0).waiters.head?.map LockRequest.clientId = some 1 := by
    decide +kernel
  have hmem := Dict.mem_keys_of_get? hget
  rw [hkeys, List.mem_singleton] at hmem
  rw [show ((upgrade.state 4).lockState 0).waiters.head? = some req from hreq] at hreq1
  exact hne (hmem.trans (Option.some.inj hreq1).symm)

end Locks
