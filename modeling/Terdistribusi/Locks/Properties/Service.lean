import Terdistribusi.Locks.Cluster
import Terdistribusi.Locks.Properties.Replicas
import Terdistribusi.Raft.Properties.Linearizable
import Mathlib.Data.Set.Card

/-!
# The lock service is one lock table

A cluster of lock managers behaves like one table without clocks, leases and nodes
(`lock_service_one_table`):

* `lockCallback_eq` — what `_apply_command` returns is what the table replies, whatever the node
  reads
* `view_lockTable` — the table of a node is what a front part of the commands makes of the empty one
* `exists_release` — between two grants of one resource that exclude each other the first client was
  released
-/

namespace Locks

open Infra LockManager

section

variable {Client Resource : Type} [DecidableEq Client] [DecidableEq Resource]

/-! ## The table after a sequence of commands -/

namespace Table

/-- Nobody holds or waits for anything. -/
def empty : Table Client Resource where
  cell := fun _ => {}
  waitFor := fun _ => ∅

def after (cmds : List (Command Client Resource)) : Table Client Resource :=
  cmds.foldl (fun t cmd => t.apply cmd) empty

theorem after_concat (cmds : List (Command Client Resource)) (cmd : Command Client Resource) :
    after (cmds ++ [cmd]) = (after cmds).apply cmd := by
  simp [after]

/-- What the table replies to a command: whether it grants, whether it releases, and how many
resources it frees. -/
noncomputable def reply (t : Table Client Resource) : Command Client Resource → Reply
  | .acquire _ r m _ => .flag (Cell.admits (t.cell r).holders m)
  | .release c r => .flag (decide ((t.cell r).Holding c))
  | .releaseAll c | .abort c => .count (Set.ncard { r | (t.cell r).Holding c })

end Table

/-! ## What the nodes apply -/

variable (rd : Readings Client Resource) (defaultLease : Time)

theorem tableOf_concat (cmds : List (Command Client Resource)) (cmd : Command Client Resource) :
    tableOf rd defaultLease (cmds ++ [cmd]) = ((tableOf rd defaultLease cmds).applyCommand
      (rd.env cmds.length (tableOf rd defaultLease cmds) cmd) cmd).2 := by
  simp [tableOf, List.zipIdx_append]

/-- The node's table is well indexed and shows the table after the commands. -/
theorem view_tableOf (cmds : List (Command Client Resource)) :
    Indexed (tableOf rd defaultLease cmds) ∧
      view (tableOf rd defaultLease cmds) = Table.after cmds := by
  induction cmds using List.reverseRecOn with
  | nil => exact ⟨indexed_initial defaultLease, rfl⟩
  | append_singleton cmds cmd ih =>
    obtain ⟨hidx, hview⟩ := ih
    have hok := rd.ok cmds.length (tableOf rd defaultLease cmds) cmd
    rw [tableOf_concat, Table.after_concat, ← hview]
    exact ⟨indexed_applyCommand hidx hok, view_applyCommand hidx hok⟩

theorem card_locksOf {s : LockManager Client Resource} (h : Indexed s) (c : Client) :
    (s.locksOf c).card = Set.ncard { r | ((view s).cell r).Holding c } := by
  rw [← Set.ncard_coe_finset]
  congr 1
  ext r
  rw [Finset.mem_coe, Set.mem_ofPred_eq, holding_view]
  exact h.index r c

/-- **What a node returns is the table's reply.** -/
theorem lockCallback_eq : lockCallback rd defaultLease =
    fun done cmd => some ((Table.after done).reply cmd) := by
  funext done cmd
  obtain ⟨hidx, hview⟩ := view_tableOf rd defaultLease done
  have hok := rd.ok done.length (tableOf rd defaultLease done) cmd
  rw [← hview]
  refine congrArg some ?_
  cases cmd with
  | acquire c r m lease =>
    show Reply.flag _ = Reply.flag _
    rw [doAcquire_fst]
  | release c r =>
    show Reply.flag _ = Reply.flag _
    rw [doRelease_fst]
  | releaseAll c =>
    obtain ⟨hn, ho⟩ := Bool.and_eq_true_iff.mp hok
    show Reply.count _ = Reply.count _
    rw [doReleaseAll_fst hidx _ (of_decide_eq_true hn) (of_decide_eq_true ho), card_locksOf hidx]
  | abort c =>
    obtain ⟨hn, ho⟩ := Bool.and_eq_true_iff.mp hok
    show Reply.count _ = Reply.count _
    rw [doReleaseAll_fst hidx _ (of_decide_eq_true hn) (of_decide_eq_true ho), card_locksOf hidx]

/-! ## Grants last until they are released -/

namespace Cell

variable {c : Client} {m : LockMode}

/-- A grant to someone else, or a second one to the same client, leaves a holder its mode. -/
theorem get?_set_of_admits {hs : Dict Client LockMode} (h : hs.get? c = some m) {c' : Client}
    {m' : LockMode} (ha : admits hs m' = true) : (hs.set c' m').get? c = some m := by
  rw [Dict.get?_set]
  split
  · obtain ⟨rfl, rfl⟩ := admits_eq_true.mp ha m (Dict.mem_values_of_get? h)
    rfl
  · exact h

theorem get?_promote : ∀ (q : List (Client × LockMode)) {hs : Dict Client LockMode},
    hs.get? c = some m → (promote q hs).holders.get? c = some m
  | [], _, h => h
  | x :: q, hs, h => by
    rw [promote]
    split
    · next ha => exact get?_promote q (get?_set_of_admits h ha)
    · exact h

theorem get?_release_of_ne {k : Cell Client} {c' : Client} (hne : c' ≠ c)
    (h : k.holders.get? c = some m) : (k.release c').holders.get? c = some m := by
  unfold release
  split
  · refine get?_promote _ ?_
    rw [Dict.get?_erase, if_neg hne]
    exact h
  · exact h

/-- A holder keeps its lock and its mode until a command releases it. -/
theorem get?_actOn {k : Cell Client} {r : Resource} {cmd : Command Client Resource}
    (hno : cmd.releases c r = false) (h : k.holders.get? c = some m) :
    (Table.actOn r cmd k).holders.get? c = some m := by
  cases cmd with
  | acquire c' r' m' lease =>
    simp only [Table.actOn]
    split
    · unfold acquire
      split
      · next ha => exact get?_set_of_admits h ha
      · split <;> exact h
    · exact h
  | release c' r' =>
    simp only [Table.actOn]
    simp only [Command.releases, Bool.and_eq_false_iff, decide_eq_false_iff_not] at hno
    split
    · next hr => exact get?_release_of_ne (hno.resolve_right fun hrr => hrr hr.symm) h
    · exact h
  | releaseAll c' =>
    simp only [Command.releases, decide_eq_false_iff_not] at hno
    exact get?_release_of_ne hno h
  | abort c' =>
    simp only [Command.releases, decide_eq_false_iff_not] at hno
    exact get?_release_of_ne hno h

end Cell

theorem Table.get?_after {c : Client} {m : LockMode} {r : Resource}
    {cmds : List (Command Client Resource)}
    (h : ((after cmds).cell r).holders.get? c = some m) : ∀ {more : List (Command Client Resource)},
    (∀ cmd ∈ more, cmd.releases c r = false) →
      ((after (cmds ++ more)).cell r).holders.get? c = some m := by
  intro more
  induction more using List.reverseRecOn with
  | nil =>
    intro _
    rw [List.append_nil]
    exact h
  | append_singleton more cmd ih =>
    intro hno
    rw [← List.append_assoc, Table.after_concat]
    exact Cell.get?_actOn (hno cmd (by simp)) (ih fun x hx => hno x (by simp [hx]))

/-- **Two grants that exclude each other have a release of the first client between them.** -/
theorem exists_release {hist : List (Command Client Resource)} {i j : ℕ} (hij : i < j)
    {c c' : Client} {r : Resource} {m m' : LockMode} {lease lease' : Option Time}
    (hi : hist[i]? = some (.acquire c r m lease)) (hj : hist[j]? = some (.acquire c' r m' lease'))
    (hgi : (Table.after (hist.take i)).reply (.acquire c r m lease) = .flag true)
    (hgj : (Table.after (hist.take j)).reply (.acquire c' r m' lease') = .flag true)
    (hex : compatible m m' = false) :
    ∃ k cmd, i < k ∧ k < j ∧ hist[k]? = some cmd ∧ cmd.releases c r = true := by
  by_contra hno
  have hgi' : Cell.admits ((Table.after (hist.take i)).cell r).holders m = true :=
    Reply.flag.inj hgi
  have hgj' : Cell.admits ((Table.after (hist.take j)).cell r).holders m' = true :=
    Reply.flag.inj hgj
  have hgranted : ((Table.after (hist.take (i + 1))).cell r).holders.get? c = some m := by
    obtain ⟨hlt, hget⟩ := List.getElem?_eq_some_iff.mp hi
    rw [← List.take_concat_get' hist i hlt, hget, Table.after_concat]
    simp [Table.apply, Table.actOn, Cell.acquire, hgi']
  have hsplit : hist.take j = hist.take (i + 1) ++ (hist.take j).drop (i + 1) := by
    have h := List.take_append_drop (i + 1) (hist.take j)
    rw [List.take_take, min_eq_left (by omega)] at h
    exact h.symm
  have hstill : ((Table.after (hist.take j)).cell r).holders.get? c = some m := by
    rw [hsplit]
    refine Table.get?_after hgranted fun cmd hcmd => ?_
    obtain ⟨k, hk⟩ := List.getElem?_of_mem hcmd
    rw [List.getElem?_drop] at hk
    have hkj : i + 1 + k < j := by
      have := (List.getElem?_eq_some_iff.mp hk).1
      rw [List.length_take] at this
      omega
    rw [List.getElem?_take_of_lt hkj] at hk
    by_contra hrel
    exact hno ⟨i + 1 + k, cmd, by omega, hkj, hk, by simpa using hrel⟩
  obtain ⟨rfl, rfl⟩ := Cell.admits_eq_true.mp hgj' m (Dict.mem_values_of_get? hstill)
  simp [compatible] at hex

/-! ## The service -/

variable {NodeId : Type} [DecidableEq NodeId]
  {ms : Raft.Members NodeId (Command Client Resource) Reply}
  {rd : NodeId → Readings Client Resource} {defaultLease : NodeId → Time}

/-- The reply of the table as the callback of a state machine. -/
noncomputable def tableReply (done : List (Command Client Resource))
    (cmd : Command Client Resource) : Option Reply :=
  some ((Table.after done).reply cmd)

omit [DecidableEq NodeId] in
theorem view_lockTable (s : Raft.Cluster NodeId (Command Client Resource) Reply) (a : NodeId) :
    view (lockTable rd defaultLease s a) = Table.after (Raft.commands (s.nodes a).applied) :=
  (view_tableOf (rd a) (defaultLease a) _).2

variable [Fintype NodeId]

/-- **The lock service is one lock table.** Where neither commit rule goes wrong and no pending call
is cut off, one sequence of commands explains every result that a node has returned, as replies of
one table; every node shows at any time what a front part of the sequence makes of the empty table;
and between two grants that exclude each other there is a command that releases the first one. -/
theorem lock_service_one_table (r : Raft.ClusterRun (lockManagers ms rd defaultLease))
    (hs : ∀ i < r.length, Raft.atDelivery Raft.staleAck (r.state i) (r.event i) = false)
    (hu : ∀ i < r.length, Raft.atDelivery Raft.unverifiedCommit (r.state i) (r.event i) = false)
    (ho : ∀ i < r.length, Raft.atDelivery Raft.orphansCall (r.state i) (r.event i) = false) :
    ∃ hist : List (Command Client Resource),
      Linearization tableReply (Raft.record r) hist (Raft.place r) ∧
      (∀ i ≤ r.length, ∀ a, ∃ done, done <+: hist ∧
        view (lockTable rd defaultLease (r.state i) a) = Table.after done) ∧
      ∀ o p c c' x m m' lease lease',
        (Raft.record r).returned o (.acquire c x m lease) (some (.flag true)) →
        (Raft.record r).returned p (.acquire c' x m' lease') (some (.flag true)) →
        compatible m m' = false → Raft.place r o < Raft.place r p →
        ∃ k cmd, Raft.place r o < k ∧ k < Raft.place r p ∧ hist[k]? = some cmd ∧
          cmd.releases c x = true := by
  obtain ⟨hist, hlin, happ, -⟩ := Raft.submit_linearizable hs hu
    (fun a => lockCallback_eq (rd a) (defaultLease a)) ho
  refine ⟨hist, hlin, fun i hi a => ⟨_, happ i hi a, view_lockTable _ a⟩, ?_⟩
  intro o p c c' x m m' lease lease' hret hret' hex hlt
  exact exists_release hlt (hlin.place o _ _ hret) (hlin.place p _ _ hret')
    (Option.some.inj (hlin.result o _ _ hret)).symm
    (Option.some.inj (hlin.result p _ _ hret')).symm hex

end

/-- The readings of a node with the clock `now`, which goes through a set in ascending order. -/
def ascending (now : Time) : Readings (Fin 3) (Fin 3) where
  env := fun k s cmd =>
    { clock := fun _ _ => now + k
      requestId := k
      order := match cmd with
        | .releaseAll client | .abort client =>
          (List.finRange 3).filter fun x => x ∈ s.locksOf client
        | _ => [] }
  ok := fun k s cmd => by
    cases cmd with
    | acquire | release => rfl
    | releaseAll client | abort client =>
      refine Bool.and_eq_true_iff.mpr ⟨decide_eq_true ?_, decide_eq_true ?_⟩
      · exact List.Nodup.filter _ (List.nodup_finRange 3)
      · ext x
        simp

/-- Three lock managers with different clocks and leases. Client 0 takes a resource, gives it back,
and client 1 gets it. -/
def handedOver : Raft.ClusterRun (lockManagers (Raft.inProcessCluster 3 fun _ _ _ => none)
    (fun a => ascending a.val) (fun a => 30 + a.val)) :=
  Run.ofEvents _ _ [.tick 0 true, .deliver 0, .deliver 1,
    .submit 0 (.acquire 0 1 .exclusive none), .deliver 3, .deliver 4,
    .submit 0 (.releaseAll 0), .deliver 4, .deliver 5,
    .submit 0 (.acquire 1 1 .exclusive none), .deliver 5, .deliver 6] (.tick 0 false)
    (by decide +kernel)

/-- Client 1 gets the resource that client 0 has given back. -/
theorem lock_service_one_table_handedOver :
    ∃ hist : List (Command (Fin 3) (Fin 3)),
      Linearization tableReply (Raft.record handedOver) hist (Raft.place handedOver) ∧
      (∀ i ≤ handedOver.length, ∀ a, ∃ done, done <+: hist ∧
        view (lockTable (fun a => ascending (a : Fin 3).val) (fun a => 30 + a.val)
          (handedOver.state i) a) = Table.after done) ∧
      ∀ o p c c' x m m' lease lease',
        (Raft.record handedOver).returned o (.acquire c x m lease) (some (.flag true)) →
        (Raft.record handedOver).returned p (.acquire c' x m' lease') (some (.flag true)) →
        compatible m m' = false → Raft.place handedOver o < Raft.place handedOver p →
        ∃ k cmd, Raft.place handedOver o < k ∧ k < Raft.place handedOver p ∧
          hist[k]? = some cmd ∧ cmd.releases c x = true :=
  lock_service_one_table handedOver (by decide +kernel) (by decide +kernel) (by decide +kernel)

end Locks
