import Terdistribusi.Cache.Properties.Coherence

/-!
# What becomes of a write

* `get_after_put` — a `get` after a `put` at the same node returns what the last suspended `get` has
  installed since, and what was put when there is none
* `copy_survives` — a key that was put has a copy somewhere, as long as no node puts it while an
  INVALIDATE of it is on its way to the node
-/

namespace Cache

open Infra

variable {NodeId Key Value : Type} [DecidableEq NodeId] [DecidableEq Key] {ms : Members NodeId}

/-! ## At one node -/

section OneNode

variable {faulty : Finset NodeId} (run : ClusterRun ms faulty Key Value)

namespace ClusterRun

/-- What node `a` takes in step `m`. -/
def taken (a : NodeId) (m : ℕ) :
    Option (Input NodeId (Call Key Value) Unit (Payload Key Value)) :=
  (run.state m).inputOf a (run.event m)

/-- In step `m` node `a` puts the key or gives it up. -/
def Closes (a : NodeId) (key : Key) (m : ℕ) : Prop :=
  ∃ inp ∈ run.taken a m, ((run.state m).nodes a).closes (ms.config a) key inp = true

instance (a : NodeId) (key : Key) (m : ℕ) : Decidable (run.Closes a key m) :=
  inferInstanceAs (Decidable (∃ inp ∈ run.taken a m, _))

/-- The reply with which a `get` of the key at node `a` goes on in step `m`. -/
def installed (a : NodeId) (key : Key) (m : ℕ) : Option (Reply Value) :=
  (run.taken a m).bind fun inp => ((run.state m).nodes a).installs key inp

variable {run} {a : NodeId} {key : Key}

theorem value?_succ (ha : a ∉ faulty) {m : ℕ} (hm : m < run.length)
    (hopen : ¬ run.Closes a key m) : ((run.state (m + 1)).nodes a).value? key =
      ((run.installed a key m).map fun reply => some reply.value).getD
        (((run.state m).nodes a).value? key) := by
  rw [Network.nodes_step (run.state_succ m hm) ha]
  unfold installed
  cases hinp : run.taken a m with
  | none =>
    rw [show (run.state m).inputOf a (run.event m) = none from hinp]
    rfl
  | some inp =>
    rw [show (run.state m).inputOf a (run.event m) = some inp from hinp]
    have hclosed : ((run.state m).nodes a).closes (ms.config a) key inp = false := by
      by_contra hc
      exact hopen ⟨inp, hinp, by simpa using hc⟩
    refine CacheNode.value?_act ?_ ?_
    · rintro v rfl
      simp [CacheNode.closes] at hclosed
    · unfold CacheNode.closes at hclosed
      split at hclosed
      · exact (Bool.or_eq_false_iff.mp hclosed).2
      · exact hclosed

/-- **A `get` after a `put` at the same node** returns what was put exactly when the last `get` that
went on with a reply since, if there is one, brought the same value. -/
theorem get_after_put (ha : a ∉ faulty) {value : Value} {i j : ℕ}
    (hput : run.event i = .call a (.put key value)) (hij : i < j) (hj : j ≤ run.length)
    (hopen : ∀ m < j, i < m → ¬ run.Closes a key m) :
    (CacheNode.get (ms.config a) key ((run.state j).nodes a)).1 = some value ↔
      ∀ m < j, ∀ reply, i < m → run.installed a key m = some reply →
        (∀ m' < j, m < m' → run.installed a key m' = none) → reply.value = value := by
  have hstart : ((run.state (i + 1)).nodes a).value? key = some value := by
    rw [Network.nodes_step (run.state_succ i (hij.trans_le hj)) ha, hput]
    simp only [Network.inputOf, Network.input?, Option.bind_some, if_true]
    exact CacheNode.value?_put value
  have hsets := eq_iff_of_sets (fun m => ((run.state m).nodes a).value? key)
    (fun m => (run.installed a key m).map fun reply => some reply.value) hij
    fun m him hmj => value?_succ ha (hmj.trans_le hj) (hopen m hmj him)
  simp only [hstart] at hsets
  rw [CacheNode.get_eq_value?, hsets]
  constructor
  · intro h m hmj reply him hreply hlast
    refine Option.some.inj (h m (some reply.value) him hmj ?_ fun m' hm hm' => ?_)
    · rw [hreply]
      rfl
    · rw [hlast m' hm' hm]
      rfl
  · intro h m x him hmj hx hlast
    obtain ⟨reply, hreply, rfl⟩ := Option.map_eq_some_iff.mp hx
    rw [h m hmj reply him hreply fun m' hm' hm => Option.map_eq_none_iff.mp (hlast m' hm hm')]

end ClusterRun

end OneNode

/-! ## In the cluster -/

/-- The event is a `delete` of the key. -/
def deletes (key : Key) : Event NodeId Key Value → Bool
  | .call _ (.delete key') => key' = key
  | _ => false

namespace ClusterRun

variable (run : ClusterRun ms ∅ Key Value) (key : Key)

def NoDelete : Prop := ∀ i < run.length, deletes key (run.event i) = false

/-- The key is never evicted. -/
def NoEviction : Prop :=
  ∀ i < run.length, ∀ x ∈ (run.state i).input? (run.event i),
    key ∉ ((run.state i).nodes x.1).evicted (ms.config x.1) x.2

/-- No node puts the key while an INVALIDATE of it is on its way to the node. -/
def NoCrossing : Prop :=
  ∀ i < run.length, ∀ a ∈ writer? key (run.event i), ¬ Invalidated (run.state i) a key

instance : Decidable (run.NoDelete key) := inferInstanceAs (Decidable (∀ i < run.length, _))

instance : Decidable (run.NoEviction key) := inferInstanceAs (Decidable (∀ i < run.length, _))

instance : Decidable (run.NoCrossing key) := inferInstanceAs (Decidable (∀ i < run.length, _))

/-- Some node has a copy that no INVALIDATE is on its way to. -/
def Survives (s : Cluster NodeId Key Value) : Prop :=
  ∃ a, (((s.nodes a).value? key).isSome ∧ ¬ Invalidated s a key)

variable {run key}

omit [DecidableEq NodeId] in
theorem drops_cases {cfg : Config NodeId}
    {inp : Input NodeId (Call Key Value) Unit (Payload Key Value)} {n : CacheNode Key Value}
    (h : n.drops cfg key inp = true) :
    inp = .call (.delete key) ∨ key ∈ n.evicted cfg inp ∨
      ∃ env m, inp = .receive env m ∧ m.payload.invalidates key = true := by
  unfold CacheNode.drops at h
  split at h
  · next key' =>
    obtain rfl : key' = key := of_decide_eq_true h
    exact Or.inl rfl
  · exact Or.inr (Or.inl (of_decide_eq_true h))
  · next env m => exact Or.inr (Or.inr ⟨env, m, rfl, h⟩)

omit [DecidableEq NodeId] in
/-- A node sends an INVALIDATE of the key when it puts or deletes the key. -/
theorem sent_invalidates {cfg : Config NodeId}
    {inp : Input NodeId (Call Key Value) Unit (Payload Key Value)} {n : CacheNode Key Value}
    {m : Message NodeId (Payload Key Value)} (hm : m ∈ (CacheNode.act cfg inp n).2)
    (hkey : m.payload.invalidates key = true) :
    (∃ v, inp = .call (.put key v)) ∨ inp = .call (.delete key) := by
  rcases CacheNode.sent_act hm with ⟨_, -, hp⟩ | ⟨key', hinp, hp⟩ | ⟨_, _, -, hp⟩
  · rw [hp] at hkey
    cases hkey
  · rw [hp] at hkey
    obtain rfl : key' = key := of_decide_eq_true hkey
    exact hinp
  · rw [hp] at hkey
    cases hkey

section Step

variable {s s' : Cluster NodeId Key Value} {e : Event NodeId Key Value}

theorem survives_put (hstep : step ms ∅ s e = some s') {a : NodeId}
    (hput : writer? key e = some a) (hcross : ¬ Invalidated s a key) : Survives key s' := by
  obtain ⟨v, rfl⟩ := put_of_writer? hput
  rcases Network.moves_cases hstep with ⟨_, _, _, he, -⟩ | ⟨b, inp, inbox₀, hinput, hmoves⟩
  · cases he
  · cases hinput
    refine ⟨a, ?_, ?_⟩
    · rw [hmoves.nodes, Function.update_self]
      exact congrArg Option.isSome (CacheNode.value?_put v)
    · rintro ⟨m, hm, hkey⟩
      rcases hmoves.mem_inbox hm with hold | ⟨hsent, hr⟩
      · exact hcross ⟨m, hold, hkey⟩
      · obtain ⟨-, -, hpeer⟩ := Network.mem_broadcast.mp hsent
        exact (ms.mem_peers a m.receiverId).mp hpeer hr

/-- **A copy survives every step** in which the key is not deleted, evicted or put. -/
theorem Survives.succ (h : Survives key s) (hstep : step ms ∅ s e = some s')
    (hput : writer? key e = none) (hdelete : deletes key e = false)
    (hevict : ∀ x ∈ s.input? e, key ∉ (s.nodes x.1).evicted (ms.config x.1) x.2) :
    Survives key s' := by
  obtain ⟨b, hvalue, hinv⟩ := h
  rcases Network.moves_cases hstep with ⟨a, _, _, -, hlost⟩ | ⟨a, inp, inbox₀, hinput, hmoves⟩
  · refine ⟨b, by rwa [hlost.nodes], ?_⟩
    rintro ⟨m, hm, hkey⟩
    exact hinv ⟨m, hlost.mem_inbox hm, hkey⟩
  have hnoput : ∀ v, inp ≠ .call (.put key v) := by
    rintro v rfl
    rw [Network.input?_call hinput] at hput
    simp [writer?] at hput
  have hnodelete : inp ≠ .call (.delete key) := by
    rintro rfl
    rw [Network.input?_call hinput] at hdelete
    simp [deletes] at hdelete
  refine ⟨b, ?_, ?_⟩
  · rw [hmoves.nodes]
    by_cases hb : b = a
    · subst hb
      rw [Function.update_self]
      -- no delete, no eviction, and no INVALIDATE that could be taken
      have hdrops : (s.nodes b).drops (ms.config b) key inp = false := by
        by_contra hd
        rcases drops_cases (by simpa using hd) with hinp | hev | ⟨env, m, rfl, hkey⟩
        · exact hnodelete hinp
        · exact hevict _ hinput hev
        · obtain ⟨k, -, hm⟩ := Network.input?_receive hinput
          exact hinv ⟨m, List.mem_of_getElem? hm, hkey⟩
      show (CacheNode.value? key (CacheNode.act (ms.config b) inp (s.nodes b)).1).isSome = true
      rw [CacheNode.value?_act hnoput hdrops]
      cases (s.nodes b).installs key inp with
      | none => exact hvalue
      | some reply => rfl
    · rwa [Function.update_of_ne hb]
  · rintro ⟨m, hm, hkey⟩
    rcases hmoves.mem_inbox hm with hold | ⟨hsent, -⟩
    · exact hinv ⟨m, hold, hkey⟩
    · rcases sent_invalidates hsent hkey with ⟨v, hinp⟩ | hinp
      · exact hnoput v hinp
      · exact hnodelete hinp

end Step

variable (run)

/-- **A key that was put has a copy somewhere**, as long as it is neither deleted nor evicted and no
node puts it while an INVALIDATE of it is on its way to the node. -/
theorem copy_survives (hdelete : run.NoDelete key) (hevict : run.NoEviction key)
    (hcross : run.NoCrossing key) {i j : ℕ} (hij : i < j) (hj : j ≤ run.length) {a : NodeId}
    (hput : writer? key (run.event i) = some a) :
    ∃ b line, ((run.state j).nodes b).validLine? key = some line := by
  have hsurvives : ∀ m, i + 1 ≤ m → m ≤ run.length → Survives key (run.state m) := by
    intro m him
    induction m, him using Nat.le_induction with
    | base =>
      intro hm
      exact survives_put (run.state_succ i hm) hput (hcross i hm a hput)
    | succ m him ih =>
      intro hm
      have hstep := run.state_succ m hm
      cases hw : writer? key (run.event m) with
      | some b => exact survives_put hstep hw (hcross m hm b hw)
      | none => exact (ih (Nat.le_of_lt hm)).succ hstep hw (hdelete m hm) (hevict m hm)
  obtain ⟨b, hvalue, -⟩ := hsurvives j hij hj
  obtain ⟨value, hv⟩ := Option.isSome_iff_exists.mp hvalue
  obtain ⟨line, hline, -⟩ := Option.map_eq_some_iff.mp hv
  exact ⟨b, line, hline⟩

end ClusterRun

/-! ## Writes that are lost -/

/-- Node 1 puts the key while its `get` waits for node 0. -/
def duringGet (value : ℕ) : List (Event (Fin 2) String ℕ) :=
  fetched.take 4 ++ [.call 1 (.put "k" value), .deliver 1 0 (), .call 1 (.resume 0)]

def sameValueRun : ClusterRun pair ∅ String ℕ :=
  Run.ofEvents _ _ (duringGet 1) (.call 0 (.get "k")) (by decide +kernel)

theorem get_after_put_same_value :
    (sameValueRun.installed 1 "k" 6).isSome = true ∧
      ((CacheNode.get (pair.config 1) "k" ((sameValueRun.state 7).nodes 1)).1 = some 1 ↔
        ∀ m < 7, ∀ reply, 4 < m → sameValueRun.installed 1 "k" m = some reply →
          (∀ m' < 7, m < m' → sameValueRun.installed 1 "k" m' = none) → reply.value = 1) :=
  ⟨by decide +kernel, ClusterRun.get_after_put (by decide) (i := 4) (j := 7) (by decide +kernel)
    (by decide) (by decide) (by decide +kernel)⟩

def overwrittenRun : ClusterRun pair ∅ String ℕ :=
  Run.ofEvents _ _ (duringGet 2) (.call 0 (.get "k")) (by decide +kernel)

/-- The `get` that waited installs what node 0 had, over the newer value. -/
theorem get_after_put_overwritten : overwrittenRun.InOrder ∧
    overwrittenRun.event 4 = .call 1 (.put "k" 2) ∧
    (∀ m < 7, 4 < m → ¬ overwrittenRun.Closes 1 "k" m) ∧
    (CacheNode.get (pair.config 1) "k" ((overwrittenRun.state 7).nodes 1)).1 = some 1 :=
  ⟨by decide +kernel, by decide +kernel, by decide +kernel, by decide +kernel⟩

/-- The second node puts the key when it has handled the INVALIDATE of the first `put`. -/
def inTurnRun : ClusterRun pair ∅ String ℕ :=
  Run.ofEvents _ _ [.call 0 (.put "k" 1), .deliver 1 0 (), .call 1 (.put "k" 2), .deliver 0 0 ()]
    (.call 0 (.get "k")) (by decide +kernel)

theorem copy_survives_in_turn : AtRest (inTurnRun.state 4) ∧
    ∃ b line, ((inTurnRun.state 4).nodes b).validLine? "k" = some line :=
  ⟨by decide +kernel, ClusterRun.copy_survives inTurnRun (by decide +kernel)
    (by decide +kernel) (by decide +kernel) (i := 0) (j := 4) (a := 0) (by decide) (by decide)
    (by decide +kernel)⟩

/-- Both nodes put the key before either has handled the INVALIDATE of the other. -/
def crossedRun : ClusterRun pair ∅ String ℕ :=
  Run.ofEvents _ _ [.call 0 (.put "k" 1), .call 1 (.put "k" 2), .deliver 0 0 (), .deliver 1 0 ()]
    (.call 0 (.get "k")) (by decide +kernel)

theorem no_copy_crossed : crossedRun.InOrder ∧ crossedRun.NoDelete "k" ∧
    crossedRun.NoEviction "k" ∧ crossedRun.event 0 = .call 0 (.put "k" 1) ∧
    AtRest (crossedRun.state 4) ∧
    ∀ b, ((crossedRun.state 4).nodes b).validLine? "k" = none :=
  ⟨by decide +kernel, by decide +kernel, by decide +kernel, by decide +kernel, by decide +kernel,
    by decide +kernel⟩

end Cache
