import Terdistribusi.Cache.Properties.Lines

/-!
# Capacity and eviction

Runs of one node, whatever the inputs are. A step leaves the keys of the cache and the policy alone,
or touches a key that is cached, or brings a key, or removes one (`keys_act`), and the policy does
with the key what the cache does. So they track the same keys (`InStep`), an eviction takes one key
(`ensureCapacity_of_inStep`), and the order and the counts of the policy are those of the history
(`Tracks`).
-/

namespace Cache

open Infra

variable {NodeId Key Value : Type} [DecidableEq Key]

/-- A run of one node. -/
abbrev NodeRun (cfg : Config NodeId) (Key Value : Type) [DecidableEq Key] :=
  Run (fun s inp => some (CacheNode.act cfg inp s).1) (cfg.init : CacheNode Key Value)

namespace CacheNode

/-! ## Uses -/

/-- The key that a get finds, or whose line a put changes. -/
def touched (inp : Input NodeId (Call Key Value) Unit (Payload Key Value))
    (s : CacheNode Key Value) : Option Key :=
  match inp with
  | .call (.get key) => if (s.validLine? key).isSome then some key else none
  | .call (.put key _) => if (s.cache.get? key).isSome then some key else none
  | _ => none

/-- The key for which a put, or a get with a reply, makes a new line. -/
def brought (inp : Input NodeId (Call Key Value) Unit (Payload Key Value))
    (s : CacheNode Key Value) : Option Key :=
  match inp with
  | .call (.put key _) => if (s.cache.get? key).isSome then none else some key
  | .call (.resume id) =>
    match s.reads.get? id with
    | some { key := key, future := .result _ } => some key
    | _ => none
  | _ => none

/-- The key that is used: a get finds it, it is put, or it is installed. -/
def used (inp : Input NodeId (Call Key Value) Unit (Payload Key Value))
    (s : CacheNode Key Value) : Option Key :=
  (s.touched inp).or (s.brought inp)

/-- The key comes into the cache. A get may go on when its key is there again; then the key comes in
if its own line was evicted for it. -/
def enters (cfg : Config NodeId) (key : Key)
    (inp : Input NodeId (Call Key Value) Unit (Payload Key Value)) (s : CacheNode Key Value) :
    Bool :=
  s.brought inp = some key ∧ (key ∉ s.cache.keys ∨ key ∈ s.evicted cfg inp)

/-! ## What a step does to the keys -/

inductive KeyStep (cfg : Config NodeId)
    (inp : Input NodeId (Call Key Value) Unit (Payload Key Value)) (s s' : CacheNode Key Value) :
    Prop
  | same (htouched : s.touched inp = none) (hbrought : s.brought inp = none)
    (hevicted : s.evicted cfg inp = []) (hpolicy : s'.policy = s.policy)
    (hkeys : s'.cache.keys = s.cache.keys)
  | touch (key : Key) (htouched : s.touched inp = some key) (hbrought : s.brought inp = none)
    (hevicted : s.evicted cfg inp = []) (hmem : key ∈ s.cache.keys)
    (hpolicy : s'.policy = s.policy.access key) (hkeys : s'.cache.keys = s.cache.keys)
  | bring (key : Key) (line : CacheLine Value) (htouched : s.touched inp = none)
    (hbrought : s.brought inp = some key)
    (hevicted : s.evicted cfg inp = (s.ensureCapacity cfg.maxSize).1)
    (hpolicy : s'.policy = (s.ensureCapacity cfg.maxSize).2.policy.insert key)
    (hkeys : s'.cache = (s.ensureCapacity cfg.maxSize).2.cache.set key line)
  | remove (key : Key) (htouched : s.touched inp = none) (hbrought : s.brought inp = none)
    (hevicted : s.evicted cfg inp = []) (hpolicy : s'.policy = s.policy.remove key)
    (hkeys : s'.cache = s.cache.erase key)

variable {cfg : Config NodeId} {s : CacheNode Key Value}

theorem keys_get (key : Key) :
    KeyStep cfg (.call (.get key) : Input NodeId _ Unit (Payload Key Value)) s
      (s.get cfg key).2.1 := by
  unfold get
  cases hline : s.validLine? key with
  | none => exact .same (by simp [touched, hline]) rfl rfl rfl rfl
  | some line =>
    exact .touch key (by simp [touched, hline]) rfl rfl
      (Dict.mem_keys_of_get? (cache_of_validLine? hline)) rfl rfl

theorem keys_put (key : Key) (value : Value) :
    KeyStep cfg (.call (.put key value)) s (s.put cfg key value).1 := by
  unfold put
  cases hline : s.cache.get? key with
  | none =>
    exact .bring key _ (by simp [touched, hline]) (by simp [brought, hline])
      (by simp [evicted, hline]) rfl rfl
  | some line =>
    exact .touch key (by simp [touched, hline]) (by simp [brought, hline])
      (by simp [evicted, hline]) (Dict.mem_keys_of_get? hline) rfl (Dict.keys_set_of_get? hline)

theorem keys_resume (id : ℕ) :
    KeyStep cfg (.call (.resume id) : Input NodeId _ Unit (Payload Key Value)) s
      (s.resume cfg id).2 := by
  unfold resume
  cases hread : s.reads.get? id with
  | none => exact .same rfl (by simp [brought, hread]) (by simp [evicted, hread]) rfl rfl
  | some read =>
    obtain ⟨key, future⟩ := read
    cases future with
    | pending => exact .same rfl (by simp [brought, hread]) (by simp [evicted, hread]) rfl rfl
    | cancelled => exact .same rfl (by simp [brought, hread]) (by simp [evicted, hread]) rfl rfl
    | result reply =>
      exact .bring key reply.line rfl (by simp [brought, hread]) (by simp [evicted, hread]) rfl rfl

theorem keys_fetch (env : Unit) {m : Message NodeId (Payload Key Value)} {key : Key} :
    KeyStep cfg (.receive env m) s (s.handleFetch cfg m.senderId key).1 := by
  unfold handleFetch
  cases hline : s.validLine? key with
  | none => exact .same rfl rfl rfl rfl rfl
  | some line => exact .same rfl rfl rfl rfl (Dict.keys_set_of_get? (cache_of_validLine? hline))

theorem keys_response (env : Unit) {m : Message NodeId (Payload Key Value)} {key : Key}
    {reply : Reply Value} : KeyStep cfg (.receive env m) s (s.handleResponse key reply) := by
  unfold handleResponse
  split <;> exact .same rfl rfl rfl rfl rfl

theorem keys_invalidate (env : Unit) {m : Message NodeId (Payload Key Value)} {key : Key} :
    KeyStep cfg (.receive env m) s (s.handleInvalidate key) := by
  unfold handleInvalidate
  cases hline : s.cache.get? key with
  | none => exact .same rfl rfl rfl rfl rfl
  | some line => exact .remove key rfl rfl rfl rfl (Dict.erase_set _ _ _)

/-- **What an input does to the keys of the cache and the policy.** -/
theorem keys_act (cfg : Config NodeId) (s : CacheNode Key Value)
    (inp : Input NodeId (Call Key Value) Unit (Payload Key Value)) :
    KeyStep cfg inp s (act cfg inp s).1 := by
  cases inp with
  | call c =>
    cases c with
    | get key => exact keys_get key
    | put key value => exact keys_put key value
    | delete key => exact .remove key rfl rfl rfl rfl rfl
    | timeout id =>
      refine .same rfl rfl rfl ?_ ?_ <;>
      · simp only [act, timeout]
        split <;> rfl
    | resume id => exact keys_resume id
  | receive env m =>
    simp only [act]
    split
    · exact keys_fetch env
    · exact keys_response env
    · exact keys_invalidate env

/-! ## The policy in step with the cache -/

/-- What every round of the loop of `_ensure_capacity` keeps. -/
theorem ensureCapacity_invariant {P : CacheNode Key Value → Prop}
    (hs : ∀ s key, P s → s.policy.victim? = some key →
      P (s.evictVictim key (s.policy.remove key))) (maxSize : ℕ) (h : P s) :
    P (s.ensureCapacity maxSize).2 := by
  suffices ∀ k s, P s → P (evictLoop maxSize k s).2 from this _ s h
  intro k
  induction k with
  | zero => exact fun s h => h
  | succ k ih =>
    intro s h
    simp only [evictLoop]
    split
    · split
      · exact h
      · next victimKey policy hevict =>
        obtain ⟨_, hvictim, heq⟩ := Option.map_eq_some_iff.mp hevict
        cases heq
        exact ih _ (hs s victimKey h hvictim)
    · exact h

theorem tracked_evictVictim (h : ∀ key, key ∈ s.policy.keys ↔ key ∈ s.cache.keys) (victim : Key) :
    ∀ key, key ∈ (s.evictVictim victim (s.policy.remove victim)).policy.keys ↔
      key ∈ (s.evictVictim victim (s.policy.remove victim)).cache.keys := by
  intro key
  show key ∈ (s.policy.remove victim).keys ↔ key ∈ (s.cache.erase victim).keys
  rw [EvictionPolicy.mem_keys_remove, Dict.mem_keys_erase, h]

theorem tracked_ensureCapacity (h : ∀ key, key ∈ s.policy.keys ↔ key ∈ s.cache.keys)
    (maxSize : ℕ) : ∀ key, key ∈ (s.ensureCapacity maxSize).2.policy.keys ↔
      key ∈ (s.ensureCapacity maxSize).2.cache.keys :=
  ensureCapacity_invariant (P := fun s => ∀ key, key ∈ s.policy.keys ↔ key ∈ s.cache.keys)
    (fun _ victim hs _ => tracked_evictVictim hs victim) maxSize h

/-- The policy tracks the same keys after an input, whatever the size of the cache. -/
theorem tracked_act (h : ∀ key, key ∈ s.policy.keys ↔ key ∈ s.cache.keys)
    (inp : Input NodeId (Call Key Value) Unit (Payload Key Value)) :
    ∀ key, key ∈ (act cfg inp s).1.policy.keys ↔ key ∈ (act cfg inp s).1.cache.keys := by
  intro key'
  cases keys_act cfg s inp with
  | same _ _ _ hpolicy hkeys => rw [hpolicy, hkeys, h]
  | touch key _ _ _ hmem hpolicy hkeys =>
    rw [hpolicy, hkeys, EvictionPolicy.mem_keys_access ((h key).mpr hmem), h]
  | bring key line _ _ _ hpolicy hkeys =>
    rw [hpolicy, hkeys, EvictionPolicy.mem_keys_insert, Dict.mem_keys_set,
      tracked_ensureCapacity h]
  | remove key _ _ _ hpolicy hkeys =>
    rw [hpolicy, hkeys, EvictionPolicy.mem_keys_remove, Dict.mem_keys_erase, h]

/-- The policy tracks the keys of the cache, which is not over its size. -/
structure InStep (maxSize : ℕ) (s : CacheNode Key Value) : Prop where
  tracked : ∀ key, key ∈ s.policy.keys ↔ key ∈ s.cache.keys
  size : s.cache.keys.length ≤ maxSize

/-- **What `_ensure_capacity` does**: nothing, or it evicts the victim of the policy. -/
theorem ensureCapacity_of_inStep {maxSize : ℕ} (h : InStep maxSize s) (hmax : 1 ≤ maxSize) :
    (s.cache.keys.length < maxSize ∧ s.ensureCapacity maxSize = ([], s)) ∨
      ∃ victim, s.policy.victim? = some victim ∧ s.ensureCapacity maxSize =
        ([victim], s.evictVictim victim (s.policy.remove victim)) := by
  rw [ensureCapacity_eq]
  split
  · next hfull =>
    have hpos : s.cache.keys ≠ [] := List.length_pos_iff.mp (by omega)
    obtain ⟨key, hkey⟩ := List.exists_mem_of_ne_nil _ hpos
    obtain ⟨victim, hvictim⟩ := EvictionPolicy.exists_victim ((h.tracked key).mpr hkey)
    have hcached := (h.tracked victim).mp (EvictionPolicy.victim?_mem hvictim)
    have hroom : ¬ maxSize ≤ (s.cache.erase victim).keys.length := by
      have hlt := Dict.length_keys_erase_lt hcached
      have hsize := h.size
      omega
    have hone : (s.evictVictim victim (s.policy.remove victim)).ensureCapacity maxSize =
        ([], s.evictVictim victim (s.policy.remove victim)) := by
      rw [ensureCapacity_eq]
      exact if_neg hroom
    refine Or.inr ⟨victim, hvictim, ?_⟩
    simp only [EvictionPolicy.evict, hvictim, Option.map_some, hone]
  · next hroom => exact Or.inl ⟨by omega, rfl⟩

/-- After it there is room. -/
theorem InStep.ensureCapacity {maxSize : ℕ} (h : InStep maxSize s) (hmax : 1 ≤ maxSize) :
    InStep maxSize (s.ensureCapacity maxSize).2 ∧
      (s.ensureCapacity maxSize).2.cache.keys.length < maxSize := by
  rcases ensureCapacity_of_inStep h hmax with ⟨hroom, heq⟩ | ⟨victim, hvictim, heq⟩
  · rw [heq]
    exact ⟨h, hroom⟩
  · have hcached := (h.tracked victim).mp (EvictionPolicy.victim?_mem hvictim)
    have hlt : (s.cache.erase victim).keys.length < s.cache.keys.length :=
      Dict.length_keys_erase_lt hcached
    have hsize := h.size
    rw [heq]
    exact ⟨⟨tracked_evictVictim h.tracked victim,
      show (s.cache.erase victim).keys.length ≤ maxSize by omega⟩,
      show (s.cache.erase victim).keys.length < maxSize by omega⟩

theorem InStep.act (h : InStep cfg.maxSize s) (hmax : 1 ≤ cfg.maxSize)
    (inp : Input NodeId (Call Key Value) Unit (Payload Key Value)) :
    InStep cfg.maxSize (act cfg inp s).1 := by
  refine ⟨tracked_act h.tracked inp, ?_⟩
  cases keys_act cfg s inp with
  | same _ _ _ _ hkeys => exact hkeys ▸ h.size
  | touch key _ _ _ _ _ hkeys => exact hkeys ▸ h.size
  | bring key line _ _ _ _ hkeys =>
    obtain ⟨hstep, hroom⟩ := h.ensureCapacity hmax
    rw [hkeys, Dict.keys_set]
    split
    · exact hstep.size
    · rw [List.length_append]
      exact hroom
  | remove key _ _ _ _ hkeys =>
    rw [hkeys, Dict.keys_erase]
    exact (List.length_filter_le _ _).trans h.size

/-- No step makes a line that is `invalid`. -/
theorem valid_act (hvalid : ∀ key line, s.cache.get? key = some line → line.state ≠ .invalid)
    (inp : Input NodeId (Call Key Value) Unit (Payload Key Value)) {key : Key}
    {line : CacheLine Value} (hline : (act cfg inp s).1.cache.get? key = some line) :
    line.state ≠ .invalid := by
  rcases line_cases hline with ⟨_, hmodified⟩ | ⟨reply, _, rfl⟩ | ⟨line', _, rfl⟩ | ⟨hkept, _⟩
  · simp [hmodified]
  · unfold Reply.line
    dsimp only
    split <;> simp
  · simp
  · exact hvalid key line hkept

end CacheNode

section Run

variable {cfg : Config NodeId}

theorem inStep_run (hmax : 1 ≤ cfg.maxSize) (r : NodeRun cfg Key Value) :
    ∀ i ≤ r.length, CacheNode.InStep cfg.maxSize (r.state i) := by
  refine r.invariant ⟨fun key => ?_, Nat.zero_le _⟩ fun s inp s' h hs => ?_
  · show key ∈ (if cfg.lfu then EvictionPolicy.lfu Dict.empty else .lru Dict.empty).keys ↔ _
    split <;> exact Iff.rfl
  · cases hs
    exact h.act hmax inp

/-- Two lines, with LFU eviction. -/
def small : Config (Fin 2) := { nodeId := 0, peers := [1], maxSize := 2, lfu := true }

/-- The key `b` is put last and used least when a third key is put. -/
def crowded : NodeRun small String ℕ :=
  Run.ofEvents _ _ [.call (.put "a" 1), .call (.put "b" 2), .call (.get "a"), .call (.put "c" 3)]
    (.call (.get "a")) (by decide +kernel)

/-- The policy tracks exactly the keys of the cache, no line is invalid, and the cache is not over
its size. -/
theorem policy_in_step (cfg : Config NodeId) (hmax : 1 ≤ cfg.maxSize) (r : NodeRun cfg Key Value)
    {i : ℕ} (hi : i ≤ r.length) :
    (∀ key, key ∈ (r.state i).policy.keys ↔ key ∈ (r.state i).cache.keys) ∧
      (∀ key line, (r.state i).cache.get? key = some line → line.state ≠ .invalid) ∧
      (r.state i).cache.keys.length ≤ cfg.maxSize := by
  have hstep := inStep_run hmax r i hi
  have hvalid : ∀ i ≤ r.length, ∀ key line, (r.state i).cache.get? key = some line →
      line.state ≠ .invalid := by
    refine r.invariant (P := fun s => ∀ key line, s.cache.get? key = some line →
      line.state ≠ .invalid) (fun key line h => by cases h) fun s inp s' h hs => ?_
    cases hs
    exact fun key line hline => CacheNode.valid_act h inp hline
  exact ⟨hstep.tracked, hvalid i hi, hstep.size⟩

theorem policy_in_step_crowded : (crowded.state 4).policy.keys = ["a", "c"] ∧
    (crowded.state 4).cache.keys.length ≤ 2 :=
  ⟨by decide +kernel, (policy_in_step small (by decide) crowded (le_refl crowded.length)).2.2⟩

/-! ## The policy and the history -/

/-- The number of the step after the last use of a key before step `i`, `0` when there is none. -/
def lastUse (r : NodeRun cfg Key Value) (key : Key) : ℕ → ℕ
  | 0 => 0
  | i + 1 => if (r.state i).used (r.event i) = some key then i + 1 else lastUse r key i

/-- How often a key is touched between its last entry into the cache and step `i`. -/
def useCount (r : NodeRun cfg Key Value) (key : Key) : ℕ → ℕ
  | 0 => 0
  | i + 1 =>
    if (r.state i).enters cfg key (r.event i) then 0
    else if (r.state i).touched (r.event i) = some key then useCount r key i + 1
    else useCount r key i

theorem lastUse_le (r : NodeRun cfg Key Value) (key : Key) : ∀ i, lastUse r key i ≤ i
  | 0 => Nat.le_refl 0
  | i + 1 => by
    rw [lastUse]
    split
    · exact Nat.le_refl _
    · exact (lastUse_le r key i).trans (Nat.le_succ i)

/-- A step keeps the times and the counts of the keys that it does not use. -/
theorem history_eq {r : NodeRun cfg Key Value} {i : ℕ} {key : Key}
    (htouched : (r.state i).touched (r.event i) ≠ some key)
    (hbrought : (r.state i).brought (r.event i) ≠ some key) :
    lastUse r key (i + 1) = lastUse r key i ∧ useCount r key (i + 1) = useCount r key i := by
  have hused : (r.state i).used (r.event i) ≠ some key := by
    unfold CacheNode.used
    cases ht : (r.state i).touched (r.event i) with
    | none => exact hbrought
    | some a => rwa [ht] at htouched
  simp [lastUse, useCount, CacheNode.enters, hused, htouched, hbrought]

theorem lastUse_lt_of_used {r : NodeRun cfg Key Value} {i : ℕ} {key : Key}
    (h : (r.state i).used (r.event i) = some key) (a : Key) :
    lastUse r a i < lastUse r key (i + 1) := by
  rw [lastUse, if_pos h]
  exact Nat.lt_succ_of_le (lastUse_le r a i)

/-- A new line counts from `0` when its key is not there any more. -/
theorem useCount_brought {r : NodeRun cfg Key Value} {i : ℕ} {key : Key} (hmax : 1 ≤ cfg.maxSize)
    (hstep : (r.state i).InStep cfg.maxSize) (htouched : (r.state i).touched (r.event i) = none)
    (hbrought : (r.state i).brought (r.event i) = some key)
    (hevicted : (r.state i).evicted cfg (r.event i) =
      ((r.state i).ensureCapacity cfg.maxSize).1) :
    useCount r key (i + 1) =
      if key ∈ ((r.state i).ensureCapacity cfg.maxSize).2.policy.keys then useCount r key i
      else 0 := by
  have hkept : key ∈ ((r.state i).ensureCapacity cfg.maxSize).2.policy.keys ↔
      key ∈ (r.state i).cache.keys ∧ key ∉ ((r.state i).ensureCapacity cfg.maxSize).1 := by
    rw [(hstep.ensureCapacity hmax).1.tracked, Dict.mem_keys_iff, CacheNode.get?_ensureCapacity,
      Dict.mem_keys_iff]
    split <;> simp [*]
  have henters : (r.state i).enters cfg key (r.event i) = true ↔
      ¬ (key ∈ (r.state i).cache.keys ∧ key ∉ ((r.state i).ensureCapacity cfg.maxSize).1) := by
    simp only [CacheNode.enters, hbrought, hevicted, decide_eq_true_eq, true_and]
    rw [not_and_or, not_not]
  rw [useCount]
  by_cases hc : key ∈ (r.state i).cache.keys ∧ key ∉ ((r.state i).ensureCapacity cfg.maxSize).1
  · rw [if_neg (fun h => henters.mp h hc), if_pos (hkept.mpr hc), htouched, if_neg (by simp)]
  · rw [if_pos (henters.mpr hc), if_neg (fun h => hc (hkept.mp h))]

/-- **The policy follows the history.** -/
theorem tracks_run (hmax : 1 ≤ cfg.maxSize) (r : NodeRun cfg Key Value) : ∀ i ≤ r.length,
    EvictionPolicy.Tracks cfg.lfu (fun key => lastUse r key i) (fun key => useCount r key i)
      (r.state i).policy := by
  refine r.induction ?_ fun i hi h => ?_
  · rw [r.state_zero]
    exact .empty
  · have hstep := inStep_run hmax r i (Nat.le_of_lt hi)
    have hact : (CacheNode.act cfg (r.event i) (r.state i)).1 = r.state (i + 1) :=
      Option.some.inj (r.state_succ i hi)
    have hkeys := CacheNode.keys_act cfg (r.state i) (r.event i)
    rw [hact] at hkeys
    cases hkeys with
    | same htouched hbrought _ hpolicy _ =>
      have hsame (key : Key) : lastUse r key (i + 1) = lastUse r key i ∧
          useCount r key (i + 1) = useCount r key i :=
        history_eq (by simp [htouched]) (by simp [hbrought])
      simpa only [hpolicy, (hsame _).1, (hsame _).2] using h
    | touch key htouched hbrought _ hmem hpolicy _ =>
      have hused : (r.state i).used (r.event i) = some key := by
        rw [CacheNode.used, htouched, Option.some_or]
      have hcount : useCount r key (i + 1) = useCount r key i + 1 := by
        simp [useCount, CacheNode.enters, htouched, hbrought]
      rw [hpolicy]
      exact h.access ((hstep.tracked key).mpr hmem) (lastUse_lt_of_used hused) hcount
        fun a ha => history_eq (by rw [htouched]; simpa using Ne.symm ha) (by simp [hbrought])
    | bring key line htouched hbrought hevicted hpolicy _ =>
      have hused : (r.state i).used (r.event i) = some key := by
        rw [CacheNode.used, htouched, hbrought, Option.none_or]
      -- a key that is evicted first is forgotten by the policy
      have hroom : EvictionPolicy.Tracks cfg.lfu (fun key => lastUse r key i)
          (fun key => useCount r key i) ((r.state i).ensureCapacity cfg.maxSize).2.policy := by
        rcases CacheNode.ensureCapacity_of_inStep hstep hmax with ⟨_, heq⟩ | ⟨victim, _, heq⟩
        · rwa [heq]
        · rw [heq]
          exact h.remove victim
      rw [hpolicy]
      exact hroom.insert (lastUse_lt_of_used hused)
        (useCount_brought hmax hstep htouched hbrought hevicted)
        fun a ha => history_eq (by simp [htouched]) (by rw [hbrought]; simpa using Ne.symm ha)
    | remove key htouched hbrought _ hpolicy _ =>
      have hsame (key : Key) : lastUse r key (i + 1) = lastUse r key i ∧
          useCount r key (i + 1) = useCount r key i :=
        history_eq (by simp [htouched]) (by simp [hbrought])
      rw [hpolicy]
      simpa only [(hsame _).1, (hsame _).2] using h.remove key

/-- An evicted key is cached, and is the one whose last use is the oldest, or one that was used the
fewest times since it came into the cache. -/
theorem evicted_is_victim (cfg : Config NodeId) (hmax : 1 ≤ cfg.maxSize)
    (r : NodeRun cfg Key Value) {i : ℕ} (hi : i < r.length) {victim : Key}
    (hvictim : victim ∈ (r.state i).evicted cfg (r.event i)) :
    victim ∈ (r.state i).cache.keys ∧ ∀ key ∈ (r.state i).cache.keys, key ≠ victim →
      if cfg.lfu then useCount r victim i ≤ useCount r key i
      else lastUse r victim i < lastUse r key i := by
  have hstep := inStep_run hmax r i (Nat.le_of_lt hi)
  have htracks := tracks_run hmax r i (Nat.le_of_lt hi)
  have hchosen : (r.state i).policy.victim? = some victim := by
    cases CacheNode.keys_act cfg (r.state i) (r.event i) with
    | same _ _ hevicted => rw [hevicted] at hvictim; cases hvictim
    | touch _ _ _ hevicted => rw [hevicted] at hvictim; cases hvictim
    | remove _ _ _ hevicted => rw [hevicted] at hvictim; cases hvictim
    | bring _ _ _ _ hevicted =>
      rw [hevicted] at hvictim
      rcases CacheNode.ensureCapacity_of_inStep hstep hmax with ⟨_, heq⟩ | ⟨v, hv, heq⟩
      · rw [heq] at hvictim
        cases hvictim
      · rw [heq] at hvictim
        rwa [List.mem_singleton.mp hvictim]
  exact ⟨(hstep.tracked victim).mp (EvictionPolicy.victim?_mem hchosen), fun key hkey hne =>
    htracks.victim hchosen ((hstep.tracked key).mpr hkey) hne⟩

theorem evicted_is_victim_crowded : useCount crowded "b" 3 ≤ useCount crowded "a" 3 := by
  have h := evicted_is_victim small (by decide) crowded (by decide +kernel : 3 < crowded.length)
    (by decide +kernel : "b" ∈ (crowded.state 3).evicted small (crowded.event 3))
  exact h.2 "a" (by decide +kernel) (by decide)

end Run

end Cache
