import Terdistribusi.Infra.Tally
import Terdistribusi.Cache.Properties.Eviction

/-!
# Writebacks

The counter `m_writebacks` of a node and the lines that leave the state `modified`.

* `counts_act` — a step counts the lines that it takes out of `modified`, but for those of
  `uncounted`
* `writebacks_eq_iff` — so the counter is right as long as no step is one of these

An eviction and a fetch test the state before they change it. An invalidation assigns the new state
first, and a `get` that goes on puts its line over whatever line is there.
-/

namespace Cache

open Infra

variable {NodeId Key Value : Type} [DecidableEq Key]

namespace CacheNode

/-! ## Modified lines -/

/-- The keys whose line is `modified`. -/
def modifiedKeys (s : CacheNode Key Value) : Finset Key :=
  (s.cache.keys.filter fun key =>
    (s.cache.get? key).any fun line => line.state = .modified).toFinset

/-- The keys whose line is `modified` before and is not after: it has another state, or it is not in
the cache. -/
def unmodified (s s' : CacheNode Key Value) : Finset Key := s.modifiedKeys \ s'.modifiedKeys

/-- Making room takes the line of the key out of the cache. -/
def givesWay (maxSize : ℕ) (key : Key) (s : CacheNode Key Value) : Bool :=
  maxSize = 0 ∨ maxSize ≤ s.cache.keys.length ∧ s.policy.victim? = some key

/-- The input is an invalidation of a key whose line is `modified`, or makes a `get` go on that
installs its line over one that is `modified` and does not give way to it. -/
def uncounted (cfg : Config NodeId) (inp : Input NodeId (Call Key Value) Unit (Payload Key Value))
    (s : CacheNode Key Value) : Bool :=
  match inp with
  | .call (.resume id) =>
    match s.reads.get? id with
    | some { key := key, future := .result _ } =>
      key ∈ s.modifiedKeys ∧ ¬ s.givesWay cfg.maxSize key
    | _ => false
  | .receive _ m =>
    match m.payload with
    | .cacheInvalidate key => key ∈ s.modifiedKeys
    | _ => false
  | _ => false

/-- The input is a call of `delete`. -/
def deletes : Input NodeId (Call Key Value) Unit (Payload Key Value) → Bool
  | .call (.delete _) => true
  | _ => false

variable {cfg : Config NodeId} {s s' : CacheNode Key Value} {key : Key}

theorem mem_modifiedKeys : key ∈ s.modifiedKeys ↔
    ∃ line, s.cache.get? key = some line ∧ line.state = .modified := by
  unfold modifiedKeys
  rw [List.mem_toFinset, List.mem_filter, Dict.mem_keys_iff]
  cases s.cache.get? key <;> simp

theorem not_mem_modifiedKeys (h : s.cache.get? key = none) : key ∉ s.modifiedKeys := by
  rw [mem_modifiedKeys, h]
  simp

theorem modifiedKeys_eq (h : s'.cache = s.cache) : s'.modifiedKeys = s.modifiedKeys := by
  unfold modifiedKeys
  rw [h]

theorem modifiedKeys_erase (h : s'.cache = s.cache.erase key) :
    s'.modifiedKeys = s.modifiedKeys.erase key := by
  ext key'
  rw [Finset.mem_erase, mem_modifiedKeys, mem_modifiedKeys, h, Dict.get?_erase]
  by_cases hk : key = key'
  · simp [hk]
  · simp [hk, Ne.symm hk]

theorem modifiedKeys_set_modified (line : CacheLine Value) (h : s'.cache = s.cache.set key line)
    (hline : line.state = .modified) : s'.modifiedKeys = insert key s.modifiedKeys := by
  ext key'
  rw [Finset.mem_insert, mem_modifiedKeys, mem_modifiedKeys, h, Dict.get?_set]
  by_cases hk : key = key'
  · simp [hk, hline]
  · simp [hk, Ne.symm hk]

theorem modifiedKeys_set {line : CacheLine Value} (h : s'.cache = s.cache.set key line)
    (hline : line.state ≠ .modified) : s'.modifiedKeys = s.modifiedKeys.erase key := by
  ext key'
  rw [Finset.mem_erase, mem_modifiedKeys, mem_modifiedKeys, h, Dict.get?_set]
  by_cases hk : key = key'
  · simp [hk, hline]
  · simp [hk, Ne.symm hk]

/-! ## Making room -/

theorem modifiedKeys_evictVictim (victim : Key) (policy : EvictionPolicy Key) :
    (s.evictVictim victim policy).modifiedKeys = s.modifiedKeys.erase victim :=
  modifiedKeys_erase rfl

/-- An evicted line that is `modified` is counted. -/
theorem writebacks_evictVictim (victim : Key) (policy : EvictionPolicy Key) :
    (s.evictVictim victim policy).writebacks + (s.evictVictim victim policy).modifiedKeys.card =
      s.writebacks + s.modifiedKeys.card := by
  have hany : ((s.cache.get? victim).any fun line => line.state = .modified) = true ↔
      victim ∈ s.modifiedKeys := by
    rw [mem_modifiedKeys]
    cases s.cache.get? victim <;> simp
  rw [modifiedKeys_evictVictim]
  by_cases hv : victim ∈ s.modifiedKeys
  · have hcard := Finset.card_erase_add_one hv
    have hcount : (s.evictVictim victim policy).writebacks = s.writebacks + 1 :=
      if_pos (hany.mpr hv)
    omega
  · have hcount : (s.evictVictim victim policy).writebacks = s.writebacks :=
      if_neg fun h => hv (hany.mp h)
    rw [Finset.erase_eq_of_notMem hv, hcount]

/-- Making room counts the lines that it takes out of `modified`. -/
theorem writebacks_ensureCapacity (maxSize : ℕ) (s : CacheNode Key Value) :
    (s.ensureCapacity maxSize).2.modifiedKeys ⊆ s.modifiedKeys ∧
      (s.ensureCapacity maxSize).2.writebacks + (s.ensureCapacity maxSize).2.modifiedKeys.card =
        s.writebacks + s.modifiedKeys.card := by
  refine ensureCapacity_invariant (P := fun t => t.modifiedKeys ⊆ s.modifiedKeys ∧
    t.writebacks + t.modifiedKeys.card = s.writebacks + s.modifiedKeys.card) ?_ maxSize
    ⟨subset_rfl, rfl⟩
  rintro t victim ⟨hsub, hcount⟩ -
  refine ⟨?_, (writebacks_evictVictim victim _).trans hcount⟩
  rw [modifiedKeys_evictVictim]
  exact (Finset.erase_subset _ _).trans hsub

/-- The loop of `_ensure_capacity` ends with room, or with a policy that has no key. -/
theorem ensureCapacity_ends (maxSize : ℕ) (s : CacheNode Key Value) :
    (s.ensureCapacity maxSize).2.cache.keys.length < maxSize ∨
      (s.ensureCapacity maxSize).2.policy.keys = [] := by
  suffices ∀ k (s : CacheNode Key Value), s.policy.keys.length ≤ k →
      (evictLoop maxSize k s).2.cache.keys.length < maxSize ∨
        (evictLoop maxSize k s).2.policy.keys = [] from this _ s (Nat.le_refl _)
  intro k
  induction k with
  | zero => exact fun s h => Or.inr (List.length_eq_zero_iff.mp (Nat.le_zero.mp h))
  | succ k ih =>
    intro s h
    simp only [evictLoop]
    split
    · split
      · next hevict =>
        refine Or.inr (List.eq_nil_iff_forall_not_mem.mpr fun key hkey => ?_)
        obtain ⟨victim, hvictim⟩ := EvictionPolicy.exists_victim hkey
        rw [EvictionPolicy.evict, hvictim] at hevict
        cases hevict
      · next victimKey policy hevict =>
        have hlt := EvictionPolicy.length_keys_of_evict hevict
        exact ih _ (show policy.keys.length ≤ k by omega)
    · next hroom => exact Or.inl (Nat.lt_of_not_le hroom)

/-- **Which `modified` lines are left when there is room**: those that do not give way. -/
theorem mem_modifiedKeys_ensureCapacity {maxSize : ℕ}
    (htracked : ∀ key, key ∈ s.policy.keys ↔ key ∈ s.cache.keys)
    (hstep : 1 ≤ maxSize → InStep maxSize s) (key : Key) :
    key ∈ (s.ensureCapacity maxSize).2.modifiedKeys ↔
      key ∈ s.modifiedKeys ∧ s.givesWay maxSize key = false := by
  have hgives : s.givesWay maxSize key = false ↔
      ¬ (maxSize = 0 ∨ maxSize ≤ s.cache.keys.length ∧ s.policy.victim? = some key) :=
    decide_eq_false_iff_not
  rw [hgives]
  rcases Nat.eq_zero_or_pos maxSize with rfl | hmax
  · have hempty : (s.ensureCapacity 0).2.policy.keys = [] :=
      (ensureCapacity_ends 0 s).resolve_left (Nat.not_lt_zero _)
    have hnot : key ∉ (s.ensureCapacity 0).2.cache.keys := by
      rw [← tracked_ensureCapacity htracked, hempty]
      simp
    simp [not_mem_modifiedKeys (Dict.get?_eq_none_iff.mpr hnot)]
  · rcases ensureCapacity_of_inStep (hstep hmax) hmax with ⟨hroom, heq⟩ | ⟨victim, hvictim, heq⟩
    · rw [heq]
      have hnot : ¬ (maxSize = 0 ∨ maxSize ≤ s.cache.keys.length ∧
          s.policy.victim? = some key) := by omega
      exact (and_iff_left hnot).symm
    · have hfull : maxSize ≤ s.cache.keys.length := by
        by_contra hroom
        rw [ensureCapacity_eq, if_neg hroom] at heq
        cases heq
      rw [heq, modifiedKeys_evictVictim, Finset.mem_erase, hvictim, and_comm]
      simp [Nat.ne_of_gt hmax, hfull, eq_comm]

/-! ## What a step counts -/

/-- The step counts the lines that it takes out of `modified`, but for `missed` of them. -/
def Counts (missed : ℕ) (s s' : CacheNode Key Value) : Prop :=
  s'.writebacks + missed = s.writebacks + (s.unmodified s').card

theorem counts_of_subset (hsub : s.modifiedKeys ⊆ s'.modifiedKeys)
    (hcount : s'.writebacks = s.writebacks) : Counts 0 s s' := by
  unfold Counts unmodified
  rw [Finset.sdiff_eq_empty_iff_subset.mpr hsub, hcount, Finset.card_empty]

theorem counts_of_cache (hcache : s'.cache = s.cache) (hcount : s'.writebacks = s.writebacks) :
    Counts 0 s s' :=
  counts_of_subset (modifiedKeys_eq hcache).ge hcount

/-- A step that takes the line of one key out of `modified`. -/
theorem card_unmodified_erase (key : Key) (h : s'.modifiedKeys = s.modifiedKeys.erase key) :
    (s.unmodified s').card = if key ∈ s.modifiedKeys then 1 else 0 := by
  unfold unmodified
  rw [h]
  split
  · next hkey => rw [Finset.sdiff_erase_self hkey, Finset.card_singleton]
  · next hkey => rw [Finset.erase_eq_of_notMem hkey, Finset.sdiff_self, Finset.card_empty]

/-- A new line of another state takes the place of what is left when there is room. -/
theorem counts_install (cfg : Config NodeId) (key : Key) {line : CacheLine Value}
    (hline : line.state ≠ .modified)
    (htracked : ∀ key, key ∈ s.policy.keys ↔ key ∈ s.cache.keys)
    (hstep : 1 ≤ cfg.maxSize → InStep cfg.maxSize s) :
    Counts (if key ∈ s.modifiedKeys ∧ ¬ s.givesWay cfg.maxSize key then 1 else 0) s
      (s.install cfg key line) := by
  obtain ⟨hsub, hcount⟩ := writebacks_ensureCapacity cfg.maxSize s
  have hkeys : (s.install cfg key line).modifiedKeys =
      (s.ensureCapacity cfg.maxSize).2.modifiedKeys.erase key := modifiedKeys_set rfl hline
  have hcard : (s.unmodified (s.install cfg key line)).card +
      ((s.ensureCapacity cfg.maxSize).2.modifiedKeys.erase key).card = s.modifiedKeys.card := by
    rw [unmodified, hkeys]
    exact Finset.card_sdiff_add_card_eq_card ((Finset.erase_subset _ _).trans hsub)
  have hleft := mem_modifiedKeys_ensureCapacity htracked hstep key
  have hwrite : (s.install cfg key line).writebacks =
      (s.ensureCapacity cfg.maxSize).2.writebacks := rfl
  unfold Counts
  by_cases hkey : key ∈ (s.ensureCapacity cfg.maxSize).2.modifiedKeys
  · have herase := Finset.card_erase_add_one hkey
    rw [if_pos ⟨(hleft.mp hkey).1, by simp [(hleft.mp hkey).2]⟩]
    omega
  · rw [Finset.erase_eq_of_notMem hkey] at hcard
    rw [if_neg fun h => hkey (hleft.mpr ⟨h.1, by simpa using h.2⟩)]
    omega

theorem counts_put (value : Value) : Counts 0 s (s.put cfg key value).1 := by
  unfold put
  cases hline : s.cache.get? key with
  | none =>
    obtain ⟨hsub, hcount⟩ := writebacks_ensureCapacity cfg.maxSize s
    have hkeys : (s.install cfg key ⟨value, .modified, 1⟩).modifiedKeys =
        insert key (s.ensureCapacity cfg.maxSize).2.modifiedKeys :=
      modifiedKeys_set_modified ⟨value, .modified, 1⟩ rfl rfl
    have hcard := Finset.card_sdiff_add_card_eq_card hsub
    unfold Counts unmodified
    dsimp only
    rw [hkeys, Finset.sdiff_insert_of_notMem (not_mem_modifiedKeys hline)]
    show (s.ensureCapacity cfg.maxSize).2.writebacks + 0 = _
    omega
  | some line =>
    refine counts_of_subset ?_ rfl
    have hkeys : s.modifiedKeys ⊆ insert key s.modifiedKeys := Finset.subset_insert key _
    exact hkeys.trans (modifiedKeys_set_modified ⟨value, .modified, _⟩ rfl rfl).ge

theorem counts_resume (id : ℕ) (htracked : ∀ key, key ∈ s.policy.keys ↔ key ∈ s.cache.keys)
    (hstep : 1 ≤ cfg.maxSize → InStep cfg.maxSize s) :
    Counts (if s.uncounted cfg (.call (.resume id) : Input NodeId _ Unit (Payload Key Value)) then 1
      else 0) s (s.resume cfg id).2 := by
  unfold resume
  cases hread : s.reads.get? id with
  | none =>
    simp only [uncounted, hread]
    exact counts_of_cache rfl rfl
  | some read =>
    obtain ⟨key, future⟩ := read
    cases future with
    | pending =>
      simp only [uncounted, hread]
      exact counts_of_cache rfl rfl
    | cancelled =>
      simp only [uncounted, hread]
      exact counts_of_cache rfl rfl
    | result reply =>
      have hline : reply.line.state ≠ .modified := by
        unfold Reply.line
        dsimp only
        split <;> simp
      have huncounted : s.uncounted cfg
          (.call (.resume id) : Input NodeId _ Unit (Payload Key Value)) = true ↔
          key ∈ s.modifiedKeys ∧ ¬ s.givesWay cfg.maxSize key := by
        simp [uncounted, hread]
      simp only [huncounted]
      exact counts_install cfg key hline htracked hstep

/-- A fetch counts the line that it takes out of `modified`. -/
theorem counts_fetch (a : NodeId) : Counts 0 s (s.handleFetch cfg a key).1 := by
  unfold handleFetch
  cases hline : s.validLine? key with
  | none => exact counts_of_cache rfl rfl
  | some line =>
    have hkey : key ∈ s.modifiedKeys ↔ line.state = .modified := by
      rw [mem_modifiedKeys, cache_of_validLine? hline]
      simp
    unfold Counts
    dsimp only
    rw [card_unmodified_erase key (modifiedKeys_set rfl (by simp))]
    simp only [hkey]
    split <;> rfl

theorem handleInvalidate_cache (s : CacheNode Key Value) (key : Key) :
    (s.handleInvalidate key).cache = s.cache.erase key := by
  unfold handleInvalidate
  cases hline : s.cache.get? key with
  | none => exact (Dict.erase_of_get?_none hline).symm
  | some line => exact Dict.erase_set _ _ _

/-- An invalidation counts nothing, since it tests the state that it has assigned. -/
theorem counts_invalidate : Counts (if key ∈ s.modifiedKeys then 1 else 0) s
    (s.handleInvalidate key) := by
  have hcount : (s.handleInvalidate key).writebacks = s.writebacks := by
    unfold handleInvalidate
    split
    · rfl
    · dsimp only
      split <;> rfl
  unfold Counts
  rw [card_unmodified_erase key (modifiedKeys_erase (handleInvalidate_cache s key)), hcount]

/-- **What a step counts**: the lines that it takes out of `modified`, but for those of
`uncounted`. -/
theorem counts_act (inp : Input NodeId (Call Key Value) Unit (Payload Key Value))
    (hdelete : deletes inp = false)
    (htracked : ∀ key, key ∈ s.policy.keys ↔ key ∈ s.cache.keys)
    (hstep : 1 ≤ cfg.maxSize → InStep cfg.maxSize s) :
    Counts (if s.uncounted cfg inp then 1 else 0) s (act cfg inp s).1 := by
  cases inp with
  | call c =>
    cases c with
    | get key =>
      have hget : Counts 0 s (s.get cfg key).2.1 := by
        unfold get
        split <;> exact counts_of_cache rfl rfl
      exact hget
    | put key value => exact counts_put value
    | delete key => cases hdelete
    | timeout id =>
      have htimeout : Counts 0 s (s.timeout id) := by
        unfold timeout
        split <;> exact counts_of_cache rfl rfl
      exact htimeout
    | resume id => exact counts_resume id htracked hstep
  | receive env m =>
    cases hm : m.payload with
    | cacheFetch key =>
      simp only [act, hm, uncounted]
      exact counts_fetch m.senderId
    | cacheResponse key reply =>
      have hresponse : Counts 0 s (s.handleResponse key reply) := by
        unfold handleResponse
        split <;> exact counts_of_cache rfl rfl
      simp only [act, hm, uncounted]
      exact hresponse
    | cacheInvalidate key =>
      simp only [act, hm, uncounted, decide_eq_true_eq]
      exact counts_invalidate

end CacheNode

section Run

variable {cfg : Config NodeId}

theorem tracked_run (r : NodeRun cfg Key Value) : ∀ i ≤ r.length, ∀ key,
    key ∈ (r.state i).policy.keys ↔ key ∈ (r.state i).cache.keys := by
  refine r.invariant (P := fun s => ∀ key, key ∈ s.policy.keys ↔ key ∈ s.cache.keys)
    (fun key => ?_) fun s inp s' h hs => ?_
  · show key ∈ (if cfg.lfu then EvictionPolicy.lfu Dict.empty else .lru Dict.empty).keys ↔ _
    split <;> exact Iff.rfl
  · cases hs
    exact CacheNode.tracked_act h inp

/-- How many lines have left the state `modified`, or the cache while they were `modified`, before
time `i`. -/
def modifiedLosses (r : NodeRun cfg Key Value) (i : ℕ) : ℕ :=
  ∑ j ∈ Finset.range i, ((r.state j).unmodified (r.state (j + 1))).card

/-- An eviction and a fetch. -/
def countedRun : NodeRun small String ℕ :=
  Run.ofEvents _ _ [.call (.put "a" 1), .call (.put "b" 2), .call (.put "c" 3),
    .receive () ⟨1, 0, .cacheFetch "c"⟩] (.call (.get "a")) (by decide +kernel)

/-- The key is put, and another node puts it. -/
def invalidatedRun : NodeRun small String ℕ :=
  Run.ofEvents _ _ [.call (.put "a" 1), .receive () ⟨1, 0, .cacheInvalidate "a"⟩]
    (.call (.get "a")) (by decide +kernel)

/-- The key is put while a `get` waits for it. -/
def replacedRun : NodeRun small String ℕ :=
  Run.ofEvents _ _ [.call (.get "a"), .call (.put "a" 2),
    .receive () ⟨1, 0, .cacheResponse "a" ⟨1, 1, true⟩⟩, .call (.resume 0)]
    (.call (.get "a")) (by decide +kernel)

/-- The counter is right at a time of a run exactly when no step before it was an invalidation of a
key whose line was modified, or installed a line over one that was modified and did not give way. -/
theorem writebacks_eq_iff (cfg : Config NodeId) (r : NodeRun cfg Key Value)
    (hdelete : ∀ i < r.length, CacheNode.deletes (r.event i) = false) {i : ℕ} (hi : i ≤ r.length) :
    (r.state i).writebacks = modifiedLosses r i ↔
      ∀ j < i, (r.state j).uncounted cfg (r.event j) = false := by
  have hcount := r.counter_eq_sum_iff CacheNode.writebacks
    (fun j => if (r.state j).uncounted cfg (r.event j) then 1 else 0)
    (fun j => ((r.state j).unmodified (r.state (j + 1))).card) rfl (fun j hj => ?_) hi
  · refine hcount.trans (forall₂_congr fun j _ => ?_)
    simp
  · have hact : (CacheNode.act cfg (r.event j) (r.state j)).1 = r.state (j + 1) :=
      Option.some.inj (r.state_succ j hj)
    rw [← hact]
    exact CacheNode.counts_act (r.event j) (hdelete j hj) (tracked_run r j (Nat.le_of_lt hj))
      fun hmax => inStep_run hmax r j (Nat.le_of_lt hj)

theorem writebacks_eq_counted : (countedRun.state 4).writebacks = modifiedLosses countedRun 4 :=
  (writebacks_eq_iff small countedRun (by decide +kernel) (le_refl countedRun.length)).mpr
    (by decide +kernel)

/-- Neither an invalidation nor an installed line counts the line that it takes away. -/
theorem writebacks_ne_invalidated :
    ((∀ i < invalidatedRun.length, CacheNode.deletes (invalidatedRun.event i) = false) ∧
      (invalidatedRun.state 2).writebacks = 0 ∧ modifiedLosses invalidatedRun 2 = 1) ∧
    (∀ i < replacedRun.length, CacheNode.deletes (replacedRun.event i) = false) ∧
      (replacedRun.state 4).writebacks = 0 ∧ modifiedLosses replacedRun 4 = 1 :=
  ⟨⟨by decide +kernel, by decide +kernel, by decide +kernel⟩, by decide +kernel,
    by decide +kernel, by decide +kernel⟩

end Run

end Cache
