import Terdistribusi.Cache.Cluster

/-!
# What a step does to a line

`line_act` says once what an input can do to the line of a key, and `read_act` and `sent_act` where
the result of a future and a message come from. Nothing later looks at an operation again.
-/

namespace Cache

open Infra

variable {NodeId Key Value : Type} [DecidableEq Key]

namespace CacheNode

/-! ## Eviction -/

theorem evictLoop_frame (maxSize : ℕ) : ∀ (k : ℕ) (s : CacheNode Key Value),
    (evictLoop maxSize k s).2.reads = s.reads ∧
      (evictLoop maxSize k s).2.pendingReads = s.pendingReads ∧
      (evictLoop maxSize k s).2.nextRead = s.nextRead
  | 0, _ => ⟨rfl, rfl, rfl⟩
  | k + 1, s => by
    simp only [evictLoop]
    split
    · split
      · exact ⟨rfl, rfl, rfl⟩
      · next victimKey policy _ => exact evictLoop_frame maxSize k (s.evictVictim victimKey policy)
    · exact ⟨rfl, rfl, rfl⟩

theorem get?_evictLoop (maxSize : ℕ) (key : Key) : ∀ (k : ℕ) (s : CacheNode Key Value),
    (evictLoop maxSize k s).2.cache.get? key =
      if key ∈ (evictLoop maxSize k s).1 then none else s.cache.get? key
  | 0, _ => by simp [evictLoop]
  | k + 1, s => by
    simp only [evictLoop]
    split
    · split
      · simp
      · next victimKey policy _ =>
        have ih := get?_evictLoop maxSize key k (s.evictVictim victimKey policy)
        rw [show (s.evictVictim victimKey policy).cache = s.cache.erase victimKey from rfl,
          Dict.get?_erase] at ih
        simp only [ih, List.mem_cons]
        by_cases hk : victimKey = key
        · simp [hk]
        · simp [hk, Ne.symm hk]
    · simp

section Install

variable (cfg : Config NodeId) (s : CacheNode Key Value)

@[simp] theorem reads_ensureCapacity (n : ℕ) : (s.ensureCapacity n).2.reads = s.reads :=
  (evictLoop_frame n _ s).1

@[simp] theorem pendingReads_ensureCapacity (n : ℕ) :
    (s.ensureCapacity n).2.pendingReads = s.pendingReads :=
  (evictLoop_frame n _ s).2.1

@[simp] theorem nextRead_ensureCapacity (n : ℕ) : (s.ensureCapacity n).2.nextRead = s.nextRead :=
  (evictLoop_frame n _ s).2.2

theorem get?_ensureCapacity (n : ℕ) (key : Key) : (s.ensureCapacity n).2.cache.get? key =
    if key ∈ (s.ensureCapacity n).1 then none else s.cache.get? key :=
  get?_evictLoop n key _ s

@[simp] theorem reads_install (key : Key) (line : CacheLine Value) :
    (s.install cfg key line).reads = s.reads :=
  reads_ensureCapacity s cfg.maxSize

@[simp] theorem pendingReads_install (key : Key) (line : CacheLine Value) :
    (s.install cfg key line).pendingReads = s.pendingReads :=
  pendingReads_ensureCapacity s cfg.maxSize

@[simp] theorem nextRead_install (key : Key) (line : CacheLine Value) :
    (s.install cfg key line).nextRead = s.nextRead :=
  nextRead_ensureCapacity s cfg.maxSize

theorem get?_install (key key' : Key) (line : CacheLine Value) :
    (s.install cfg key line).cache.get? key' =
      if key = key' then some line
      else if key' ∈ (s.ensureCapacity cfg.maxSize).1 then none else s.cache.get? key' := by
  unfold install
  dsimp only
  rw [Dict.get?_set, get?_ensureCapacity]

end Install

/-! ## Lines -/

/-- What an input can make of the line of a key. -/
inductive LineStep (cfg : Config NodeId) (key : Key)
    (inp : Input NodeId (Call Key Value) Unit (Payload Key Value)) (s : CacheNode Key Value) :
    Option (CacheLine Value) → Prop
  | written (value : Value) (version : ℕ) (h : inp = .call (.put key value)) :
    LineStep cfg key inp s (some { value := value, state := .modified, version := version })
  | installed (reply : Reply Value) (h : s.installs key inp = some reply) :
    LineStep cfg key inp s (some reply.line)
  | dropped (hput : ∀ v, inp ≠ .call (.put key v)) (hinstalls : s.installs key inp = none)
      (h : s.drops cfg key inp = true) :
    LineStep cfg key inp s none
  | fetched (line : CacheLine Value) (h : s.answers key inp = some line) :
    LineStep cfg key inp s (some { line with state := .shared })
  | kept (hput : ∀ v, inp ≠ .call (.put key v)) (hinstalls : s.installs key inp = none)
      (hdrops : s.drops cfg key inp = false) (h : s.answers key inp = none) :
    LineStep cfg key inp s (s.cache.get? key)

variable {cfg : Config NodeId} {key : Key} {s : CacheNode Key Value}

theorem cache_of_validLine? {line : CacheLine Value} (h : s.validLine? key = some line) :
    s.cache.get? key = some line :=
  (Option.filter_eq_some_iff.mp h).1

theorem validLine?_of_answers {inp : Input NodeId (Call Key Value) Unit (Payload Key Value)}
    {line : CacheLine Value} (h : s.answers key inp = some line) :
    s.validLine? key = some line := by
  unfold answers at h
  split at h
  · split at h
    · split at h
      · exact h
      · cases h
    · cases h
  · cases h

theorem cache_of_answers {inp : Input NodeId (Call Key Value) Unit (Payload Key Value)}
    {line : CacheLine Value} (h : s.answers key inp = some line) :
    s.cache.get? key = some line :=
  cache_of_validLine? (validLine?_of_answers h)

/-- A line that is not written, installed or fetched is dropped or kept. -/
theorem LineStep.of_eq {inp : Input NodeId (Call Key Value) Unit (Payload Key Value)}
    {line : Option (CacheLine Value)} (hput : ∀ v, inp ≠ .call (.put key v))
    (hinstalls : s.installs key inp = none) (hanswers : s.answers key inp = none)
    (h : line = if s.drops cfg key inp then none else s.cache.get? key) :
    LineStep cfg key inp s line := by
  rw [h]
  split
  · next hd => exact .dropped hput hinstalls hd
  · next hd => exact .kept hput hinstalls (by simpa using hd) hanswers

theorem line_put (key' : Key) (value : Value) :
    LineStep cfg key (.call (.put key' value)) s ((s.put cfg key' value).1.cache.get? key) := by
  by_cases hk : key' = key
  · subst hk
    unfold put
    cases hline : s.cache.get? key' with
    | none =>
      dsimp only
      rw [get?_install, if_pos rfl]
      exact .written value _ rfl
    | some line =>
      dsimp only
      rw [Dict.get?_set_self]
      exact .written value _ rfl
  · refine .of_eq (fun v h => hk ?_) rfl rfl ?_
    · cases h
      rfl
    · cases hline : s.cache.get? key' with
      | none => simp [put, drops, evicted, hline, get?_install, hk]
      | some line => simp [put, drops, evicted, hline, Dict.get?_set_ne _ _ hk]

theorem line_resume (id : ℕ) :
    LineStep cfg key (.call (.resume id)) s ((s.resume cfg id).2.cache.get? key) := by
  unfold resume
  cases hread : s.reads.get? id with
  | none =>
    exact .of_eq (by simp) (by simp [installs, hread]) rfl (by simp [drops, evicted, hread])
  | some read =>
    obtain ⟨key', future⟩ := read
    cases future with
    | pending =>
      exact .of_eq (by simp) (by simp [installs, hread]) rfl (by simp [drops, evicted, hread])
    | cancelled =>
      exact .of_eq (by simp) (by simp [installs, hread]) rfl (by simp [drops, evicted, hread])
    | result reply =>
      dsimp only
      rw [get?_install]
      by_cases hk : key' = key
      · rw [if_pos hk]
        exact .installed reply (by simp [installs, hread, hk])
      · rw [if_neg hk]
        refine .of_eq (by simp) (by simp [installs, hread, hk]) rfl ?_
        simp [drops, evicted, hread]

theorem line_fetch (env : Unit) {m : Message NodeId (Payload Key Value)} {key' : Key}
    (hm : m.payload = .cacheFetch key') : LineStep cfg key (.receive env m) s
      ((s.handleFetch cfg m.senderId key').1.cache.get? key) := by
  have hkept (h : s.answers key (.receive env m) = none) :
      LineStep cfg key (.receive env m) s (s.cache.get? key) := by
    refine .of_eq (by simp) rfl h ?_
    simp [drops, hm, Payload.invalidates]
  unfold handleFetch
  by_cases hk : key' = key
  · subst hk
    cases hline : s.validLine? key' with
    | none => exact hkept (by simp [answers, hm, hline])
    | some line =>
      dsimp only
      rw [Dict.get?_set_self]
      exact .fetched line (by simp [answers, hm, hline])
  · have hnone : s.answers key (.receive env m) = none := by simp [answers, hm, hk]
    cases hline : s.validLine? key' with
    | none => exact hkept hnone
    | some line =>
      dsimp only
      rw [Dict.get?_set_ne _ _ hk]
      exact hkept hnone

theorem get?_handleResponse (key' : Key) (reply : Reply Value) :
    (s.handleResponse key' reply).cache = s.cache := by
  unfold handleResponse
  split <;> rfl

theorem get?_handleInvalidate (key' : Key) : (s.handleInvalidate key').cache.get? key =
    if key' = key then none else s.cache.get? key := by
  unfold handleInvalidate
  cases hline : s.cache.get? key' with
  | none =>
    by_cases hk : key' = key
    · subst hk
      rw [if_pos rfl]
      exact hline
    · rw [if_neg hk]
  | some line =>
    simp only [ne_eq, reduceCtorEq, not_false_eq_true, if_true]
    rw [Dict.erase_set, Dict.get?_erase]

/-- **What an input does to the line of a key.** -/
theorem line_act (cfg : Config NodeId) (key : Key) (s : CacheNode Key Value)
    (inp : Input NodeId (Call Key Value) Unit (Payload Key Value)) :
    LineStep cfg key inp s ((act cfg inp s).1.cache.get? key) := by
  cases inp with
  | call c =>
    cases c with
    | get key' =>
      refine .of_eq (by simp) rfl rfl ?_
      simp only [act, get]
      split <;> simp [drops, evicted, busRead]
    | put key' value => exact line_put key' value
    | delete key' =>
      refine .of_eq (by simp) rfl rfl ?_
      simp only [act, delete, Dict.get?_erase, drops]
      simp
    | timeout id =>
      refine .of_eq (by simp) rfl rfl ?_
      simp only [act, timeout]
      split <;> simp [drops, evicted]
    | resume id => exact line_resume id
  | receive env m =>
    cases hm : m.payload with
    | cacheFetch key' =>
      simp only [act, hm]
      exact line_fetch env hm
    | cacheResponse key' reply =>
      refine .of_eq (by simp) rfl (by simp [answers, hm]) ?_
      simp [act, hm, get?_handleResponse, drops, Payload.invalidates]
    | cacheInvalidate key' =>
      refine .of_eq (by simp) rfl (by simp [answers, hm]) ?_
      simp [act, hm, get?_handleInvalidate, drops, Payload.invalidates]

/-- What is fetched is not given up. -/
theorem drops_of_answers {inp : Input NodeId (Call Key Value) Unit (Payload Key Value)}
    {line : CacheLine Value} (h : s.answers key inp = some line) : s.drops cfg key inp = false := by
  unfold answers at h
  split at h
  · next env m =>
    split at h
    · next key' hm => simp [drops, hm, Payload.invalidates]
    · cases h
  · cases h

/-- **Where a line comes from** that is there after an input: it is put, brought by a reply,
fetched, or was there before. -/
theorem line_cases {inp : Input NodeId (Call Key Value) Unit (Payload Key Value)}
    {line : CacheLine Value} (h : (act cfg inp s).1.cache.get? key = some line) :
    (inp = .call (.put key line.value) ∧ line.state = .modified) ∨
      (∃ reply, s.installs key inp = some reply ∧ line = reply.line) ∨
      (∃ line', s.answers key inp = some line' ∧ line = { line' with state := .shared }) ∨
      (s.cache.get? key = some line ∧ s.drops cfg key inp = false ∧
        s.answers key inp = none) := by
  have hstep := line_act cfg key s inp
  generalize (act cfg inp s).1.cache.get? key = o at h hstep
  cases hstep with
  | written value version hinp =>
    cases h
    exact Or.inl ⟨hinp, rfl⟩
  | installed reply hi => exact Or.inr (Or.inl ⟨reply, hi, (Option.some.inj h).symm⟩)
  | dropped => cases h
  | fetched line' ha => exact Or.inr (Or.inr (Or.inl ⟨line', ha, (Option.some.inj h).symm⟩))
  | kept _ _ hdrops ha => exact Or.inr (Or.inr (Or.inr ⟨h, hdrops, ha⟩))

/-- The line that a `put` leaves. -/
theorem exists_line_put (cfg : Config NodeId) (key : Key) (s : CacheNode Key Value)
    (value : Value) : ∃ version, (act cfg (.call (.put key value)) s).1.cache.get? key =
      some { value := value, state := .modified, version := version } := by
  have hstep := line_act cfg key s (.call (.put key value))
  generalize (act cfg (.call (.put key value)) s).1.cache.get? key = o at hstep
  cases hstep with
  | written value' version h =>
    cases h
    exact ⟨version, rfl⟩
  | installed reply hi => cases hi
  | dropped hput => exact absurd rfl (hput value)
  | fetched line' ha => cases ha
  | kept hput => exact absurd rfl (hput value)

/-- A `get` that goes on with a reply has it as the result of its future. -/
theorem read_of_installs {inp : Input NodeId (Call Key Value) Unit (Payload Key Value)}
    {reply : Reply Value} (h : s.installs key inp = some reply) :
    ∃ id, inp = .call (.resume id) ∧
      s.reads.get? id = some { key := key, future := .result reply } := by
  unfold installs at h
  split at h
  · next id =>
    split at h
    · next key' reply' hread =>
      split at h
      · next hk =>
        subst hk
        cases h
        exact ⟨id, rfl, hread⟩
      · cases h
    · cases h
  · cases h

/-! ## What a reader gets -/

/-- The value that a `get` returns at once. -/
def value? (key : Key) (s : CacheNode Key Value) : Option Value :=
  (s.validLine? key).map CacheLine.value

theorem get_eq_value? (cfg : Config NodeId) (key : Key) (s : CacheNode Key Value) :
    (s.get cfg key).1 = s.value? key := by
  unfold get value?
  cases s.validLine? key <;> rfl

theorem validLine?_of_cache {line : CacheLine Value} (hline : s.cache.get? key = some line)
    (hvalid : line.state ≠ .invalid) : s.validLine? key = some line := by
  unfold validLine?
  rw [hline, Option.filter_some, if_pos (decide_eq_true hvalid)]

theorem installs_of_answers {inp : Input NodeId (Call Key Value) Unit (Payload Key Value)}
    {line : CacheLine Value} (h : s.answers key inp = some line) : s.installs key inp = none := by
  unfold answers at h
  split at h
  · rfl
  · cases h

/-- After a `put` a reader gets its value. -/
theorem value?_put (value : Value) :
    (act cfg (.call (.put key value)) s).1.value? key = some value := by
  obtain ⟨version, hline⟩ := exists_line_put cfg key s value
  unfold value?
  rw [validLine?_of_cache hline (by simp)]
  rfl

/-- **A reader gets the same before and after**, unless a reply is installed or the node puts the
key or gives it up. -/
theorem value?_act {inp : Input NodeId (Call Key Value) Unit (Payload Key Value)}
    (hput : ∀ v, inp ≠ .call (.put key v)) (hdrops : s.drops cfg key inp = false) :
    (act cfg inp s).1.value? key =
      ((s.installs key inp).map fun reply => some reply.value).getD (s.value? key) := by
  have hstep := line_act cfg key s inp
  generalize ho : (act cfg inp s).1.cache.get? key = o at hstep
  cases hstep with
  | written value version h => exact absurd h (hput value)
  | installed reply hi =>
    have hvalid : reply.line.state ≠ .invalid := by
      unfold Reply.line
      dsimp only
      split <;> simp
    unfold value?
    rw [validLine?_of_cache ho hvalid, hi]
    rfl
  | dropped _ _ h =>
    rw [hdrops] at h
    cases h
  | fetched line ha =>
    unfold value?
    rw [validLine?_of_cache ho (by simp), validLine?_of_answers ha, installs_of_answers ha]
    rfl
  | kept _ hinstalls =>
    unfold value? validLine?
    rw [ho, hinstalls]
    rfl

/-! ## Messages -/

/-- **Which messages an input makes a node send.** A reply has the line that its receiver asked
for. -/
theorem sent_act {inp : Input NodeId (Call Key Value) Unit (Payload Key Value)}
    {m : Message NodeId (Payload Key Value)} (h : m ∈ (act cfg inp s).2) :
    (∃ key, inp = .call (.get key) ∧ m.payload = .cacheFetch key) ∨
      (∃ key, ((∃ v, inp = .call (.put key v)) ∨ inp = .call (.delete key)) ∧
        m.payload = .cacheInvalidate key) ∨
      ∃ key line, s.answers key inp = some line ∧ m.payload = .cacheResponse key
        { value := line.value, version := line.version,
          shared := line.state = .shared ∨ line.state = .modified } := by
  cases inp with
  | call c =>
    cases c with
    | get key' =>
      simp only [act, get] at h
      split at h
      · cases h
      · exact Or.inl ⟨key', rfl, (Network.mem_broadcast.mp h).2.1⟩
    | put key' value =>
      exact Or.inr (Or.inl ⟨key', Or.inl ⟨value, rfl⟩, (Network.mem_broadcast.mp h).2.1⟩)
    | delete key' => exact Or.inr (Or.inl ⟨key', Or.inr rfl, (Network.mem_broadcast.mp h).2.1⟩)
    | timeout id => cases h
    | resume id => cases h
  | receive env x =>
    cases hx : x.payload with
    | cacheFetch key' =>
      simp only [act, hx, handleFetch] at h
      -- a fetch is answered only from a valid line
      cases hline : s.validLine? key' with
      | none =>
        rw [hline] at h
        cases h
      | some line =>
        rw [hline] at h
        refine Or.inr (Or.inr ⟨key', line, ?_, (Network.mem_broadcast.mp h).2.1⟩)
        simp [answers, hx, hline]
    | cacheResponse key' reply =>
      simp only [act, hx] at h
      cases h
    | cacheInvalidate key' =>
      simp only [act, hx] at h
      cases h

/-! ## Futures -/

/-- Where a suspended `get` that is there after an input comes from. -/
inductive ReadStep (cfg : Config NodeId)
    (inp : Input NodeId (Call Key Value) Unit (Payload Key Value)) (s : CacheNode Key Value)
    (id : ℕ) : Read Key Value → Prop
  | asked (key : Key) (h : inp = .call (.get key)) (hid : id = s.nextRead)
      (hnext : (act cfg inp s).1.nextRead = s.nextRead + 1) :
    ReadStep cfg inp s id { key := key, future := .pending }
  | answered (env : Unit) (m : Message NodeId (Payload Key Value)) (key key' : Key)
      (reply : Reply Value) (h : inp = .receive env m)
      (hm : m.payload = .cacheResponse key reply) (hpending : s.pendingReads.get? key = some id)
      (hread : s.reads.get? id = some { key := key', future := .pending }) :
    ReadStep cfg inp s id { key := key', future := .result reply }
  | cancelled (read : Read Key Value) (h : inp = .call (.timeout id))
      (hread : s.reads.get? id = some read) :
    ReadStep cfg inp s id { read with future := .cancelled }
  | kept (read : Read Key Value) (hread : s.reads.get? id = some read) :
    ReadStep cfg inp s id read

/-- The futures are the same. -/
structure SameFutures (s s' : CacheNode Key Value) : Prop where
  reads : s'.reads = s.reads
  pendingReads : s'.pendingReads = s.pendingReads
  nextRead : s'.nextRead = s.nextRead

/-- No future is new or has changed. -/
structure Forgets (s s' : CacheNode Key Value) : Prop where
  reads : ∀ id read, s'.reads.get? id = some read → s.reads.get? id = some read
  pendingReads : ∀ key id, s'.pendingReads.get? key = some id → s.pendingReads.get? key = some id
  nextRead : s'.nextRead = s.nextRead

theorem SameFutures.forgets {s' : CacheNode Key Value} (h : SameFutures s s') : Forgets s s' :=
  ⟨fun _ _ hr => h.reads ▸ hr, fun _ _ hp => h.pendingReads ▸ hp, h.nextRead⟩

theorem sameFutures_put (key' : Key) (value : Value) :
    SameFutures s (s.put cfg key' value).1 := by
  unfold put
  cases s.cache.get? key' with
  | none => exact ⟨by simp, by simp, by simp⟩
  | some line => exact ⟨rfl, rfl, rfl⟩

theorem forgets_resume (id : ℕ) : Forgets s (s.resume cfg id).2 := by
  unfold resume
  split
  · exact SameFutures.forgets ⟨rfl, rfl, rfl⟩
  · exact SameFutures.forgets ⟨rfl, rfl, rfl⟩
  · exact ⟨fun _ _ => Dict.get?_of_get?_erase, fun _ _ => Dict.get?_of_get?_erase, rfl⟩
  · next key reply _ =>
    refine ⟨fun id' read h => ?_, fun key id' h => ?_, nextRead_install cfg s key reply.line⟩
    · dsimp only at h
      rw [reads_install] at h
      exact Dict.get?_of_get?_erase h
    · dsimp only at h
      rwa [pendingReads_install] at h

theorem sameFutures_handleFetch (a : NodeId) (key' : Key) :
    SameFutures s (s.handleFetch cfg a key').1 := by
  unfold handleFetch
  split <;> exact ⟨rfl, rfl, rfl⟩

theorem sameFutures_handleInvalidate (key' : Key) : SameFutures s (s.handleInvalidate key') := by
  unfold handleInvalidate
  split
  · exact ⟨rfl, rfl, rfl⟩
  · dsimp only
    split <;> exact ⟨rfl, rfl, rfl⟩

/-- **Which inputs touch a future**: a `get`, a timer, a `get` that goes on, and a reply. -/
theorem sameFutures_cases (cfg : Config NodeId) (s : CacheNode Key Value)
    (inp : Input NodeId (Call Key Value) Unit (Payload Key Value)) :
    (∃ key, inp = .call (.get key)) ∨ (∃ id, inp = .call (.timeout id)) ∨
      (∃ id, inp = .call (.resume id)) ∨
      (∃ env m key reply, inp = .receive env m ∧ m.payload = .cacheResponse key reply) ∨
      SameFutures s (act cfg inp s).1 := by
  cases inp with
  | call c =>
    cases c with
    | get key => exact Or.inl ⟨key, rfl⟩
    | put key value => exact Or.inr (Or.inr (Or.inr (Or.inr (sameFutures_put key value))))
    | delete key => exact Or.inr (Or.inr (Or.inr (Or.inr ⟨rfl, rfl, rfl⟩)))
    | timeout id => exact Or.inr (Or.inl ⟨id, rfl⟩)
    | resume id => exact Or.inr (Or.inr (Or.inl ⟨id, rfl⟩))
  | receive env m =>
    cases hm : m.payload with
    | cacheFetch key =>
      refine Or.inr (Or.inr (Or.inr (Or.inr ?_)))
      simp only [act, hm]
      exact sameFutures_handleFetch m.senderId key
    | cacheResponse key reply =>
      exact Or.inr (Or.inr (Or.inr (Or.inl ⟨env, m, key, reply, rfl, hm⟩)))
    | cacheInvalidate key =>
      refine Or.inr (Or.inr (Or.inr (Or.inr ?_)))
      simp only [act, hm]
      exact sameFutures_handleInvalidate key

/-- **Which inputs change a future**: a `get`, a timer and a reply. -/
theorem futures_cases (cfg : Config NodeId) (s : CacheNode Key Value)
    (inp : Input NodeId (Call Key Value) Unit (Payload Key Value)) :
    (∃ key, inp = .call (.get key)) ∨ (∃ id, inp = .call (.timeout id)) ∨
      (∃ env m key reply, inp = .receive env m ∧ m.payload = .cacheResponse key reply) ∨
      Forgets s (act cfg inp s).1 := by
  rcases sameFutures_cases cfg s inp with h | h | ⟨id, rfl⟩ | h | h
  · exact Or.inl h
  · exact Or.inr (Or.inl h)
  · exact Or.inr (Or.inr (Or.inr (forgets_resume id)))
  · exact Or.inr (Or.inr (Or.inl h))
  · exact Or.inr (Or.inr (Or.inr h.forgets))

/-- **Where the futures after an input come from.** -/
theorem read_act {inp : Input NodeId (Call Key Value) Unit (Payload Key Value)} {id : ℕ}
    {read : Read Key Value} (h : (act cfg inp s).1.reads.get? id = some read) :
    ReadStep cfg inp s id read := by
  rcases futures_cases cfg s inp with ⟨key, rfl⟩ | ⟨id', rfl⟩ | ⟨env, m, key, reply, rfl, hm⟩ | hf
  · simp only [act, get] at h
    split at h
    · exact .kept read h
    · next hline =>
      -- a miss begins a new read
      simp only [busRead, Dict.get?_set] at h
      split at h
      · next hid =>
        obtain rfl := Option.some.inj h
        refine .asked key rfl hid.symm ?_
        simp [act, get, hline, busRead]
      · exact .kept read h
  · simp only [act, timeout] at h
    split at h
    · exact .kept read h
    · next read' hread =>
      simp only [Dict.get?_set] at h
      split at h
      · next hid =>
        subst hid
        obtain rfl := Option.some.inj h
        exact .cancelled read' rfl hread
      · exact .kept read h
  · simp only [act, hm, handleResponse] at h
    split at h
    · exact .kept read h
    · next id' hpending =>
      dsimp only at h
      split at h
      · next key' hread =>
        rw [Dict.get?_set] at h
        split at h
        · next hid =>
          subst hid
          obtain rfl := Option.some.inj h
          exact .answered env m key key' reply rfl hm hpending hread
        · exact .kept read h
      · exact .kept read h
  · exact .kept read (hf.reads id read h)

/-- The numbers of futures only grow, and only a `get` adds one that waits. -/
theorem pending_act (cfg : Config NodeId) (s : CacheNode Key Value)
    (inp : Input NodeId (Call Key Value) Unit (Payload Key Value)) :
    s.nextRead ≤ (act cfg inp s).1.nextRead ∧
      ∀ key id, (act cfg inp s).1.pendingReads.get? key = some id →
        s.pendingReads.get? key = some id ∨
          inp = .call (.get key) ∧ id = s.nextRead ∧
            (act cfg inp s).1.nextRead = s.nextRead + 1 := by
  rcases futures_cases cfg s inp with ⟨key, rfl⟩ | ⟨id, rfl⟩ | ⟨env, m, key, reply, rfl, hm⟩ | hf
  · simp only [act, get]
    split
    · exact ⟨Nat.le_refl _, fun _ _ h => Or.inl h⟩
    · refine ⟨Nat.le_succ _, fun key' id h => ?_⟩
      simp only [busRead, Dict.get?_set] at h
      split at h
      · next hk =>
        subst hk
        exact Or.inr ⟨rfl, (Option.some.inj h).symm, rfl⟩
      · exact Or.inl h
  · simp only [act, timeout]
    split <;> exact ⟨Nat.le_refl _, fun _ _ h => Or.inl h⟩
  · simp only [act, hm, handleResponse]
    split
    · exact ⟨Nat.le_refl _, fun _ _ h => Or.inl h⟩
    · exact ⟨Nat.le_refl _, fun _ _ h => Or.inl (Dict.get?_of_get?_erase h)⟩
  · exact ⟨Nat.le_of_eq hf.nextRead.symm, fun key id h => Or.inl (hf.pendingReads key id h)⟩

end CacheNode

end Cache
