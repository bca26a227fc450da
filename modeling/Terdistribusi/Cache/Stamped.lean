import Terdistribusi.Cache.Cluster
import Terdistribusi.Infra.Erasure

/-!
# Values with the time of their write

A cache node never looks at its values, so a run can be carried out with values that also say which
event of the run has written them (`ClusterRun.stamped`). Nothing else changes: without the stamps
it is the run itself (`ClusterRun.erase_stamped`).
-/

namespace Cache

open Infra

section Map

variable {NodeId Key Value Value' : Type} (f : Value' → Value)

def CacheLine.map (line : CacheLine Value') : CacheLine Value :=
  { value := f line.value, state := line.state, version := line.version }

def Reply.map (reply : Reply Value') : Reply Value :=
  { value := f reply.value, version := reply.version, shared := reply.shared }

def Future.map : Future Value' → Future Value
  | .pending => .pending
  | .result reply => .result (reply.map f)
  | .cancelled => .cancelled

def Read.map (read : Read Key Value') : Read Key Value :=
  { key := read.key, future := read.future.map f }

def Payload.map : Payload Key Value' → Payload Key Value
  | .cacheFetch key => .cacheFetch key
  | .cacheResponse key reply => .cacheResponse key (reply.map f)
  | .cacheInvalidate key => .cacheInvalidate key

def Call.map : Call Key Value' → Call Key Value
  | .get key => .get key
  | .put key value => .put key (f value)
  | .delete key => .delete key
  | .timeout id => .timeout id
  | .resume id => .resume id

namespace CacheNode

def map (s : CacheNode Key Value') : CacheNode Key Value :=
  { cache := s.cache.mapValues (CacheLine.map f)
    policy := s.policy
    pendingReads := s.pendingReads
    reads := s.reads.mapValues (Read.map f)
    nextRead := s.nextRead
    writebacks := s.writebacks }

variable [DecidableEq Key] (s : CacheNode Key Value')

theorem map_evictVictim (key : Key) (policy : EvictionPolicy Key) :
    (s.map f).evictVictim key policy = (s.evictVictim key policy).map f := by
  unfold evictVictim map
  dsimp only
  rw [Dict.get?_mapValues, Option.any_map, Dict.mapValues_erase]
  rfl

theorem map_evictLoop (n : ℕ) : ∀ (k : ℕ) (s : CacheNode Key Value'),
    evictLoop n k (s.map f) = ((evictLoop n k s).1, (evictLoop n k s).2.map f)
  | 0, _ => rfl
  | k + 1, s => by
    have hlen : (s.map f).cache.keys.length = s.cache.keys.length := by
      unfold map
      rw [Dict.keys_mapValues]
    simp only [evictLoop, hlen, show (s.map f).policy = s.policy from rfl]
    split
    · split
      · rfl
      · rw [map_evictVictim, map_evictLoop n k]
    · rfl

theorem map_ensureCapacity (n : ℕ) :
    (s.map f).ensureCapacity n = ((s.ensureCapacity n).1, (s.ensureCapacity n).2.map f) :=
  map_evictLoop f n _ s

theorem map_validLine? (key : Key) :
    (s.map f).validLine? key = (s.validLine? key).map (CacheLine.map f) := by
  unfold validLine? map
  rw [Dict.get?_mapValues]
  cases s.cache.get? key with
  | none => rfl
  | some line =>
    rw [Option.map_some, Option.filter_some, Option.filter_some]
    split
    · next h => rw [if_pos (by exact h)]; rfl
    · next h => rw [if_neg (by exact h)]; rfl

variable (cfg : Config NodeId)

theorem map_install (key : Key) (line : CacheLine Value') :
    (s.map f).install cfg key (line.map f) = (s.install cfg key line).map f := by
  unfold install
  rw [map_ensureCapacity]
  unfold map
  dsimp only
  rw [Dict.mapValues_set]

theorem map_put (key : Key) (value : Value') : (s.map f).put cfg key (f value) =
    ((s.put cfg key value).1.map f, (s.put cfg key value).2.map (Message.map (Payload.map f))) := by
  have hget : (s.map f).cache.get? key = (s.cache.get? key).map (CacheLine.map f) :=
    Dict.get?_mapValues _ s.cache key
  unfold put
  rw [hget, Network.map_broadcast]
  cases s.cache.get? key with
  | none =>
    exact Prod.ext
      (map_install f s cfg key { value := value, state := .modified, version := 1 }) rfl
  | some line =>
    refine Prod.ext ?_ rfl
    unfold map
    dsimp only [Option.map_some]
    rw [Dict.mapValues_set]
    rfl

theorem map_resume (id : ℕ) : ((s.map f).resume cfg id).2 = (s.resume cfg id).2.map f := by
  have hget : (s.map f).reads.get? id = (s.reads.get? id).map (Read.map f) :=
    Dict.get?_mapValues _ s.reads id
  unfold resume
  rw [hget]
  cases s.reads.get? id with
  | none => rfl
  | some read =>
    obtain ⟨key, future⟩ := read
    cases future with
    | pending => rfl
    | cancelled =>
      unfold map
      dsimp only [Option.map_some, Read.map, Future.map]
      rw [Dict.mapValues_erase]
    | result reply =>
      have hinstall := map_install f s cfg key reply.line
      dsimp only [Option.map_some, Read.map, Future.map]
      rw [show (reply.map f).line = reply.line.map f from rfl, hinstall]
      unfold map
      dsimp only
      rw [Dict.mapValues_erase]

omit [DecidableEq Key] in
theorem map_timeout (id : ℕ) : (s.map f).timeout id = (s.timeout id).map f := by
  have hget : (s.map f).reads.get? id = (s.reads.get? id).map (Read.map f) :=
    Dict.get?_mapValues _ s.reads id
  unfold timeout
  rw [hget]
  cases s.reads.get? id with
  | none => rfl
  | some read =>
    unfold map
    dsimp only [Option.map_some]
    rw [Dict.mapValues_set]
    rfl

theorem map_get (key : Key) : ((s.map f).get cfg key).2 =
    ((s.get cfg key).2.1.map f, (s.get cfg key).2.2.map (Message.map (Payload.map f))) := by
  unfold get
  rw [map_validLine?]
  cases s.validLine? key with
  | none =>
    unfold busRead
    dsimp only [Option.map_none]
    rw [Network.map_broadcast]
    refine Prod.ext ?_ rfl
    unfold map
    dsimp only
    rw [Dict.mapValues_set]
    rfl
  | some line => rfl

theorem map_delete (key : Key) : ((s.map f).delete cfg key).2 =
    ((s.delete cfg key).2.1.map f, (s.delete cfg key).2.2.map (Message.map (Payload.map f))) := by
  unfold delete
  dsimp only
  rw [Network.map_broadcast]
  refine Prod.ext ?_ rfl
  unfold map
  dsimp only
  rw [Dict.mapValues_erase]

theorem map_handleFetch (a : NodeId) (key : Key) : (s.map f).handleFetch cfg a key =
    ((s.handleFetch cfg a key).1.map f,
      (s.handleFetch cfg a key).2.map (Message.map (Payload.map f))) := by
  unfold handleFetch
  rw [map_validLine?]
  cases s.validLine? key with
  | none => rfl
  | some line =>
    dsimp only [Option.map_some]
    rw [Network.map_broadcast]
    refine Prod.ext ?_ rfl
    unfold map
    dsimp only
    rw [Dict.mapValues_set]
    rfl

theorem map_handleResponse (key : Key) (reply : Reply Value') :
    (s.map f).handleResponse key (reply.map f) = (s.handleResponse key reply).map f := by
  unfold handleResponse
  rw [show (s.map f).pendingReads = s.pendingReads from rfl]
  cases s.pendingReads.get? key with
  | none => rfl
  | some id =>
    unfold map
    dsimp only
    rw [Dict.get?_mapValues]
    cases s.reads.get? id with
    | none => rfl
    | some read =>
      obtain ⟨key', future⟩ := read
      cases future with
      | pending =>
        dsimp only [Option.map_some, Read.map, Future.map]
        rw [Dict.mapValues_set]
        rfl
      | result reply' => rfl
      | cancelled => rfl

theorem map_handleInvalidate (key : Key) :
    (s.map f).handleInvalidate key = (s.handleInvalidate key).map f := by
  have hget : (s.map f).cache.get? key = (s.cache.get? key).map (CacheLine.map f) :=
    Dict.get?_mapValues _ s.cache key
  unfold handleInvalidate
  rw [hget]
  cases s.cache.get? key with
  | none => rfl
  | some line =>
    unfold map
    simp [CacheLine.map]

/-- **A node never looks at its values.** -/
theorem map_act (inp : Input NodeId (Call Key Value') Unit (Payload Key Value')) :
    act cfg (inp.map (Call.map f) (Payload.map f)) (s.map f) =
      ((act cfg inp s).1.map f, (act cfg inp s).2.map (Message.map (Payload.map f))) := by
  cases inp with
  | call c =>
    cases c with
    | get key => exact map_get f s cfg key
    | put key value => exact map_put f s cfg key value
    | delete key => exact map_delete f s cfg key
    | timeout id => exact Prod.ext (map_timeout f s id) rfl
    | resume id => exact Prod.ext (map_resume f s cfg id) rfl
  | receive env m =>
    obtain ⟨senderId, receiverId, payload⟩ := m
    cases payload with
    | cacheFetch key => exact map_handleFetch f s cfg senderId key
    | cacheResponse key reply => exact Prod.ext (map_handleResponse f s key reply) rfl
    | cacheInvalidate key => exact Prod.ext (map_handleInvalidate f s key) rfl

end CacheNode

end Map

variable {NodeId Key Value : Type} [DecidableEq NodeId] [DecidableEq Key] {ms : Members NodeId}

/-- Without the stamps. -/
abbrev erase (s : Cluster NodeId Key (Value × ℕ)) : Cluster NodeId Key Value :=
  s.map (CacheNode.map Prod.fst) (Payload.map Prod.fst)

/-- The event at time `i`, with its value stamped. -/
def stampEvent (i : ℕ) : Event NodeId Key Value → Event NodeId Key (Value × ℕ) :=
  Network.Event.map (Call.map fun v => (v, i)) (Payload.map fun v => (v, i))

theorem erases (ms : Members NodeId) (faulty : Finset NodeId) :
    Erases (step ms faulty) (step ms faulty) (erase : Cluster NodeId Key (Value × ℕ) → _)
      (Network.Event.map (Call.map Prod.fst) (Payload.map Prod.fst)) :=
  Network.erases faulty fun a inp n => CacheNode.map_act Prod.fst n (ms.config a) inp

omit [DecidableEq NodeId] [DecidableEq Key] in
theorem erase_stampEvent (i : ℕ) (e : Event NodeId Key Value) :
    (stampEvent i e).map (Call.map Prod.fst) (Payload.map Prod.fst) = e := by
  cases e with
  | call a c => cases c <;> rfl
  | deliver a k env => rfl
  | drop a k => rfl
  | forge m =>
    obtain ⟨senderId, receiverId, payload⟩ := m
    cases payload <;> rfl

namespace ClusterRun

variable (run : ClusterRun ms ∅ Key Value)

/-- The same run, with every value stamped by the event that writes it. -/
def stamped : ClusterRun ms ∅ Key (Value × ℕ) :=
  Run.lift (erases ms ∅) run (fun i => stampEvent i (run.event i))
    fun i => erase_stampEvent i (run.event i)

theorem erase_stamped {i : ℕ} (hi : i ≤ run.length) :
    erase (run.stamped.state i) = run.state i :=
  Run.erase_lift ms.initial (erases ms ∅) run _ _ hi

end ClusterRun

end Cache
