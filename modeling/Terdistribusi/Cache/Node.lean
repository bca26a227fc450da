import Terdistribusi.Cache.Policy
import Terdistribusi.Infra.Network

/-!
# One cache node

The state and the operations of `CacheNode` (`src/nodes/cache_node.py`). An operation takes the node
as it is and returns the node as it becomes, together with the messages it sends and what it returns
to its caller.

A `get` that misses is two steps: it waits for its future after the first, and the second is
`resume`. The steps between are those of the message handlers and of other calls; `timeout` is the
timer of `wait_for`, which may also run out between the result of the future and `resume`.
-/

namespace Cache

open Infra

inductive MESIState
  | modified
  | exclusive
  | shared
  | invalid
  deriving DecidableEq

/-- A `CacheLine`; the dictionary has its key. -/
structure CacheLine (Value : Type) where
  value : Value
  state : MESIState
  version : ℕ
  deriving DecidableEq

/-- What a reply to a fetch says about the key. -/
structure Reply (Value : Type) where
  value : Value
  version : ℕ
  shared : Bool
  deriving DecidableEq

/-- The line that `get` makes of a reply. -/
def Reply.line {Value : Type} (reply : Reply Value) : CacheLine Value :=
  { value := reply.value, state := if reply.shared then .shared else .exclusive,
    version := reply.version }

/-- The future of a `get`. It is cancelled when the timer runs out. -/
inductive Future (Value : Type)
  | pending
  | result (reply : Reply Value)
  | cancelled
  deriving DecidableEq

/-- A `get` in `_bus_read`. -/
structure Read (Key Value : Type) where
  key : Key
  future : Future Value
  deriving DecidableEq

/-- The payloads, one constructor for each `MessageType` that a cache node sends. -/
inductive Payload (Key Value : Type)
  | cacheFetch (key : Key)
  | cacheResponse (key : Key) (reply : Reply Value)
  | cacheInvalidate (key : Key)
  deriving DecidableEq

/-- The message makes its receiver give up the key. -/
def Payload.invalidates {Key Value : Type} [DecidableEq Key] (key : Key) :
    Payload Key Value → Bool
  | .cacheInvalidate key' => key' = key
  | _ => false

/-- What `CacheNode.__init__` is called with; `lfu` is `eviction_policy.upper() == "LFU"`. -/
structure Config (NodeId : Type) where
  nodeId : NodeId
  peers : List NodeId
  maxSize : ℕ
  lfu : Bool

structure CacheNode (Key Value : Type) where
  cache : Dict Key (CacheLine Value) := Dict.empty
  policy : EvictionPolicy Key
  /-- The numbers of the futures that wait for a reply, by key. -/
  pendingReads : Dict Key ℕ := Dict.empty
  /-- Every `get` that is suspended, by the number of its future. -/
  reads : Dict ℕ (Read Key Value) := Dict.empty
  /-- The number of the next future. -/
  nextRead : ℕ := 0
  /-- The counter `m_writebacks`. -/
  writebacks : ℕ := 0

/-- Calls from outside, and what the event loop does with the `get` of a number. -/
inductive Call (Key Value : Type)
  | get (key : Key)
  | put (key : Key) (value : Value)
  | delete (key : Key)
  | timeout (id : ℕ)
  | resume (id : ℕ)
  deriving DecidableEq

namespace Config

/-- `__init__` -/
def init {NodeId Key Value : Type} (cfg : Config NodeId) : CacheNode Key Value :=
  { policy := if cfg.lfu then .lfu Dict.empty else .lru Dict.empty }

end Config

namespace CacheNode

variable {NodeId Key Value : Type} [DecidableEq Key]

/-! ## Eviction -/

/-- One round of the loop of `_ensure_capacity`, for the key that the policy has evicted. -/
def evictVictim (victimKey : Key) (policy : EvictionPolicy Key) (s : CacheNode Key Value) :
    CacheNode Key Value :=
  { s with
    policy := policy
    cache := s.cache.erase victimKey
    writebacks :=
      if (s.cache.get? victimKey).any fun line => line.state = .modified then s.writebacks + 1
      else s.writebacks }

/-- The loop of `_ensure_capacity` with at most `k` rounds left: the keys that it evicts, and the
node afterwards. -/
def evictLoop (maxSize : ℕ) : ℕ → CacheNode Key Value → List Key × CacheNode Key Value
  | 0, s => ([], s)
  | k + 1, s =>
    if maxSize ≤ s.cache.keys.length then
      match s.policy.evict with
      | none => ([], s)
      | some (victimKey, policy) =>
        let r := evictLoop maxSize k (s.evictVictim victimKey policy)
        (victimKey :: r.1, r.2)
    else ([], s)

/-- `_ensure_capacity`. Each round takes a key out of the policy. -/
def ensureCapacity (maxSize : ℕ) (s : CacheNode Key Value) : List Key × CacheNode Key Value :=
  evictLoop maxSize s.policy.keys.length s

/-- More rounds than the policy has keys make no difference. -/
theorem evictLoop_eq (maxSize : ℕ) : ∀ (k : ℕ) (s : CacheNode Key Value),
    s.policy.keys.length ≤ k → evictLoop maxSize k s = s.ensureCapacity maxSize
  | 0, s, h => by
    unfold ensureCapacity
    rw [Nat.le_zero.mp h]
  | k + 1, s, h => by
    unfold ensureCapacity
    cases hn : s.policy.keys.length with
    | zero =>
      have hnone := EvictionPolicy.evict_eq_none_of_keys (List.length_eq_zero_iff.mp hn)
      simp only [evictLoop, hnone]
      split <;> rfl
    | succ n =>
      simp only [evictLoop]
      split
      · split
        · rfl
        · next victimKey policy hv =>
          have hlt := EvictionPolicy.length_keys_of_evict hv
          have hk := evictLoop_eq maxSize k (s.evictVictim victimKey policy)
            (show policy.keys.length ≤ k by omega)
          have hn' := evictLoop_eq maxSize n (s.evictVictim victimKey policy)
            (show policy.keys.length ≤ n by omega)
          rw [hk, hn']
      · rfl

/-- **The loop of `_ensure_capacity`**: it stops when there is room or the policy has no key. -/
theorem ensureCapacity_eq (maxSize : ℕ) (s : CacheNode Key Value) : s.ensureCapacity maxSize =
    if maxSize ≤ s.cache.keys.length then
      match s.policy.evict with
      | none => ([], s)
      | some (victimKey, policy) =>
        let r := (s.evictVictim victimKey policy).ensureCapacity maxSize
        (victimKey :: r.1, r.2)
    else ([], s) := by
  rw [← evictLoop_eq maxSize (s.policy.keys.length + 1) s (Nat.le_succ _)]
  simp only [evictLoop]
  split
  · split
    · rfl
    · next victimKey policy hv =>
      have hlt := EvictionPolicy.length_keys_of_evict hv
      rw [evictLoop_eq maxSize _ (s.evictVictim victimKey policy) (Nat.le_of_lt hlt)]
  · rfl

/-! ## Operations -/

/-- The line that a reader may use. -/
def validLine? (key : Key) (s : CacheNode Key Value) : Option (CacheLine Value) :=
  (s.cache.get? key).filter fun line => line.state ≠ .invalid

variable (cfg : Config NodeId)

/-- `_bus_read` up to the wait for its future. -/
def busRead (key : Key) (s : CacheNode Key Value) :
    CacheNode Key Value × List (Message NodeId (Payload Key Value)) :=
  ({ s with
    pendingReads := s.pendingReads.set key s.nextRead
    reads := s.reads.set s.nextRead { key := key, future := .pending }
    nextRead := s.nextRead + 1 },
    Network.broadcast cfg.nodeId cfg.peers (.cacheFetch key))

/-- `get` up to its return or the wait of its `_bus_read`, with the value when it returns one. -/
def get (key : Key) (s : CacheNode Key Value) :
    Option Value × CacheNode Key Value × List (Message NodeId (Payload Key Value)) :=
  match s.validLine? key with
  | some line => (some line.value, { s with policy := s.policy.access key }, [])
  | none => (none, s.busRead cfg key)

/-- A new line goes into the cache, over what may be there. -/
def install (key : Key) (line : CacheLine Value) (s : CacheNode Key Value) : CacheNode Key Value :=
  let s := (s.ensureCapacity cfg.maxSize).2
  { s with cache := s.cache.set key line, policy := s.policy.insert key }

/-- The timer of a `get` runs out. -/
def timeout (id : ℕ) (s : CacheNode Key Value) : CacheNode Key Value :=
  match s.reads.get? id with
  | none => s
  | some read => { s with reads := s.reads.set id { read with future := .cancelled } }

/-- A suspended `get` goes on when its future is done, with what it returns. -/
def resume (id : ℕ) (s : CacheNode Key Value) : Option Value × CacheNode Key Value :=
  match s.reads.get? id with
  | none | some { future := .pending, .. } => (none, s)
  | some { key, future := .cancelled } =>
    (none, { s with reads := s.reads.erase id, pendingReads := s.pendingReads.erase key })
  | some { key, future := .result reply } =>
    let s := s.install cfg key reply.line
    (some reply.value, { s with reads := s.reads.erase id })

/-- `put`. The invalidations are sent first, but nothing happens between. -/
def put (key : Key) (value : Value) (s : CacheNode Key Value) :
    CacheNode Key Value × List (Message NodeId (Payload Key Value)) :=
  (match s.cache.get? key with
    | none => s.install cfg key { value := value, state := .modified, version := 1 }
    | some line =>
      { s with
        cache := s.cache.set key
          { value := value, state := .modified, version := line.version + 1 }
        policy := s.policy.access key },
    Network.broadcast cfg.nodeId cfg.peers (.cacheInvalidate key))

/-- `delete`, with what it returns. -/
def delete (key : Key) (s : CacheNode Key Value) :
    Bool × CacheNode Key Value × List (Message NodeId (Payload Key Value)) :=
  (s.cache.contains key,
    { s with cache := s.cache.erase key, policy := s.policy.remove key },
    Network.broadcast cfg.nodeId cfg.peers (.cacheInvalidate key))

/-! ## The handlers -/

def handleFetch (senderId : NodeId) (key : Key) (s : CacheNode Key Value) :
    CacheNode Key Value × List (Message NodeId (Payload Key Value)) :=
  match s.validLine? key with
  | none => (s, [])
  | some line =>
    ({ s with
      cache := s.cache.set key { line with state := .shared }
      writebacks := if line.state = .modified then s.writebacks + 1 else s.writebacks },
      Network.broadcast cfg.nodeId [senderId] (.cacheResponse key
        { value := line.value, version := line.version,
          shared := line.state = .shared ∨ line.state = .modified }))

/-- `_handle_response`; the result of a future that is done stays. -/
def handleResponse (key : Key) (reply : Reply Value) (s : CacheNode Key Value) :
    CacheNode Key Value :=
  match s.pendingReads.get? key with
  | none => s
  | some id =>
    { s with
      pendingReads := s.pendingReads.erase key
      reads :=
        match s.reads.get? id with
        | some { key := key', future := .pending } =>
          s.reads.set id { key := key', future := .result reply }
        | _ => s.reads }

/-- `_handle_invalidate`. The test of the state comes after the assignment to it. -/
def handleInvalidate (key : Key) (s : CacheNode Key Value) : CacheNode Key Value :=
  match s.cache.get? key with
  | none => s
  | some line =>
    let line := { line with state := .invalid }
    let s := { s with cache := s.cache.set key line, policy := s.policy.remove key }
    if line.state ≠ .modified then { s with cache := s.cache.erase key } else s

/-- A node takes a call or a message. -/
def act (inp : Input NodeId (Call Key Value) Unit (Payload Key Value)) (s : CacheNode Key Value) :
    CacheNode Key Value × List (Message NodeId (Payload Key Value)) :=
  match inp with
  | .call (.get key) => (s.get cfg key).2
  | .call (.put key value) => s.put cfg key value
  | .call (.delete key) => (s.delete cfg key).2
  | .call (.timeout id) => (s.timeout id, [])
  | .call (.resume id) => ((s.resume cfg id).2, [])
  | .receive _ m =>
    match m.payload with
    | .cacheFetch key => s.handleFetch cfg m.senderId key
    | .cacheResponse key reply => (s.handleResponse key reply, [])
    | .cacheInvalidate key => (s.handleInvalidate key, [])

end CacheNode

end Cache
