import Terdistribusi.Cache.Properties.Sound

/-!
# Where a value comes from

Values go from node to node in replies, lines are evicted and invalidated, replies are overtaken and
futures replaced. Whatever happens, a value is only ever seen under a key under which it was put,
and its version counts a chain of `put`s, each of which found the value of the one before in its
cache.

* `CacheNode.Holds` — something holds of every line and every result of a node
* `ClusterRun.Chain` — `put`s of a key that go on from each other
* `ClusterRun.values_put`
-/

namespace Cache

open Infra

variable {NodeId Key Value : Type} [DecidableEq Key]

namespace CacheNode

/-- What a call returns to a `get` of a key: the `get` itself, or the step with which it goes on. -/
def given (cfg : Config NodeId) (c : Call Key Value) (s : CacheNode Key Value) :
    Option (Key × Value) :=
  match c with
  | .get key => (s.get cfg key).1.map fun value => (key, value)
  | .resume id =>
    (s.reads.get? id).bind fun read => (s.resume cfg id).1.map fun value => (read.key, value)
  | _ => none

/-- `P` holds of the key, the value and the version of every line and of every result. -/
structure Holds (P : Key → Value → ℕ → Prop) (s : CacheNode Key Value) : Prop where
  line : ∀ key line, s.cache.get? key = some line → P key line.value line.version
  reply : ∀ id key reply, s.reads.get? id = some { key := key, future := .result reply } →
    P key reply.value reply.version

/-- `P` holds of a reply. -/
def Brings (P : Key → Value → ℕ → Prop) (p : Payload Key Value) : Prop :=
  ∀ key reply, p = .cacheResponse key reply → P key reply.value reply.version

variable {P Q : Key → Value → ℕ → Prop} {cfg : Config NodeId} {s : CacheNode Key Value}
  {inp : Input NodeId (Call Key Value) Unit (Payload Key Value)}

theorem Holds.mono (h : s.Holds P) (hpq : ∀ key value version, P key value version →
    Q key value version) : s.Holds Q where
  line := fun key line hline => hpq _ _ _ (h.line key line hline)
  reply := fun id key reply hread => hpq _ _ _ (h.reply id key reply hread)

theorem Holds.init (cfg : Config NodeId) (P : Key → Value → ℕ → Prop) :
    (cfg.init : CacheNode Key Value).Holds P where
  line := fun _ _ h => by cases h
  reply := fun _ _ _ h => by cases h

omit [DecidableEq Key] in
theorem Brings.mono {p : Payload Key Value} (h : Brings P p)
    (hpq : ∀ key value version, P key value version → Q key value version) : Brings Q p :=
  fun key reply hp => hpq _ _ _ (h key reply hp)

/-- The version of the line, `0` when there is none. -/
def version (key : Key) (s : CacheNode Key Value) : ℕ :=
  ((s.cache.get? key).map CacheLine.version).getD 0

/-- A `put` counts up the version of what it finds. -/
theorem line_of_put (cfg : Config NodeId) (key : Key) (value : Value) (s : CacheNode Key Value) :
    (act cfg (.call (.put key value)) s).1.cache.get? key =
      some { value := value, state := .modified, version := s.version key + 1 } := by
  simp only [act, put, version]
  cases hline : s.cache.get? key with
  | none => simp [get?_install]
  | some line => simp

/-- **A node has nothing but what was put there or was brought to it.** -/
theorem Holds.act (hs : s.Sound) (h : s.Holds P)
    (hm : ∀ env m, inp = .receive env m → Brings P m.payload)
    (hput : ∀ key value, inp = .call (.put key value) → P key value (s.version key + 1)) :
    (act cfg inp s).1.Holds P ∧ ∀ m ∈ (act cfg inp s).2, Brings P m.payload := by
  refine ⟨⟨fun key line hline => ?_, fun id key reply hread => ?_⟩, fun m hsent key reply hp => ?_⟩
  · rcases line_cases hline with ⟨rfl, -⟩ | ⟨reply, hi, rfl⟩ | ⟨line', ha, rfl⟩ | ⟨hold, -, -⟩
    · rw [line_of_put] at hline
      rw [← Option.some.inj hline]
      exact hput key line.value rfl
    · obtain ⟨id, -, hread⟩ := read_of_installs hi
      exact h.reply id key reply hread
    · exact h.line key line' (cache_of_answers ha)
    · exact h.line key line hold
  · generalize hr : ({ key := key, future := .result reply } : Read Key Value) = r at hread
    cases read_act hread with
    | asked => cases hr
    | answered env m key' key'' reply' hinp hpayload hpending hread' =>
      cases hr
      -- the future waits under its own key
      have hkey : key = key' := hs.key key' id _ hpending hread'
      rw [hkey]
      exact hm env m hinp key' reply hpayload
    | cancelled => cases hr
    | kept _ hread' =>
      subst hr
      exact h.reply id key reply hread'
  · rcases sent_act hsent with ⟨_, -, hp'⟩ | ⟨_, -, hp'⟩ | ⟨key', line, ha, hp'⟩
    · simp [hp'] at hp
    · simp [hp'] at hp
    · rw [hp'] at hp
      cases hp
      exact h.line key line (cache_of_answers ha)

/-- **What a `get` returns was in a line or in its result.** -/
theorem Holds.given (h : s.Holds P) {c : Call Key Value} {key : Key} {value : Value}
    (hc : s.given cfg c = some (key, value)) : ∃ version, P key value version := by
  cases c with
  | get key' =>
    obtain ⟨value', hget, hpair⟩ := Option.map_eq_some_iff.mp hc
    cases hpair
    rw [get_eq_value?] at hget
    obtain ⟨line, hline, rfl⟩ := Option.map_eq_some_iff.mp hget
    exact ⟨line.version, h.line key line (cache_of_validLine? hline)⟩
  | resume id =>
    obtain ⟨⟨key', future⟩, hread, hresume⟩ := Option.bind_eq_some_iff.mp hc
    obtain ⟨value', hvalue, hpair⟩ := Option.map_eq_some_iff.mp hresume
    cases hpair
    cases future with
    | pending => simp [resume, hread] at hvalue
    | cancelled => simp [resume, hread] at hvalue
    | result reply =>
      have hreply : reply.value = value := by simpa [resume, hread] using hvalue
      exact ⟨reply.version, hreply ▸ h.reply id key' reply hread⟩
  | put key' value' => cases hc
  | delete key' => cases hc
  | timeout id => cases hc

end CacheNode

/-! ## Runs -/

namespace ClusterRun

variable [DecidableEq NodeId] {ms : Members NodeId} (run : ClusterRun ms ∅ Key Value)

/-- The steps `puts`, the last one first, put the key. The first one found no line of the key at its
node, and each of the others the value of the one before it; the last one put `value`. -/
inductive Chain (key : Key) : List ℕ → Value → Prop
  | first {i : ℕ} {a : NodeId} {value : Value} (hi : i < run.length)
    (hput : run.event i = .call a (.put key value))
    (hline : ((run.state i).nodes a).cache.get? key = none) : Chain key [i] value
  | next {i : ℕ} {a : NodeId} {value : Value} {line : CacheLine Value} {puts : List ℕ}
    (hi : i < run.length) (hput : run.event i = .call a (.put key value))
    (hline : ((run.state i).nodes a).cache.get? key = some line)
    (hversion : puts.length = line.version) (hlt : ∀ j ∈ puts, j < i)
    (hchain : Chain key puts line.value) : Chain key (i :: puts) value

/-- The value was put under the key before time `i`, by the last of a chain of `version` `put`s. -/
def Put (i : ℕ) (key : Key) (value : Value) (version : ℕ) : Prop :=
  ∃ puts, Chain run key puts value ∧ puts.length = version ∧ ∀ j ∈ puts, j < i

variable {run} {i : ℕ} {key : Key} {value : Value} {version : ℕ}

theorem Put.succ (h : Put run i key value version) : Put run (i + 1) key value version := by
  obtain ⟨puts, hchain, hlen, hlt⟩ := h
  exact ⟨puts, hchain, hlen, fun j hj => Nat.lt_succ_of_lt (hlt j hj)⟩

/-- A `put` goes on from the chain of the line that it finds. -/
theorem put_put {a : NodeId} (hi : i < run.length) (hput : run.event i = .call a (.put key value))
    (h : ((run.state i).nodes a).Holds (Put run i)) :
    Put run (i + 1) key value (((run.state i).nodes a).version key + 1) := by
  unfold CacheNode.version
  cases hline : ((run.state i).nodes a).cache.get? key with
  | none => exact ⟨[i], .first hi hput hline, rfl, by simp⟩
  | some line =>
    obtain ⟨puts, hchain, hlen, hlt⟩ := h.line key line hline
    refine ⟨i :: puts, .next hi hput hline hlen hlt hchain, by simp [hlen], fun j hj => ?_⟩
    rcases List.mem_cons.mp hj with rfl | hj
    · exact Nat.lt_succ_self j
    · exact Nat.lt_succ_of_lt (hlt j hj)

variable (run)

theorem holds : ∀ i ≤ run.length, (∀ a, ((run.state i).nodes a).Holds (Put run i)) ∧
    ∀ a, ∀ m ∈ (run.state i).inbox a, CacheNode.Brings (Put run i) m.payload := by
  refine run.induction ?_ fun i hi h => ?_
  · rw [run.state_zero]
    exact ⟨fun a => .init (ms.config a) _, fun a m hm => by cases hm⟩
  · have hnodes (a : NodeId) : ((run.state i).nodes a).Holds (Put run (i + 1)) :=
      (h.1 a).mono fun _ _ _ hput => hput.succ
    have hinbox (a : NodeId) (m) (hm : m ∈ (run.state i).inbox a) :
        CacheNode.Brings (Put run (i + 1)) m.payload :=
      (h.2 a m hm).mono fun _ _ _ hput => hput.succ
    refine Network.everywhere_succ (M := fun _ m => CacheNode.Brings (Put run (i + 1)) m.payload)
      (run.state_succ i hi) hnodes hinbox fun a inp hinput hreceived => ?_
    refine (hnodes a).act ((run.sound i (Nat.le_of_lt hi)).1 a) hreceived fun key value hput => ?_
    subst hput
    exact put_put hi (Network.input?_call hinput) (h.1 a)

/-- **No value comes out of thin air.** At every time of every run, the value of every line and of
every reply in flight, and every value that a `get` would return, was put under the same key before,
by the last of a chain of as many `put`s as its version says. -/
theorem values_put : ∀ i ≤ run.length, ∀ a key,
    (∀ line, ((run.state i).nodes a).cache.get? key = some line →
      Put run i key line.value line.version) ∧
    (∀ m ∈ (run.state i).inbox a, ∀ reply, m.payload = .cacheResponse key reply →
      Put run i key reply.value reply.version) ∧
    ∀ c value, ((run.state i).nodes a).given (ms.config a) c = some (key, value) →
      ∃ version, Put run i key value version := by
  intro i hi a key
  obtain ⟨hnodes, hinbox⟩ := holds run i hi
  exact ⟨fun line hline => (hnodes a).line key line hline,
    fun m hm reply hp => hinbox a m hm key reply hp, fun c value hc => (hnodes a).given hc⟩

end ClusterRun

/-- Node 1 fetches the key and puts it. -/
def takenOver : ClusterRun pair ∅ String ℕ :=
  Run.ofEvents _ _ (fetched ++ [.call 1 (.resume 0), .call 1 (.put "k" 2)]) (.call 0 (.get "k"))
    (by decide +kernel)

theorem values_put_takenOver : ClusterRun.Put takenOver 7 "k" 2 2 :=
  (ClusterRun.values_put takenOver 7 (by decide) 1 "k").1
    { value := 2, state := .modified, version := 2 } (by decide +kernel)

end Cache
