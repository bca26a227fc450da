import Terdistribusi.Cache.Properties.Lines

/-!
# What holds of every node

* `Sound` — futures have numbers of their own and wait under their own keys, and nothing that a node
  holds or sends says that a copy is the only one
* `ClusterRun.sound` — it holds throughout a run in which no node is faulty
-/

namespace Cache

open Infra

variable {NodeId Key Value : Type} [DecidableEq Key]

namespace CacheNode

/-- The futures have different numbers and wait under their own keys; no line is INVALID, and no
line or reply is EXCLUSIVE. -/
structure Sound (s : CacheNode Key Value) : Prop where
  key : ∀ key id read, s.pendingReads.get? key = some id → s.reads.get? id = some read →
    read.key = key
  pendingReads : ∀ key id, s.pendingReads.get? key = some id → id < s.nextRead
  reads : ∀ id read, s.reads.get? id = some read → id < s.nextRead
  line : ∀ key line, s.cache.get? key = some line → line.state = .modified ∨ line.state = .shared
  shared : ∀ id key reply, s.reads.get? id = some { key := key, future := .result reply } →
    reply.shared = true

/-- A reply in flight says that there are other copies. -/
def SoundMessage (p : Payload Key Value) : Prop :=
  ∀ key reply, p = .cacheResponse key reply → reply.shared = true

theorem Sound.init (cfg : Config NodeId) : (cfg.init : CacheNode Key Value).Sound where
  key := fun _ _ _ h => by cases h
  pendingReads := fun _ _ h => by cases h
  reads := fun _ _ h => by cases h
  line := fun _ _ h => by cases h
  shared := fun _ _ _ h => by cases h

variable {cfg : Config NodeId} {s : CacheNode Key Value}
  {inp : Input NodeId (Call Key Value) Unit (Payload Key Value)}

theorem Sound.line_act (h : s.Sound) {key : Key} {line : CacheLine Value}
    (hline : (act cfg inp s).1.cache.get? key = some line) :
    line.state = .modified ∨ line.state = .shared := by
  rcases line_cases hline with ⟨-, hmod⟩ | ⟨reply, hi, rfl⟩ | ⟨line', -, rfl⟩ | ⟨hold, -, -⟩
  · exact Or.inl hmod
  · obtain ⟨id, -, hread⟩ := read_of_installs hi
    exact Or.inr (if_pos (h.shared id key reply hread))
  · exact Or.inr rfl
  · exact h.line key line hold

theorem Sound.reads_act (h : s.Sound) {id : ℕ} {read : Read Key Value}
    (hread : (act cfg inp s).1.reads.get? id = some read) : id < (act cfg inp s).1.nextRead := by
  have hnext := (pending_act cfg s inp).1
  cases read_act hread with
  | asked key _ hid hsucc => omega
  | answered _ _ _ _ _ _ _ _ hread' => exact (h.reads id _ hread').trans_le hnext
  | cancelled _ _ hread' => exact (h.reads id _ hread').trans_le hnext
  | kept _ hread' => exact (h.reads id _ hread').trans_le hnext

/-- A future and its key enter together. -/
theorem Sound.key_act (h : s.Sound) {key : Key} {id : ℕ} {read : Read Key Value}
    (hpending : (act cfg inp s).1.pendingReads.get? key = some id)
    (hread : (act cfg inp s).1.reads.get? id = some read) : read.key = key := by
  rcases (pending_act cfg s inp).2 key id hpending with hold | ⟨hinp, hid, -⟩
  · have hlt := h.pendingReads key id hold
    cases read_act hread with
    | asked key' _ hid _ => omega
    | answered _ _ _ key' _ _ _ _ hread' =>
      have hkey := h.key key id _ hold hread'
      exact hkey
    | cancelled read' _ hread' =>
      have hkey := h.key key id _ hold hread'
      exact hkey
    | kept _ hread' => exact h.key key id _ hold hread'
  · cases read_act hread with
    | asked key' hinp' _ _ =>
      rw [hinp] at hinp'
      cases hinp'
      rfl
    | answered _ _ _ _ _ hinp' _ _ _ =>
      rw [hinp] at hinp'
      cases hinp'
    | cancelled _ hinp' _ =>
      rw [hinp] at hinp'
      cases hinp'
    | kept _ hread' =>
      have hlt := h.reads id _ hread'
      omega

theorem Sound.shared_act (h : s.Sound)
    (hm : ∀ env m, inp = .receive env m → SoundMessage m.payload) {id : ℕ} {key : Key}
    {reply : Reply Value} (hread : (act cfg inp s).1.reads.get? id =
      some { key := key, future := .result reply }) : reply.shared = true := by
  generalize hr : ({ key := key, future := .result reply } : Read Key Value) = r at hread
  cases read_act hread with
  | asked => cases hr
  | answered env m key' key'' reply' hinp hpayload _ _ =>
    cases hr
    exact hm env m hinp key' reply hpayload
  | cancelled => cases hr
  | kept _ hread' =>
    subst hr
    exact h.shared id key reply hread'

theorem Sound.sent_act (h : s.Sound) {m : Message NodeId (Payload Key Value)}
    (hsent : m ∈ (act cfg inp s).2) : SoundMessage m.payload := by
  intro key reply hpayload
  rcases CacheNode.sent_act hsent with ⟨_, -, hp⟩ | ⟨_, -, hp⟩ | ⟨_, line, hline, hp⟩
  · rw [hp] at hpayload
    cases hpayload
  · rw [hp] at hpayload
    cases hpayload
  · rw [hp] at hpayload
    cases hpayload
    rcases h.line _ line (cache_of_answers hline) with hs | hs <;> simp [hs]

/-- **Every input leaves a node sound.** -/
theorem Sound.act (h : s.Sound) (hm : ∀ env m, inp = .receive env m → SoundMessage m.payload) :
    (act cfg inp s).1.Sound where
  key := fun _ _ _ hpending hread => h.key_act hpending hread
  pendingReads := by
    intro key id hpending
    obtain ⟨hnext, hcases⟩ := pending_act cfg s inp
    rcases hcases key id hpending with hold | ⟨-, hid, hsucc⟩
    · exact (h.pendingReads key id hold).trans_le hnext
    · omega
  reads := fun _ _ hread => h.reads_act hread
  line := fun _ _ hline => h.line_act hline
  shared := fun _ _ _ hread => h.shared_act hm hread

end CacheNode

/-! ## Runs -/

namespace ClusterRun

variable [DecidableEq NodeId] {ms : Members NodeId} (run : ClusterRun ms ∅ Key Value)

/-- **Every node and every message of a run is sound.** -/
theorem sound : ∀ i ≤ run.length, (∀ a, ((run.state i).nodes a).Sound) ∧
    ∀ a, ∀ m ∈ (run.state i).inbox a, CacheNode.SoundMessage m.payload := by
  refine run.induction ?_ fun i hi h => ?_
  · rw [run.state_zero]
    exact ⟨fun a => .init (ms.config a), fun a m hm => by cases hm⟩
  · refine Network.everywhere_succ (M := fun _ m => CacheNode.SoundMessage m.payload)
      (run.state_succ i hi) h.1 h.2 fun a inp _ hreceived => ?_
    exact ⟨(h.1 a).act hreceived, fun m hm => (h.1 a).sent_act hm⟩

end ClusterRun

end Cache
