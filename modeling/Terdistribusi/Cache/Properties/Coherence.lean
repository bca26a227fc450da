import Terdistribusi.Cache.Properties.Sound
import Terdistribusi.Cache.Stamped

/-!
# Coherence at rest

When nothing is in flight, a MODIFIED copy is the only copy and all copies have the same value, as
long as no `get` goes on with a reply that a later `put` has overtaken (`coherent_at_rest`).
Invalidations are not acknowledged and a suspended `get` has no line that they could reach, so
nothing in the code keeps a `get` from that.

The stamps of the values say which `put` a copy comes from. A copy that no INVALIDATE is under way
to comes from the last `put` of its key (`Dated.latest`), and the value of a MODIFIED copy is
nowhere else (`Dated.alone`).
-/

namespace Cache

open Infra

variable {NodeId Key Value : Type} [DecidableEq Key]

/-! ## Values and where they are -/

namespace CacheNode

/-- `P` holds of every value that peers may have too: of lines that are not MODIFIED, and of the
results of futures. -/
structure Shares (P : Key → Value → Prop) (s : CacheNode Key Value) : Prop where
  line : ∀ key line, s.cache.get? key = some line → line.state ≠ .modified → P key line.value
  reply : ∀ id key reply, s.reads.get? id = some { key := key, future := .result reply } →
    P key reply.value

/-- `P` holds of the value of a reply. -/
def Carries (P : Key → Value → Prop) (p : Payload Key Value) : Prop :=
  ∀ key reply, p = .cacheResponse key reply → P key reply.value

theorem Shares.mono {P Q : Key → Value → Prop} {s : CacheNode Key Value} (h : s.Shares P)
    (hpq : ∀ key x, P key x → Q key x) : s.Shares Q :=
  ⟨fun key line hl hs => hpq _ _ (h.line key line hl hs), fun id key reply hr =>
    hpq _ _ (h.reply id key reply hr)⟩

omit [DecidableEq Key] in
theorem Carries.mono {P Q : Key → Value → Prop} {p : Payload Key Value} (h : Carries P p)
    (hpq : ∀ key x, P key x → Q key x) : Carries Q p :=
  fun key reply hp => hpq _ _ (h key reply hp)

theorem Shares.init (cfg : Config NodeId) (P : Key → Value → Prop) :
    (cfg.init : CacheNode Key Value).Shares P where
  line := fun _ _ h => by cases h
  reply := fun _ _ _ h => by cases h

variable {P : Key → Value → Prop} {cfg : Config NodeId} {s : CacheNode Key Value}
  {inp : Input NodeId (Call Key Value) Unit (Payload Key Value)}

/-- **Values only spread from where they are**: from replies, and from a MODIFIED line when it is
fetched. -/
theorem Shares.act (hs : s.Sound) (h : s.Shares P)
    (hm : ∀ env m, inp = .receive env m → Carries P m.payload)
    (hfetch : ∀ key line, s.answers key inp = some line → line.state = .modified →
      P key line.value) :
    (CacheNode.act cfg inp s).1.Shares P ∧
      ∀ m ∈ (CacheNode.act cfg inp s).2, Carries P m.payload := by
  -- the line that answers a fetch is either modified or one of the shared
  have hanswer : ∀ key line, s.answers key inp = some line → P key line.value := by
    intro key line ha
    by_cases hmod : line.state = .modified
    · exact hfetch key line ha hmod
    · exact h.line key line (cache_of_answers ha) hmod
  refine ⟨⟨fun key line hline hmod => ?_, fun id key reply hread => ?_⟩,
    fun m hsent key reply hp => ?_⟩
  · rcases line_cases hline with ⟨-, hmod'⟩ | ⟨reply, hi, rfl⟩ | ⟨line', ha, rfl⟩ | ⟨hold, -, -⟩
    · exact absurd hmod' hmod
    · obtain ⟨id, -, hread⟩ := read_of_installs hi
      exact h.reply id key reply hread
    · exact hanswer key line' ha
    · exact h.line key line hold hmod
  · generalize hr : ({ key := key, future := .result reply } : Read Key Value) = r at hread
    cases read_act hread with
    | asked => cases hr
    | answered env m key' key'' reply' hinp hpayload hpending hread' =>
      cases hr
      obtain rfl : key = key' := hs.key key' id _ hpending hread'
      exact hm env m hinp key reply hpayload
    | cancelled => cases hr
    | kept _ hread' =>
      subst hr
      exact h.reply id key reply hread'
  · rcases sent_act hsent with ⟨_, -, hp'⟩ | ⟨_, -, hp'⟩ | ⟨key', line, ha, hp'⟩
    · rw [hp'] at hp
      cases hp
    · rw [hp'] at hp
      cases hp
    · rw [hp'] at hp
      cases hp
      exact hanswer _ line ha

/-- A line is MODIFIED after an input when it was and is not fetched, or when it is written. -/
theorem modified_act {key : Key} {line : CacheLine Value}
    (hline : (act cfg inp s).1.cache.get? key = some line) (hmod : line.state = .modified) :
    s.cache.get? key = some line ∧ s.answers key inp = none ∨
      inp = .call (.put key line.value) := by
  rcases line_cases hline with ⟨hinp, -⟩ | ⟨reply, -, rfl⟩ | ⟨line', -, rfl⟩ | ⟨hold, -, ha⟩
  · exact Or.inr hinp
  · unfold Reply.line at hmod
    dsimp only at hmod
    split at hmod <;> cases hmod
  · cases hmod
  · exact Or.inl ⟨hold, ha⟩

end CacheNode

/-! ## States of a cluster -/

/-- Every inbox is empty and no `get` is suspended. -/
def AtRest (s : Cluster NodeId Key Value) : Prop :=
  (∀ a, s.inbox a = []) ∧ ∀ a, (s.nodes a).reads.keys = []

/-- A MODIFIED or EXCLUSIVE copy of the key is the only one, and all copies have the same value. -/
structure Coherent (s : Cluster NodeId Key Value) (key : Key) : Prop where
  alone : ∀ a line, (s.nodes a).validLine? key = some line →
    line.state = .modified ∨ line.state = .exclusive → ∀ b, b ≠ a →
      (s.nodes b).validLine? key = none
  agree : ∀ a b line line', (s.nodes a).validLine? key = some line →
    (s.nodes b).validLine? key = some line' → line.value = line'.value

instance {n : ℕ} (s : Cluster (Fin n) Key Value) : Decidable (AtRest s) :=
  inferInstanceAs (Decidable (_ ∧ _))

/-- An INVALIDATE of the key is in the inbox of the node. -/
def Invalidated (s : Cluster NodeId Key Value) (a : NodeId) (key : Key) : Prop :=
  ∃ m ∈ s.inbox a, m.payload.invalidates key = true

instance (s : Cluster NodeId Key Value) (a : NodeId) (key : Key) :
    Decidable (Invalidated s a key) :=
  inferInstanceAs (Decidable (∃ m ∈ s.inbox a, _))

/-- The node at which the event puts the key. -/
def writer? (key : Key) : Event NodeId Key Value → Option NodeId
  | .call a (.put key' _) => if key' = key then some a else none
  | _ => none

/-- The node at which a `get` goes on with a reply, its key and the reply. -/
def resumes (s : Cluster NodeId Key Value) :
    Event NodeId Key Value → Option (NodeId × Key × Reply Value)
  | .call a (.resume id) =>
    match (s.nodes a).reads.get? id with
    | some { key, future := .result reply } => some (a, key, reply)
    | _ => none
  | _ => none

namespace ClusterRun

variable [DecidableEq NodeId] {ms : Members NodeId} (run : ClusterRun ms ∅ Key Value)

/-- Every inbox is read from its front, and no message is lost. -/
def InOrder : Prop := ∀ i < run.length, (run.event i).fifo = true

instance : Decidable run.InOrder := inferInstanceAs (Decidable (∀ i < run.length, _))

/-- A `get` that goes on with a reply in step `i` has not been overtaken: its key was not put since
the `put` that the reply comes from, or an INVALIDATE of the key is on its way to the node. -/
def NotOvertaken (i : ℕ) : Prop :=
  ∀ x ∈ resumes (run.stamped.state i) (run.stamped.event i),
    Invalidated (run.state i) x.1 x.2.1 ∨
      ∀ j < i, x.2.2.value.2 < j → writer? x.2.1 (run.event j) = none

instance (i : ℕ) : Decidable (run.NotOvertaken i) :=
  inferInstanceAs (Decidable (∀ x ∈ resumes (run.stamped.state i) (run.stamped.event i), _))

/-- The event stamped on the value is the `put` that wrote it. -/
def Written (i : ℕ) (key : Key) (x : Value × ℕ) : Prop :=
  x.2 < i ∧ ∃ a, run.event x.2 = .call a (.put key x.1)

theorem Written.mono {i j : ℕ} (hij : i ≤ j) {key : Key} {x : Value × ℕ}
    (h : run.Written i key x) : run.Written j key x :=
  ⟨h.1.trans_le hij, h.2⟩

/-- What the stamps say about a state at time `i`. -/
structure Dated (i : ℕ) (t : Cluster NodeId Key (Value × ℕ)) : Prop where
  shares : ∀ a, (t.nodes a).Shares (run.Written i)
  messages : ∀ a, ∀ m ∈ t.inbox a, CacheNode.Carries (run.Written i) m.payload
  modified : ∀ a key line, (t.nodes a).cache.get? key = some line → line.state = .modified →
    line.value.2 < i ∧ run.event line.value.2 = .call a (.put key line.value.1)
  alone : ∀ a key line, (t.nodes a).cache.get? key = some line → line.state = .modified →
    (∀ b, (t.nodes b).Shares fun key' x => ¬ (key' = key ∧ x = line.value)) ∧
      ∀ b, ∀ m ∈ t.inbox b,
        CacheNode.Carries (fun key' x => ¬ (key' = key ∧ x = line.value)) m.payload
  latest : ∀ a key line, (t.nodes a).cache.get? key = some line → ¬ Invalidated t a key →
    ∀ j < i, line.value.2 < j → writer? key (run.event j) = none

variable {run} {i : ℕ}

omit [DecidableEq NodeId] [DecidableEq Key] in
theorem put_of_stampEvent {e : Event NodeId Key Value} {a : NodeId} {key : Key} {x : Value × ℕ}
    (h : stampEvent i e = .call a (.put key x)) : e = .call a (.put key x.1) ∧ x.2 = i := by
  cases e with
  | call b c =>
    cases c with
    | put key' v =>
      cases h
      exact ⟨rfl, rfl⟩
    | get key' => cases h
    | delete key' => cases h
    | timeout id => cases h
    | resume id => cases h
  | deliver b k env => cases h
  | drop b k => cases h
  | forge m => cases h

omit [DecidableEq NodeId] [DecidableEq Key] in
theorem eq_drop_of_stampEvent {e : Event NodeId Key Value} {a : NodeId} {k : ℕ}
    (h : stampEvent i e = .drop a k) : e = .drop a k := by
  cases e with
  | call b c => cases h
  | deliver b k' env => cases h
  | drop b k' =>
    cases h
    rfl
  | forge m => cases h

omit [DecidableEq NodeId] in
theorem put_of_writer? {key : Key} {e : Event NodeId Key Value} {a : NodeId}
    (h : writer? key e = some a) : ∃ v, e = .call a (.put key v) := by
  unfold writer? at h
  split at h
  · next b key' v =>
    split at h
    · next hk =>
      cases h
      exact ⟨v, by rw [hk]⟩
    · cases h
  · cases h

section Step

variable {t t' : Cluster NodeId Key (Value × ℕ)} {a : NodeId}
  {inp : Input NodeId (Call Key (Value × ℕ)) Unit (Payload Key (Value × ℕ))}
  {inbox₀ : NodeId → List (Message NodeId (Payload Key (Value × ℕ)))}

/-- The node that puts takes the value with its stamp. -/
theorem put_iff (hinput : t.input? (stampEvent i (run.event i)) = some (a, inp)) {key : Key}
    {x : Value × ℕ} :
    inp = .call (.put key x) ↔ run.event i = .call a (.put key x.1) ∧ x.2 = i := by
  constructor
  · rintro rfl
    exact put_of_stampEvent (Network.input?_call hinput)
  · rintro ⟨he, rfl⟩
    rw [he] at hinput
    cases hinput
    rfl

theorem node_of_put (hinput : t.input? (stampEvent i (run.event i)) = some (a, inp)) {c : NodeId}
    {key : Key} {v : Value} (he : run.event i = .call c (.put key v)) : c = a := by
  rw [he] at hinput
  cases hinput
  rfl

/-- A MODIFIED line after a step was MODIFIED and is not fetched, or it is written. -/
theorem modified_succ (hmoves : Network.Moves ms.act t t' a inp inbox₀) {c : NodeId} {key : Key}
    {line : CacheLine (Value × ℕ)} (hline : (t'.nodes c).cache.get? key = some line)
    (hmod : line.state = .modified) :
    (t.nodes c).cache.get? key = some line ∧
        (c = a → (t.nodes a).answers key inp = none) ∨
      c = a ∧ inp = .call (.put key line.value) := by
  rw [hmoves.nodes] at hline
  by_cases hc : c = a
  · subst hc
    rw [Function.update_self] at hline
    rcases CacheNode.modified_act hline hmod with ⟨hold, hanswers⟩ | hput
    · exact Or.inl ⟨hold, fun _ => hanswers⟩
    · exact Or.inr ⟨rfl, hput⟩
  · rw [Function.update_of_ne hc] at hline
    exact Or.inl ⟨hline, fun h => absurd h hc⟩

theorem Dated.modified_succ (h : Dated run i t)
    (hinput : t.input? (stampEvent i (run.event i)) = some (a, inp))
    (hmoves : Network.Moves ms.act t t' a inp inbox₀) {c : NodeId} {key : Key}
    {line : CacheLine (Value × ℕ)} (hline : (t'.nodes c).cache.get? key = some line)
    (hmod : line.state = .modified) :
    line.value.2 < i + 1 ∧ run.event line.value.2 = .call c (.put key line.value.1) := by
  rcases ClusterRun.modified_succ hmoves hline hmod with ⟨hold, -⟩ | ⟨rfl, hinp⟩
  · obtain ⟨hlt, he⟩ := h.modified c key line hold hmod
    exact ⟨Nat.lt_succ_of_lt hlt, he⟩
  · obtain ⟨he, hx⟩ := (put_iff hinput).mp hinp
    rw [hx]
    exact ⟨Nat.lt_succ_self i, he⟩

/-- What a MODIFIED line has alone before a step it has alone after it, and so has one that is
written in the step. -/
theorem Dated.alone_succ (h : Dated run i t)
    (hinput : t.input? (stampEvent i (run.event i)) = some (a, inp))
    (hmoves : Network.Moves ms.act t t' a inp inbox₀) {c : NodeId} {key : Key}
    {line : CacheLine (Value × ℕ)}
    (hline : (t'.nodes c).cache.get? key = some line) (hmod : line.state = .modified) :
    ((∀ b, (t.nodes b).Shares fun key' x => ¬ (key' = key ∧ x = line.value)) ∧
        ∀ b, ∀ m ∈ t.inbox b,
          CacheNode.Carries (fun key' x => ¬ (key' = key ∧ x = line.value)) m.payload) ∧
      ∀ key' line', (t.nodes a).answers key' inp = some line' → line'.state = .modified →
        ¬ (key' = key ∧ line'.value = line.value) := by
  rcases ClusterRun.modified_succ hmoves hline hmod with ⟨hold, hanswers⟩ | ⟨rfl, hinp⟩
  · refine ⟨h.alone c key line hold hmod, ?_⟩
    rintro key' line' ha hmod' ⟨rfl, hx⟩
    -- the two lines come from the same event, so it is the same node
    obtain ⟨-, he⟩ := h.modified c key' line hold hmod
    obtain ⟨-, he'⟩ := h.modified a key' line' (CacheNode.cache_of_answers ha) hmod'
    rw [hx, he] at he'
    cases he'
    rw [hanswers rfl] at ha
    cases ha
  · obtain ⟨-, hi⟩ := (put_iff hinput).mp hinp
    have hnew : ∀ key' x, run.Written i key' x → ¬ (key' = key ∧ x = line.value) := by
      rintro key' x ⟨hlt, -⟩ ⟨-, rfl⟩
      omega
    refine ⟨⟨fun b => (h.shares b).mono hnew, fun b m hm => (h.messages b m hm).mono hnew⟩, ?_⟩
    intro key' line' ha
    rw [hinp] at ha
    cases ha

/-- An INVALIDATE stays in an inbox until it is taken. -/
theorem invalidated_succ (hmoves : Network.Moves ms.act t t' a inp inbox₀) {c : NodeId} {key : Key}
    (hinv : Invalidated t c key)
    (hkeep : c = a → ∀ env m, inp = .receive env m → m.payload.invalidates key = false) :
    Invalidated t' c key := by
  obtain ⟨m, hm, hkey⟩ := hinv
  refine ⟨m, hmoves.kept hm ?_, hkey⟩
  rintro env x hinp hc rfl
  rw [hkeep hc env m hinp] at hkey
  cases hkey

/-- After a `put` there is an INVALIDATE in the inbox of every other node. -/
theorem invalidated_of_put (hmoves : Network.Moves ms.act t t' a inp inbox₀) {c : NodeId}
    (hc : c ≠ a) {key : Key} {x : Value × ℕ} (hinp : inp = .call (.put key x)) :
    Invalidated t' c key := by
  subst hinp
  refine ⟨{ senderId := a, receiverId := c, payload := .cacheInvalidate key }, ?_, by
    simp [Payload.invalidates]⟩
  exact hmoves.sent (Network.mem_broadcast.mpr ⟨rfl, rfl, (ms.mem_peers a c).mpr hc⟩)

/-- A copy that no INVALIDATE is on its way to still comes from the last `put` after a step. -/
theorem Dated.latest_succ (h : Dated run i t)
    (hinput : t.input? (stampEvent i (run.event i)) = some (a, inp))
    (hmoves : Network.Moves ms.act t t' a inp inbox₀)
    (hfresh : ∀ key reply, (t.nodes a).installs key inp = some reply →
      Invalidated t a key ∨ ∀ j < i, reply.value.2 < j → writer? key (run.event j) = none)
    {c : NodeId} {key : Key} {line : CacheLine (Value × ℕ)}
    (hline : (t'.nodes c).cache.get? key = some line) (hinv : ¬ Invalidated t' c key) :
    ∀ j < i + 1, line.value.2 < j → writer? key (run.event j) = none := by
  intro j hj hlt
  by_contra hne
  obtain ⟨b, hb⟩ := Option.ne_none_iff_exists'.mp hne
  obtain ⟨v, he⟩ := put_of_writer? hb
  rw [hmoves.nodes] at hline
  by_cases hji : j = i
  · -- the key is put in this step
    subst hji
    obtain rfl := node_of_put hinput he
    obtain rfl := (put_iff hinput (x := (v, j))).mpr ⟨he, rfl⟩
    by_cases hc : c = b
    · subst hc
      rw [Function.update_self] at hline
      obtain ⟨version, hput'⟩ := CacheNode.exists_line_put (ms.config c) key (t.nodes c) (v, j)
      rw [show (ms.act c _ (t.nodes c)).1.cache.get? key = _ from hput'] at hline
      cases hline
      exact absurd hlt (lt_irrefl j)
    · exact hinv (invalidated_of_put hmoves hc rfl)
  have hji' : j < i := by omega
  -- a line without an INVALIDATE on its way had none before
  have hold : ∀ line', (t.nodes c).cache.get? key = some line' → line.value = line'.value →
      (c = a → (t.nodes a).drops (ms.config a) key inp = false) → False := by
    intro line' hline' hvalue hdrops
    refine hne (h.latest c key line' hline' (fun hinv' => hinv ?_) j hji' (hvalue ▸ hlt))
    refine invalidated_succ hmoves hinv' fun hc env m hinp => ?_
    have hd := hdrops hc
    rw [hinp] at hd
    exact hd
  by_cases hc : c = a
  · subst hc
    rw [Function.update_self] at hline
    rcases CacheNode.line_cases hline with
      ⟨hinp, -⟩ | ⟨reply, hi, rfl⟩ | ⟨line', ha, rfl⟩ | ⟨hl, hdrops, -⟩
    · have hi := ((put_iff hinput).mp hinp).2
      omega
    · rcases hfresh key reply hi with hinv' | hlast
      · refine hinv (invalidated_succ hmoves hinv' fun _ env m hinp => ?_)
        rw [hinp] at hi
        cases hi
      · exact hne (hlast j hji' hlt)
    · exact hold line' (CacheNode.cache_of_answers ha) rfl fun _ => CacheNode.drops_of_answers ha
    · exact hold line hl rfl fun _ => hdrops
  · rw [Function.update_of_ne hc] at hline
    exact hold line hline rfl fun hc' => absurd hc' hc

end Step

omit [DecidableEq NodeId] in
/-- A `get` that goes on with a reply, at a node and in the cluster. -/
theorem resumes_of_installs {t : Cluster NodeId Key Value} {a : NodeId} {key : Key}
    {inp : Input NodeId (Call Key Value) Unit (Payload Key Value)} {reply : Reply Value}
    {e : Event NodeId Key Value} (hinput : t.input? e = some (a, inp))
    (h : (t.nodes a).installs key inp = some reply) : resumes t e = some (a, key, reply) := by
  obtain ⟨id, rfl, hread⟩ := CacheNode.read_of_installs h
  obtain rfl := Network.input?_call hinput
  simp [resumes, hread]

omit [DecidableEq NodeId] in
theorem invalidated_erase {t : Cluster NodeId Key (Value × ℕ)} {a : NodeId} {key : Key} :
    Invalidated (t.map (CacheNode.map Prod.fst) (Payload.map Prod.fst)) a key ↔
      Invalidated t a key := by
  have hp : ∀ p : Payload Key (Value × ℕ),
      (p.map Prod.fst).invalidates key = p.invalidates key := by
    intro p
    cases p <;> rfl
  unfold Invalidated Network.map
  dsimp only
  constructor
  · rintro ⟨m, hm, hkey⟩
    obtain ⟨m', hm', rfl⟩ := List.mem_map.mp hm
    exact ⟨m', hm', (hp m'.payload).symm.trans hkey⟩
  · rintro ⟨m, hm, hkey⟩
    exact ⟨_, List.mem_map_of_mem hm, (hp m.payload).trans hkey⟩

variable (run)

theorem Dated.initial : Dated run 0 (ms.initial : Cluster NodeId Key (Value × ℕ)) where
  shares := fun a => .init (ms.config a) _
  messages := fun a m hm => by cases hm
  modified := fun a key line h => by cases h
  alone := fun a key line h => by cases h
  latest := fun a key line h => by cases h

/-- **What the stamps say holds throughout a run** in which no message is lost and no reply is
installed that has been overtaken. -/
theorem dated (hfifo : run.InOrder) (hfresh : ∀ i < run.length, run.NotOvertaken i) :
    ∀ i ≤ run.length, Dated run i (run.stamped.state i) := by
  refine run.induction ?_ fun i hi h => ?_
  · rw [run.stamped.state_zero]
    exact .initial run
  have hstep := run.stamped.state_succ i hi
  have hsound := (run.stamped.sound i (Nat.le_of_lt hi)).1
  rcases Network.moves_cases hstep with ⟨a, k, m, he, -⟩ | ⟨a, inp, inbox₀, hinput, hmoves⟩
  · -- a run in order loses nothing
    have hfront := hfifo i hi
    rw [eq_drop_of_stampEvent he] at hfront
    cases hfront
  -- what was written before is still what was written
  have hmono : ∀ key x, run.Written i key x → run.Written (i + 1) key x :=
    fun key x => Written.mono run (Nat.le_succ i)
  have hshares := Network.everywhere_succ
    (N := fun _ n => n.Shares (run.Written (i + 1)))
    (M := fun _ m => CacheNode.Carries (run.Written (i + 1)) m.payload) hstep
    (fun b => (h.shares b).mono hmono) (fun b m hm => (h.messages b m hm).mono hmono)
    fun b inp' _ hreceived => by
      refine CacheNode.Shares.act (hsound b) ((h.shares b).mono hmono) hreceived
        fun key line ha hmod => ?_
      obtain ⟨hlt, he⟩ := h.modified b key line (CacheNode.cache_of_answers ha) hmod
      exact ⟨Nat.lt_succ_of_lt hlt, b, he⟩
  refine ⟨hshares.1, hshares.2, fun c key line hline hmod => ?_, fun c key line hline hmod => ?_,
    fun c key line hline hinv => ?_⟩
  · exact h.modified_succ hinput hmoves hline hmod
  · obtain ⟨⟨halone, hmessages⟩, hfetch⟩ := h.alone_succ hinput hmoves hline hmod
    refine Network.everywhere_succ
      (N := fun _ n => n.Shares fun key' x => ¬ (key' = key ∧ x = line.value))
      (M := fun _ m => CacheNode.Carries (fun key' x => ¬ (key' = key ∧ x = line.value)) m.payload)
      hstep halone hmessages fun b inp' hinput' hreceived => ?_
    rw [hinput] at hinput'
    cases hinput'
    exact CacheNode.Shares.act (hsound a) (halone a) hreceived hfetch
  · -- no `get` goes on with a reply that a write has overtaken
    refine h.latest_succ hinput hmoves (fun key' reply hi' => ?_) hline hinv
    have hnot := hfresh i hi _ (resumes_of_installs hinput hi')
    rwa [← run.erase_stamped (Nat.le_of_lt hi), invalidated_erase] at hnot

variable {run}

theorem Dated.written {t : Cluster NodeId Key (Value × ℕ)} (h : Dated run i t) {a : NodeId}
    {key : Key} {line : CacheLine (Value × ℕ)} (hline : (t.nodes a).cache.get? key = some line) :
    run.Written i key line.value := by
  by_cases hmod : line.state = .modified
  · obtain ⟨hlt, he⟩ := h.modified a key line hline hmod
    exact ⟨hlt, a, he⟩
  · exact (h.shares a).line key line hline hmod

/-- Copies that no INVALIDATE is on its way to come from the same `put`. -/
theorem Dated.agree {t : Cluster NodeId Key (Value × ℕ)} (h : Dated run i t) {key : Key}
    (hinv : ∀ a, ¬ Invalidated t a key) {a b : NodeId} {line line' : CacheLine (Value × ℕ)}
    (hline : (t.nodes a).cache.get? key = some line)
    (hline' : (t.nodes b).cache.get? key = some line') : line.value = line'.value := by
  obtain ⟨hlt, c, he⟩ := h.written hline
  obtain ⟨hlt', c', he'⟩ := h.written hline'
  have hputs : ∀ {j : ℕ} {d : NodeId} {v : Value}, run.event j = .call d (.put key v) →
      writer? key (run.event j) = some d := by
    intro j d v hj
    rw [hj]
    exact if_pos rfl
  have hstamp : line.value.2 = line'.value.2 := by
    rcases Nat.lt_trichotomy line.value.2 line'.value.2 with hl | heq | hl
    · have hno := h.latest a key line hline (hinv a) _ hlt' hl
      rw [hputs he'] at hno
      cases hno
    · exact heq
    · have hno := h.latest b key line' hline' (hinv b) _ hlt hl
      rw [hputs he] at hno
      cases hno
  rw [hstamp, he', Network.Event.call.injEq, Call.put.injEq] at he
  exact Prod.ext he.2.2.symm hstamp

theorem Dated.coherent {t : Cluster NodeId Key (Value × ℕ)} (h : Dated run i t)
    (hsound : ∀ a, (t.nodes a).Sound) {key : Key} (hinv : ∀ a, ¬ Invalidated t a key) :
    Coherent t key := by
  refine ⟨fun a line hline hstate b hb => ?_, fun a b line line' hline hline' =>
    h.agree hinv (CacheNode.cache_of_validLine? hline) (CacheNode.cache_of_validLine? hline')⟩
  have hget := CacheNode.cache_of_validLine? hline
  have hmod : line.state = .modified := by
    rcases hsound a |>.line key line hget with hs | hs
    · exact hs
    · rw [hs] at hstate
      simp at hstate
  cases hline' : (t.nodes b).validLine? key with
  | none => rfl
  | some line' =>
    have hget' := CacheNode.cache_of_validLine? hline'
    have hvalue := h.agree hinv hget' hget
    by_cases hmod' : line'.state = .modified
    · -- two lines that one event has written
      obtain ⟨-, he⟩ := h.modified a key line hget hmod
      obtain ⟨-, he'⟩ := h.modified b key line' hget' hmod'
      rw [hvalue, he] at he'
      cases he'
      exact absurd rfl hb
    · exact absurd ⟨rfl, hvalue⟩ (((h.alone a key line hget hmod).1 b).line key line' hget' hmod')

omit [DecidableEq NodeId] in
/-- Copies that agree with their stamps agree without them. -/
theorem coherent_erase {t : Cluster NodeId Key (Value × ℕ)} {key : Key} (h : Coherent t key) :
    Coherent (t.map (CacheNode.map Prod.fst) (Payload.map Prod.fst)) key := by
  have hvalid : ∀ a, ((t.map (CacheNode.map Prod.fst) (Payload.map Prod.fst)).nodes a).validLine?
      key = ((t.nodes a).validLine? key).map (CacheLine.map Prod.fst) :=
    fun a => CacheNode.map_validLine? Prod.fst (t.nodes a) key
  refine ⟨fun a line hline hstate b hb => ?_, fun a b line line' hline hline' => ?_⟩
  · rw [hvalid] at hline ⊢
    obtain ⟨line₀, hline₀, rfl⟩ := Option.map_eq_some_iff.mp hline
    rw [h.alone a line₀ hline₀ hstate b hb]
    rfl
  · rw [hvalid] at hline hline'
    obtain ⟨line₀, hline₀, rfl⟩ := Option.map_eq_some_iff.mp hline
    obtain ⟨line₁, hline₁, rfl⟩ := Option.map_eq_some_iff.mp hline'
    exact congrArg Prod.fst (h.agree a b line₀ line₁ hline₀ hline₁)

variable (run)

/-- **Coherence at rest**, when no reply is installed that a later `put` has overtaken. -/
theorem coherent_at_rest (hfifo : run.InOrder)
    (hfresh : ∀ i < run.length, run.NotOvertaken i) {i : ℕ} (hi : i ≤ run.length)
    (hrest : AtRest (run.state i)) (key : Key) : Coherent (run.state i) key := by
  have hsound := (run.stamped.sound i hi).1
  rw [← run.erase_stamped hi] at hrest ⊢
  refine coherent_erase ((dated run hfifo hfresh i hi).coherent hsound fun a hinv => ?_)
  obtain ⟨m, hm, -⟩ := invalidated_erase.mpr hinv
  rw [hrest.1 a] at hm
  cases hm

end ClusterRun

/-! ## A reply that is installed in time, and one that is not -/

def fetchedRun : ClusterRun pair ∅ String ℕ :=
  Run.ofEvents _ _ (fetched ++ [.call 1 (.resume 0)]) (.call 0 (.get "k")) (by decide +kernel)

theorem coherent_at_rest_fetched :
    AtRest (fetchedRun.state 6) ∧ Coherent (fetchedRun.state 6) "k" :=
  ⟨by decide +kernel, fetchedRun.coherent_at_rest (by decide +kernel) (by decide +kernel)
    (i := 6) (by decide) (by decide +kernel) "k"⟩

/-- The key is put again, and the INVALIDATE finds no line. -/
def overtakenRun : ClusterRun pair ∅ String ℕ :=
  Run.ofEvents _ _ (fetched ++ [.call 0 (.put "k" 2), .deliver 1 0 (), .call 1 (.resume 0)])
    (.call 0 (.get "k")) (by decide +kernel)

theorem incoherent_overtaken : overtakenRun.InOrder ∧ AtRest (overtakenRun.state 8) ∧
    ((overtakenRun.state 8).nodes 0).validLine? "k" = some ⟨2, .modified, 2⟩ ∧
    ((overtakenRun.state 8).nodes 1).validLine? "k" = some ⟨1, .shared, 1⟩ ∧
    ¬ Coherent (overtakenRun.state 8) "k" := by
  have h0 : ((overtakenRun.state 8).nodes 0).validLine? "k" = some ⟨2, .modified, 2⟩ := by
    decide +kernel
  have h1 : ((overtakenRun.state 8).nodes 1).validLine? "k" = some ⟨1, .shared, 1⟩ := by
    decide +kernel
  refine ⟨by decide +kernel, by decide +kernel, h0, h1, fun h => ?_⟩
  have hvalue := h.agree 0 1 _ _ h0 h1
  cases hvalue

end Cache
