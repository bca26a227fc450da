import Terdistribusi.Cache.Properties.Integrity
import Terdistribusi.Cache.Properties.Coherence

/-!
# Calls one after the other

When a call of `get`, `put` or `delete` only begins while the cluster is at rest, the cache is one
register for each key that may forget: a `get` returns what was put last, unless it was deleted, or
nothing. What can still happen in any order are the deliveries, the timers and the `get`s that go
on, and every message but an INVALIDATE may be lost.

The cluster is in one of two phases. It is `Settled` while nothing but reads is under way, and then
all copies are good; after a `put` or a `delete` it is `Invalidating`, and then nothing but
INVALIDATEs is under way, one for each copy that is not good.
-/

namespace Cache

open Infra

variable {NodeId Key Value : Type} [DecidableEq Key]

/-- The message is an INVALIDATE. -/
def Payload.isInvalidate : Payload Key Value → Bool
  | .cacheInvalidate _ => true
  | _ => false

/-- What a key stands for after an event: the value put last, nothing after a `delete`. -/
def storedAfter (key : Key) (o : Option Value) : Event NodeId Key Value → Option Value
  | .call _ (.put key' value) => if key' = key then some value else o
  | .call _ (.delete key') => if key' = key then none else o
  | _ => o

/-- The call is not the timer of a `get` or a `get` that goes on. -/
def Call.begins : Call Key Value → Bool
  | .get _ | .put _ _ | .delete _ => true
  | .timeout _ | .resume _ => false

/-- A call of `get`, `put` or `delete` begins with the event. -/
def begins : Event NodeId Key Value → Bool
  | .call _ c => c.begins
  | _ => false

/-- The message that the event loses. -/
def lost? (s : Cluster NodeId Key Value) :
    Event NodeId Key Value → Option (Message NodeId (Payload Key Value))
  | .drop a k => (s.inbox a)[k]?
  | _ => none

/-! ## A node that writes -/

/-- The call puts the key or deletes it. -/
def Call.Writes (key : Key) (c : Call Key Value) : Prop :=
  (∃ value, c = .put key value) ∨ c = .delete key

omit [DecidableEq Key] in
theorem Call.Writes.begins {key : Key} {c : Call Key Value} (hc : c.Writes key) :
    c.begins = true := by
  rcases hc with ⟨value, rfl⟩ | rfl <;> rfl

namespace CacheNode

variable {cfg : Config NodeId} {s : CacheNode Key Value} {c : Call Key Value} {key : Key}

/-- A line that is there after a `put` or a `delete` is the one that is put, or of another key. -/
theorem line_of_writes (hc : c.Writes key) {key' : Key} {line : CacheLine Value}
    (hline : (act cfg (.call c) s).1.cache.get? key' = some line) :
    (key' = key ∧ c = .put key line.value) ∨ (key' ≠ key ∧ s.cache.get? key' = some line) := by
  by_cases hk : key' = key
  · subst hk
    rcases hc with ⟨value, rfl⟩ | rfl
    · rw [line_of_put] at hline
      rw [← Option.some.inj hline]
      exact Or.inl ⟨rfl, rfl⟩
    · simp [act, delete, Dict.get?_erase] at hline
  · refine Or.inr ⟨hk, ?_⟩
    rcases line_cases hline with ⟨hput, -⟩ | ⟨reply, hi, -⟩ | ⟨line', ha, -⟩ | ⟨hold, -, -⟩
    · rcases hc with ⟨value, rfl⟩ | rfl
      · cases hput
        exact absurd rfl hk
      · cases hput
    · rcases hc with ⟨value, rfl⟩ | rfl <;> cases hi
    · cases ha
    · exact hold

theorem reads_of_writes (hc : c.Writes key) : (act cfg (.call c) s).1.reads = s.reads := by
  rcases hc with ⟨value, rfl⟩ | rfl
  · exact (sameFutures_put key value).reads
  · rfl

theorem sent_of_writes (hc : c.Writes key) :
    (act cfg (.call c) s).2 = Network.broadcast cfg.nodeId cfg.peers (.cacheInvalidate key) := by
  rcases hc with ⟨value, rfl⟩ | rfl <;> rfl

/-- Without a suspended `get`, a timer or a `get` that goes on does nothing. -/
theorem act_of_reads (hs : s.reads.keys = []) (hc : c.begins = false) :
    act cfg (.call c) s = (s, []) ∧ s.given cfg c = none := by
  have hnone (id : ℕ) : s.reads.get? id = none := by
    cases hread : s.reads.get? id with
    | none => rfl
    | some read =>
      have hid := Dict.mem_keys_of_get? hread
      simp [hs] at hid
  cases c with
  | get key => cases hc
  | put key value => cases hc
  | delete key => cases hc
  | timeout id => simp [act, timeout, hnone, given]
  | resume id => simp [act, resume, hnone, given]

end CacheNode

/-! ## The two phases -/

section Phases

/-- Nothing but reads is under way, and all that there is is good. -/
structure Settled (P : Key → Value → ℕ → Prop) (s : Cluster NodeId Key Value) : Prop where
  nodes : ∀ a, (s.nodes a).Holds P
  inbox : ∀ a, ∀ m ∈ s.inbox a,
    CacheNode.Brings P m.payload ∧ m.payload.isInvalidate = false

/-- Nothing but INVALIDATEs is under way, and every line is good or has one on its way. -/
structure Invalidating (P : Key → Value → ℕ → Prop) (s : Cluster NodeId Key Value) : Prop where
  line : ∀ a key line, (s.nodes a).cache.get? key = some line →
    P key line.value line.version ∨ Invalidated s a key
  reads : ∀ a, (s.nodes a).reads.keys = []
  inbox : ∀ a, ∀ m ∈ s.inbox a, m.payload.isInvalidate = true

variable {P Q : Key → Value → ℕ → Prop} {s s' : Cluster NodeId Key Value}

/-- At rest there is no INVALIDATE left, and so all lines are good. -/
theorem Invalidating.settled (h : Invalidating P s) (hrest : AtRest s) : Settled P s where
  nodes := fun a =>
    { line := fun key line hline => by
        refine (h.line a key line hline).resolve_right ?_
        rintro ⟨m, hm, -⟩
        simp [hrest.1 a] at hm
      reply := fun id key reply hread => by
        have hid := Dict.mem_keys_of_get? hread
        simp [hrest.2 a] at hid }
  inbox := fun a m hm => by simp [hrest.1 a] at hm

variable [DecidableEq NodeId] {ms : Members NodeId} {e : Event NodeId Key Value}

/-- Reads keep a cluster settled. -/
theorem Settled.succ (h : Settled P s) (hs : ∀ a, (s.nodes a).Sound)
    (hstep : step ms ∅ s e = some s')
    (hkeeps : ∀ a key, (∀ value, e ≠ .call a (.put key value)) ∧ e ≠ .call a (.delete key)) :
    Settled P s' := by
  have hsucc := Network.everywhere_succ (N := fun _ n => CacheNode.Holds P n)
    (M := fun _ m => CacheNode.Brings P m.payload ∧ m.payload.isInvalidate = false)
    hstep h.nodes h.inbox fun a inp hinput hreceived => ?_
  · exact ⟨hsucc.1, hsucc.2⟩
  · have hput (key : Key) (value : Value) (hinp : inp = .call (.put key value)) : False := by
      subst hinp
      exact (hkeeps a key).1 value (Network.input?_call hinput)
    have hdelete (key : Key) (hinp : inp = .call (.delete key)) : False := by
      subst hinp
      exact (hkeeps a key).2 (Network.input?_call hinput)
    obtain ⟨hnode, hsent⟩ : (ms.act a inp (s.nodes a)).1.Holds P ∧
        ∀ m ∈ (ms.act a inp (s.nodes a)).2, CacheNode.Brings P m.payload :=
      (h.nodes a).act (hs a) (fun env m hinp => (hreceived env m hinp).1)
        fun key value hinp => (hput key value hinp).elim
    refine ⟨hnode, fun m hm => ⟨hsent m hm, ?_⟩⟩
    rcases CacheNode.sent_act hm with ⟨_, -, hp⟩ | ⟨key, ⟨value, hinp⟩ | hinp, -⟩ | ⟨_, _, -, hp⟩
    · simp [hp, Payload.isInvalidate]
    · exact (hput key value hinp).elim
    · exact (hdelete key hinp).elim
    · simp [hp, Payload.isInvalidate]

/-- **A `put` or a `delete` at rest** makes all other copies of its key bad, and sends an INVALIDATE
to each. -/
theorem Settled.write (h : Settled P s) (hrest : AtRest s) {a : NodeId} {c : Call Key Value}
    {key : Key} (hstep : step ms ∅ s (.call a c) = some s')
    (hc : c.Writes key)
    (hothers : ∀ key' value version, key' ≠ key → P key' value version → Q key' value version)
    (hput : ∀ value version, c = .put key value → Q key value version) : Invalidating Q s' := by
  obtain ⟨inbox₀, hmoves⟩ : ∃ inbox₀, Network.Moves ms.act s s' a (.call c) inbox₀ := by
    rcases Network.moves_cases hstep with ⟨b, k, m, he, -⟩ | ⟨b, inp, inbox₀, hinput, hmoves⟩
    · cases he
    · cases hinput
      exact ⟨inbox₀, hmoves⟩
  have hsent : (ms.act a (.call c) (s.nodes a)).2 =
      Network.broadcast a (ms.peers a) (.cacheInvalidate key) := CacheNode.sent_of_writes hc
  refine ⟨fun b key' line hline => ?_, fun b => ?_, fun b m hm => ?_⟩
  · rw [hmoves.nodes] at hline
    by_cases hb : b = a
    · subst hb
      rw [Function.update_self] at hline
      rcases CacheNode.line_of_writes hc hline with ⟨rfl, rfl⟩ | ⟨hk, hold⟩
      · exact Or.inl (hput line.value line.version rfl)
      · exact Or.inl (hothers _ _ _ hk ((h.nodes b).line key' line hold))
    · rw [Function.update_of_ne hb] at hline
      by_cases hk : key' = key
      · subst hk
        -- the copy at another node is bad until it takes the INVALIDATE
        refine Or.inr ⟨⟨a, b, .cacheInvalidate key'⟩, hmoves.sent ?_, by simp [Payload.invalidates]⟩
        rw [hsent]
        exact Network.mem_broadcast.mpr ⟨rfl, rfl, (ms.mem_peers a b).mpr hb⟩
      · exact Or.inl (hothers _ _ _ hk ((h.nodes b).line key' line hline))
  · rw [hmoves.nodes]
    by_cases hb : b = a
    · subst hb
      rw [Function.update_self]
      exact (congrArg Dict.keys (CacheNode.reads_of_writes hc)).trans (hrest.2 b)
    · rw [Function.update_of_ne hb]
      exact hrest.2 b
  · rcases hmoves.mem_inbox hm with hold | ⟨hout, -⟩
    · simp [hrest.1 b] at hold
    · rw [hsent] at hout
      rw [(Network.mem_broadcast.mp hout).2.1]
      rfl

/-- **Until the INVALIDATEs are taken**, nothing else happens. -/
theorem Invalidating.succ (h : Invalidating P s) (hstep : step ms ∅ s e = some s')
    (hbegins : begins e = false) (hkept : ∀ m ∈ lost? s e, m.payload.isInvalidate = false) :
    Invalidating P s' := by
  rcases Network.moves_cases hstep with ⟨a, k, m, rfl, -⟩ | ⟨a, inp, inbox₀, hinput, hmoves⟩
  · -- only an INVALIDATE could be lost
    simp only [step, Network.step] at hstep
    split at hstep
    · next hk =>
      have hm : (s.inbox a)[k]? = some (s.inbox a)[k] := List.getElem?_eq_getElem hk
      have hfalse := hkept _ hm
      rw [h.inbox a _ (List.getElem_mem hk)] at hfalse
      cases hfalse
    · cases hstep
  · cases inp with
    | call c =>
      -- no call begins and no `get` waits, so a call does nothing
      have hact : CacheNode.act (ms.config a) (.call c) (s.nodes a) = (s.nodes a, []) := by
        obtain rfl := Network.input?_call hinput
        exact (CacheNode.act_of_reads (h.reads a) hbegins).1
      have hnodes : s'.nodes = s.nodes := by
        rw [hmoves.nodes, Members.act, hact, Function.update_eq_self]
      have hinbox : s'.inbox = s.inbox := by
        funext b
        rw [hmoves.inbox, Members.act, hact, hmoves.called c rfl]
        simp
      refine ⟨?_, ?_, ?_⟩
      · unfold Invalidated
        rw [hnodes, hinbox]
        exact h.line
      · rw [hnodes]
        exact h.reads
      · rw [hinbox]
        exact h.inbox
    | receive env m =>
      obtain ⟨k, -, hk⟩ := Network.input?_receive hinput
      have hm := h.inbox a m (List.mem_of_getElem? hk)
      obtain ⟨key, hkey⟩ : ∃ key, m.payload = .cacheInvalidate key := by
        cases hp : m.payload with
        | cacheInvalidate key => exact ⟨key, rfl⟩
        | cacheFetch key => simp [hp, Payload.isInvalidate] at hm
        | cacheResponse key reply => simp [hp, Payload.isInvalidate] at hm
      -- all that can be received is an INVALIDATE, which drops the line
      have hact : ms.act a (.receive env m) (s.nodes a) =
          ((s.nodes a).handleInvalidate key, []) := by
        simp [Members.act, CacheNode.act, hkey]
      refine ⟨fun b key' line hline => ?_, fun b => ?_, fun b m' hm' => ?_⟩
      · -- another INVALIDATE stays in its inbox
        have hkeeps (hinv : Invalidated s b key') (hne : b = a → key' ≠ key) :
            Invalidated s' b key' := by
          obtain ⟨m', hm', hinv'⟩ := hinv
          refine ⟨m', hmoves.kept hm' ?_, hinv'⟩
          rintro env' x ⟨⟩ hb rfl
          simp only [hkey, Payload.invalidates, decide_eq_true_eq] at hinv'
          exact hne hb hinv'.symm
        rw [hmoves.nodes] at hline
        by_cases hb : b = a
        · subst hb
          rw [Function.update_self, hact, CacheNode.get?_handleInvalidate] at hline
          split at hline
          · cases hline
          · next hne =>
            exact (h.line b key' line hline).imp_right fun hinv => hkeeps hinv fun _ => Ne.symm hne
        · rw [Function.update_of_ne hb] at hline
          refine (h.line b key' line hline).imp_right fun hinv => ?_
          exact hkeeps hinv fun hb' => absurd hb' hb
      · rw [hmoves.nodes]
        by_cases hb : b = a
        · subst hb
          rw [Function.update_self, hact]
          exact (congrArg Dict.keys (CacheNode.sameFutures_handleInvalidate key).reads).trans
            (h.reads b)
        · rw [Function.update_of_ne hb]
          exact h.reads b
      · rcases hmoves.mem_inbox hm' with hold | ⟨hout, -⟩
        · exact h.inbox b m' hold
        · rw [hact] at hout
          cases hout

end Phases

/-! ## Runs -/

theorem storedAfter_of_ne {key : Key} {o : Option Value} {e : Event NodeId Key Value}
    (h : ∀ a, (∀ value, e ≠ .call a (.put key value)) ∧ e ≠ .call a (.delete key)) :
    storedAfter key o e = o := by
  unfold storedAfter
  split
  · next a key' value =>
    refine if_neg ?_
    rintro rfl
    exact (h a).1 value rfl
  · next a key' =>
    refine if_neg ?_
    rintro rfl
    exact (h a).2 rfl
  · rfl

namespace ClusterRun

variable [DecidableEq NodeId] {ms : Members NodeId} (run : ClusterRun ms ∅ Key Value)

/-- Calls of `get`, `put` and `delete` begin at rest only. -/
def Sequential : Prop := ∀ i < run.length, begins (run.event i) = true → AtRest (run.state i)

/-- No INVALIDATE is lost. -/
def KeepsInvalidates : Prop :=
  ∀ i < run.length, ∀ m ∈ lost? (run.state i) (run.event i), m.payload.isInvalidate = false

instance {n : ℕ} {ms : Members (Fin n)} (run : ClusterRun ms ∅ Key Value) :
    Decidable run.Sequential :=
  inferInstanceAs (Decidable (∀ i < run.length, _))

instance : Decidable run.KeepsInvalidates :=
  inferInstanceAs (Decidable (∀ i < run.length, ∀ m ∈ lost? (run.state i) (run.event i), _))

/-- What the key stands for at time `i`. -/
def stored (key : Key) : ℕ → Option Value
  | 0 => none
  | i + 1 => storedAfter key (stored key i) (run.event i)

/-- The value is what the key stands for. -/
def Good (i : ℕ) (key : Key) (value : Value) (_version : ℕ) : Prop := run.stored key i = some value

variable {run} {i : ℕ}

theorem good_succ (h : ∀ a key, (∀ value, run.event i ≠ .call a (.put key value)) ∧
    run.event i ≠ .call a (.delete key)) : run.Good (i + 1) = run.Good i := by
  funext key value version
  have hkeep : run.stored key (i + 1) = run.stored key i := storedAfter_of_ne fun a => h a key
  unfold Good
  rw [hkeep]

/-- A call that begins finds the cluster settled. -/
theorem settled_of_begins (hseq : run.Sequential) (hi : i < run.length)
    (hbegins : begins (run.event i) = true)
    (h : Settled (run.Good i) (run.state i) ∨ Invalidating (run.Good i) (run.state i)) :
    Settled (run.Good i) (run.state i) :=
  h.elim id fun hinv => hinv.settled (hseq i hi hbegins)

/-- After a `put` or a `delete` the INVALIDATEs are under way. -/
theorem invalidating_of_writes (hseq : run.Sequential) (hi : i < run.length)
    (h : Settled (run.Good i) (run.state i) ∨ Invalidating (run.Good i) (run.state i))
    {a : NodeId} {c : Call Key Value} {key : Key} (he : run.event i = .call a c)
    (hc : c.Writes key) : Invalidating (run.Good (i + 1)) (run.state (i + 1)) := by
  have hbegins : begins (run.event i) = true := by
    rw [he]
    exact hc.begins
  have hsettled := settled_of_begins hseq hi hbegins h
  refine hsettled.write (hseq i hi hbegins) (he ▸ run.state_succ i hi) hc ?_ ?_
  · intro key' value version hk hgood
    refine Eq.trans (storedAfter_of_ne fun b => ?_) hgood
    rw [he]
    constructor
    · rintro value' heq
      cases heq
      rcases hc with ⟨value'', hput⟩ | hput
      · cases hput
        exact hk rfl
      · cases hput
    · intro heq
      cases heq
      rcases hc with ⟨value'', hdelete⟩ | hdelete
      · cases hdelete
      · cases hdelete
        exact hk rfl
  · rintro value version rfl
    show storedAfter key _ (run.event i) = some value
    simp [he, storedAfter]

variable (run)

/-- **The cluster is always in one of the two phases.** -/
theorem phases (hseq : run.Sequential) (hkeeps : run.KeepsInvalidates) : ∀ i ≤ run.length,
    Settled (run.Good i) (run.state i) ∨ Invalidating (run.Good i) (run.state i) := by
  refine run.induction ?_ fun i hi h => ?_
  · rw [run.state_zero]
    exact Or.inl ⟨fun a => .init (ms.config a) _, fun a m hm => by cases hm⟩
  · have hstep := run.state_succ i hi
    have hsound := (run.sound i (Nat.le_of_lt hi)).1
    by_cases hwrites : ∃ a c key, run.event i = .call a c ∧ c.Writes key
    · obtain ⟨a, c, key, he, hc⟩ := hwrites
      exact Or.inr (invalidating_of_writes hseq hi h he hc)
    · have hreads (a : NodeId) (key : Key) : (∀ value, run.event i ≠ .call a (.put key value)) ∧
          run.event i ≠ .call a (.delete key) :=
        ⟨fun value he => hwrites ⟨a, _, key, he, Or.inl ⟨value, rfl⟩⟩,
          fun he => hwrites ⟨a, _, key, he, Or.inr rfl⟩⟩
      rw [good_succ hreads]
      cases hbegins : begins (run.event i) with
      | true => exact Or.inl ((settled_of_begins hseq hi hbegins h).succ hsound hstep hreads)
      | false =>
        rcases h with hsettled | hinv
        · exact Or.inl (hsettled.succ hsound hstep hreads)
        · exact Or.inr (hinv.succ hstep hbegins (hkeeps i hi))

/-- **Calls one after the other see one register for each key.** When calls begin at rest only and
no INVALIDATE is lost, whatever is evicted and whichever other messages are lost or timers run out,
a `get` that returns a value returns the one that was put last and has not been deleted since; and
at rest all copies at all nodes have that value. -/
theorem get_returns_last (hseq : run.Sequential) (hkeeps : run.KeepsInvalidates) :
    (∀ i < run.length, ∀ a c, run.event i = .call a c → ∀ key value,
      ((run.state i).nodes a).given (ms.config a) c = some (key, value) →
        run.stored key i = some value) ∧
    ∀ i ≤ run.length, AtRest (run.state i) → ∀ a key line,
      ((run.state i).nodes a).cache.get? key = some line →
        run.stored key i = some line.value := by
  refine ⟨fun i hi a c he key value hgiven => ?_, fun i hi hrest a key line hline => ?_⟩
  · have hphase := phases run hseq hkeeps i (Nat.le_of_lt hi)
    cases hbegins : begins (run.event i) with
    | true =>
      have hsettled := settled_of_begins hseq hi hbegins hphase
      obtain ⟨version, hgood⟩ := (hsettled.nodes a).given hgiven
      exact hgood
    | false =>
      rcases hphase with hsettled | hinv
      · obtain ⟨version, hgood⟩ := (hsettled.nodes a).given hgiven
        exact hgood
      · rw [he] at hbegins
        rw [(CacheNode.act_of_reads (hinv.reads a) hbegins).2] at hgiven
        cases hgiven
  · rcases phases run hseq hkeeps i hi with hsettled | hinv
    · exact (hsettled.nodes a).line key line hline
    · exact ((hinv.settled hrest).nodes a).line key line hline

end ClusterRun

/-- The two nodes put the key in turn, and each fetches it from the other. -/
def takeTurns : ClusterRun pair ∅ String ℕ :=
  Run.ofEvents _ _ (fetched ++ [.call 1 (.resume 0), .call 1 (.put "k" 2), .deliver 0 0 (),
    .call 0 (.get "k"), .deliver 1 0 (), .deliver 0 0 (), .call 0 (.resume 0)]) (.call 0 (.get "k"))
    (by decide +kernel)

theorem get_returns_last_takeTurns : takeTurns.stored "k" 11 = some 2 :=
  (takeTurns.get_returns_last (by decide +kernel) (by decide +kernel)).1 11 (by decide) 0
    (.resume 0) rfl "k" 2 (by decide +kernel)

end Cache
