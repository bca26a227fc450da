import Terdistribusi.Infra.Network

/-!
# Runs that carry more

When a system never looks at its values, its runs can carry more in them: a run of the system with
richer values is a run of the system itself, once what is more in the values is erased. Conversely
every run of the system can be carried out with richer values, whichever of them its events bring.

* `Run.lift` — the run with richer values
* `Network.erases` — a network erases as soon as what one node does with one input does
-/

namespace Infra

variable {σ σ' ε ε' : Type*}

/-- Under `f` and `g`, what `step'` does is exactly what `step` does. -/
def Erases (step' : σ' → ε' → Option σ') (step : σ → ε → Option σ) (f : σ' → σ) (g : ε' → ε) :
    Prop :=
  ∀ s e, step (f s) (g e) = (step' s e).map f

namespace Run

/-- The states that the events lead to. -/
def trace (step : σ → ε → Option σ) (start : σ) (events : ℕ → ε) : ℕ → σ
  | 0 => start
  | i + 1 => (step (trace step start events i) (events i)).getD (trace step start events i)

variable {step' : σ' → ε' → Option σ'} {step : σ → ε → Option σ} {f : σ' → σ} {g : ε' → ε}
  {start' : σ'}

/-- What happens above is what happens below. -/
theorem erase_trace (h : Erases step' step f g) (run : Run step (f start')) {events : ℕ → ε'}
    (he : ∀ i, g (events i) = run.event i) :
    ∀ i ≤ run.length, f (trace step' start' events i) = run.state i := by
  refine run.induction run.state_zero.symm fun i hi ih => ?_
  have hstep := run.state_succ i hi
  rw [← ih, ← he, h] at hstep
  obtain ⟨t, ht, hf⟩ := Option.map_eq_some_iff.mp hstep
  rw [trace, ht, Option.getD_some]
  exact hf

/-- **The run with the given events**, which erase to those of the run below. -/
def lift (h : Erases step' step f g) (run : Run step (f start')) (events : ℕ → ε')
    (he : ∀ i, g (events i) = run.event i) : Run step' start' where
  length := run.length
  state := trace step' start' events
  event := events
  state_zero := rfl
  state_succ := by
    intro i hi
    have hstep := run.state_succ i hi
    rw [← erase_trace h run he i (Nat.le_of_lt hi), ← he, h] at hstep
    obtain ⟨t, ht, -⟩ := Option.map_eq_some_iff.mp hstep
    rw [trace, ht, Option.getD_some]

theorem erase_lift (start' : σ') (h : Erases step' step f g) (run : Run step (f start'))
    (events : ℕ → ε')
    (he : ∀ i, g (events i) = run.event i) {i : ℕ} (hi : i ≤ run.length) :
    f ((lift h run events he).state i) = run.state i :=
  erase_trace h run he i hi

end Run

/-! ## Networks -/

section Map

variable {Addr Node Node' Call Call' Env Payload Payload' : Type*}

def Message.map (fp : Payload' → Payload) (m : Message Addr Payload') : Message Addr Payload :=
  { senderId := m.senderId, receiverId := m.receiverId, payload := fp m.payload }

def Input.map (fc : Call' → Call) (fp : Payload' → Payload) :
    Input Addr Call' Env Payload' → Input Addr Call Env Payload
  | .call c => .call (fc c)
  | .receive env m => .receive env (m.map fp)

namespace Network

def Event.map (fc : Call' → Call) (fp : Payload' → Payload) :
    Event Addr Call' Env Payload' → Event Addr Call Env Payload
  | .call a c => .call a (fc c)
  | .deliver a k env => .deliver a k env
  | .drop a k => .drop a k
  | .forge m => .forge (m.map fp)

def map (fn : Node' → Node) (fp : Payload' → Payload) (s : Network Addr Node' Payload') :
    Network Addr Node Payload :=
  { nodes := fun a => fn (s.nodes a), inbox := fun a => (s.inbox a).map (Message.map fp) }

variable [DecidableEq Addr] {fn : Node' → Node} {fp : Payload' → Payload}

theorem map_send (ms : List (Message Addr Payload')) (s : Network Addr Node' Payload') :
    (s.send ms).map fn fp = (s.map fn fp).send (ms.map (Message.map fp)) := by
  unfold map send
  congr 1
  funext b
  rw [List.map_append, List.filter_map]
  rfl

omit [DecidableEq Addr] in
theorem map_broadcast (fp : Payload' → Payload) (a : Addr) (peers : List Addr) (p : Payload') :
    (broadcast a peers p).map (Message.map fp) = broadcast a peers (fp p) := by
  unfold broadcast
  rw [List.map_map]
  rfl

theorem map_remove (a : Addr) (k : ℕ) (s : Network Addr Node' Payload') :
    (s.remove a k).map fn fp = (s.map fn fp).remove a k := by
  unfold map remove
  congr 1
  funext b
  by_cases hb : b = a
  · subst hb
    dsimp only
    rw [Function.update_self, Function.update_self, List.eraseIdx_map]
  · dsimp only
    rw [Function.update_of_ne hb, Function.update_of_ne hb]

variable {fc : Call' → Call}
  {act' : Addr → Input Addr Call' Env Payload' → Node' → Node' × List (Message Addr Payload')}
  {act : Addr → Input Addr Call Env Payload → Node → Node × List (Message Addr Payload)}

theorem map_perform
    (hact : ∀ a inp n, act a (inp.map fc fp) (fn n) =
      (fn (act' a inp n).1, (act' a inp n).2.map (Message.map fp)))
    (a : Addr) (inp : Input Addr Call' Env Payload') (s : Network Addr Node' Payload') :
    (s.perform act' a inp).map fn fp = (s.map fn fp).perform act a (inp.map fc fp) := by
  have hnodes : (fun b => fn (Function.update s.nodes a (act' a inp (s.nodes a)).1 b)) =
      Function.update (fun b => fn (s.nodes b)) a (fn (act' a inp (s.nodes a)).1) :=
    funext fun b => Function.apply_update (fun _ => fn) s.nodes a _ b
  unfold perform
  rw [map_send]
  dsimp only
  rw [show (s.map fn fp).nodes a = fn (s.nodes a) from rfl, hact]
  exact congrArg (send _) (congrArg₂ Network.mk hnodes rfl)

/-- **A network erases** as soon as what one node does with one input does. -/
theorem erases (faulty : Finset Addr)
    (hact : ∀ a inp n, act a (inp.map fc fp) (fn n) =
      (fn (act' a inp n).1, (act' a inp n).2.map (Message.map fp))) :
    Erases (step act' faulty) (step act faulty) (map fn fp) (Event.map fc fp) := by
  intro s e
  cases e with
  | call a c =>
    unfold step Event.map
    dsimp only
    split
    · rfl
    · rw [Option.map_some, map_perform hact]
      rfl
  | deliver a k env =>
    -- the erased network has the same messages at the same places
    have hget : ((s.map fn fp).inbox a)[k]? = ((s.inbox a)[k]?).map (Message.map fp) :=
      List.getElem?_map
    unfold step Event.map
    dsimp only
    rw [hget]
    cases (s.inbox a)[k]? with
    | none => rfl
    | some m =>
      rw [Option.map_some]
      dsimp only
      split
      · rw [Option.map_some, map_remove]
      · rw [Option.map_some, map_perform hact, map_remove]
        rfl
  | drop a k =>
    have hlen : ((s.map fn fp).inbox a).length = (s.inbox a).length := List.length_map _
    unfold step Event.map
    dsimp only
    rw [hlen]
    split
    · rw [Option.map_some, map_remove]
    · rfl
  | forge m =>
    unfold step Event.map
    dsimp only
    rw [show (m.map fp).senderId = m.senderId from rfl]
    split
    · rw [Option.map_some, map_send]
      rfl
    · rfl

end Network

end Map

end Infra
