import Mathlib.Data.Nat.Init
import Mathlib.Data.List.TakeDrop
import Mathlib.Data.List.Range
import Mathlib.Data.Finset.Basic
import Mathlib.Order.Monotone.Basic
import Mathlib.Algebra.GroupWithZero.Nat

/-!
# Runs of a deterministic step function

A system is a function `step : σ → ε → Option σ`: what the event `e` does in the state `s`, `none`
when `e` cannot happen there. Nondeterminism is in the choice of the events.

* `Run step start` — a finite run with all of its states, for statements about what happened
  earlier in the run
* `exec step start es` — the last state only

A property of every state of a run is proved from what one step preserves (`Run.invariant`,
`exec_invariant_of`), that it fails somewhere from what one step breaks (`Run.always_iff`), and a
relation between an earlier and a later state from what relates two neighbours (`Run.rel`), and that
a queue is served in order from what a step takes from its front and puts at its end (`Run.fifo`).
That a system comes to rest is proved with a measure (`exists_exec_of_measure`), that it can get
somewhere by going on from what is reached (`Reaches.trans`), also by events of one kind only
(`ReachesBy`).

`Refinement` relates two systems: what is invariant in the abstract one is invariant in the concrete
one (`Refinement.invariant`). In a `Simulation` the abstract system takes any number of steps for
one step of the concrete one, and goes through related states in a run of its own
(`Simulation.exists_run`).
-/

namespace Infra

variable {σ ε : Type*}

/-- A run: `length` events, and the states before, between and after them. -/
structure Run (step : σ → ε → Option σ) (start : σ) where
  length : ℕ
  state : ℕ → σ
  event : ℕ → ε
  state_zero : state 0 = start
  state_succ : ∀ i < length, step (state i) (event i) = some (state (i + 1))

namespace Run

variable {step : σ → ε → Option σ} {start : σ}

/-- Induction along a run: what holds of time `0` and passes from `i` to `i + 1` holds at every
time of the run. -/
theorem induction (r : Run step start) {P : ℕ → Prop} (h0 : P 0)
    (hs : ∀ i < r.length, P i → P (i + 1)) : ∀ i ≤ r.length, P i := by
  intro i
  induction i with
  | zero => exact fun _ => h0
  | succ i ih => exact fun hi => hs i hi (ih (by omega))

/-- A state property that every step satisfying `G` preserves holds in every state of a run whose
steps all satisfy `G`. -/
theorem invariant_of (r : Run step start) {G : σ → ε → Prop} {P : σ → Prop}
    (hg : ∀ i < r.length, G (r.state i) (r.event i)) (h0 : P start)
    (hs : ∀ s e s', P s → G s e → step s e = some s' → P s') :
    ∀ i ≤ r.length, P (r.state i) :=
  r.induction (by rw [r.state_zero]; exact h0)
    (fun i hi hp => hs _ _ _ hp (hg i hi) (r.state_succ i hi))

theorem invariant (r : Run step start) {P : σ → Prop} (h0 : P start)
    (hs : ∀ s e s', P s → step s e = some s' → P s') : ∀ i ≤ r.length, P (r.state i) :=
  r.invariant_of (G := fun _ _ => True) (fun _ _ => trivial) h0 (fun s e s' hp _ => hs s e s' hp)

/-- A property that a step keeps exactly when it satisfies `G` holds in every state of a run exactly
when all steps of the run satisfy `G`. -/
theorem always_iff (r : Run step start) {P : σ → Prop} {G : σ → ε → Prop} (h0 : P start)
    (hs : ∀ i < r.length, P (r.state i) → (P (r.state (i + 1)) ↔ G (r.state i) (r.event i))) :
    (∀ i ≤ r.length, P (r.state i)) ↔ ∀ i < r.length, G (r.state i) (r.event i) := by
  constructor
  · intro h i hi
    exact (hs i hi (h i (Nat.le_of_lt hi))).mp (h (i + 1) hi)
  · intro hg
    refine r.induction ?_ (fun i hi ih => (hs i hi ih).mpr (hg i hi))
    rw [r.state_zero]
    exact h0

/-- A reflexive and transitive relation between neighbours relates an earlier to a later state. -/
theorem rel (r : Run step start) {R : σ → σ → Prop} (hrefl : ∀ s, R s s)
    (htrans : ∀ a b c, R a b → R b c → R a c)
    (hs : ∀ i < r.length, R (r.state i) (r.state (i + 1))) {i j : ℕ} (hij : i ≤ j)
    (hj : j ≤ r.length) : R (r.state i) (r.state j) := by
  induction j, hij using Nat.le_induction with
  | base => exact hrefl _
  | succ j _ ih => exact htrans _ _ _ (ih (by omega)) (hs j hj)

/-- What events of kind `A` establish and events of kind `B` end holds exactly when there was an `A`
with no `B` since. -/
theorem since (r : Run step start) {P A B : ℕ → Prop} (h0 : ¬ P 0)
    (hs : ∀ i < r.length, (P (i + 1) ↔ A i ∨ P i ∧ ¬ B i)) :
    ∀ i ≤ r.length, (P i ↔ ∃ a < i, A a ∧ ∀ b < i, a < b → ¬ B b) := by
  refine r.induction (by simpa using h0) (fun i hi ih => (hs i hi).trans ?_)
  rw [ih]
  constructor
  · rintro (ha | ⟨⟨a, hai, ha, hb⟩, hi'⟩)
    · exact ⟨i, i.lt_succ_self, ha, fun b hb hab => by omega⟩
    · refine ⟨a, by omega, ha, fun b hbi hab => ?_⟩
      rcases Nat.lt_succ_iff_lt_or_eq.mp hbi with hlt | rfl
      · exact hb b hlt hab
      · exact hi'
  · rintro ⟨a, hai, ha, hb⟩
    rcases Nat.lt_succ_iff_lt_or_eq.mp hai with hlt | rfl
    · exact Or.inr ⟨⟨a, hlt, ha, fun b hbi hab => hb b (by omega) hab⟩,
        hb i i.lt_succ_self hlt⟩
    · exact Or.inl ha

section History

variable {α : Type*}

/-- What the steps before time `i` have made, in order. -/
def history (r : Run step start) (f : σ → ε → List α) (i : ℕ) : List α :=
  (List.range i).flatMap fun j => f (r.state j) (r.event j)

@[simp] theorem history_zero (r : Run step start) (f : σ → ε → List α) : r.history f 0 = [] := rfl

theorem history_succ (r : Run step start) (f : σ → ε → List α) (i : ℕ) :
    r.history f (i + 1) = r.history f i ++ f (r.state i) (r.event i) := by
  simp [history, List.range_succ]

/-- **First in, first out**: what has come is what has gone, in the same order, and then what is in
the queue. -/
theorem fifo (r : Run step start) (queue : σ → List α) {into out : σ → ε → List α}
    (h0 : queue start = [])
    (hs : ∀ i < r.length, queue (r.state i) ++ into (r.state i) (r.event i) =
      out (r.state i) (r.event i) ++ queue (r.state (i + 1))) :
    ∀ i ≤ r.length, r.history into i = r.history out i ++ queue (r.state i) := by
  refine r.induction ?_ fun i hi ih => ?_
  · simp [r.state_zero, h0]
  · rw [history_succ, history_succ, ih, List.append_assoc, hs i hi, List.append_assoc]

end History

end Run

/-- A value that some steps set and the others keep is what it was set to last. -/
theorem eq_iff_of_sets {α : Type*} (value : ℕ → α) (sets : ℕ → Option α) {i : ℕ} :
    ∀ {j : ℕ}, i ≤ j → (∀ m, i ≤ m → m < j → value (m + 1) = (sets m).getD (value m)) →
      (value j = value i ↔ ∀ m x, i ≤ m → m < j → sets m = some x →
        (∀ m', m < m' → m' < j → sets m' = none) → x = value i) := by
  intro j hij
  induction j, hij using Nat.le_induction with
  | base =>
    intro _
    exact iff_of_true rfl fun m x him hmi => absurd hmi (Nat.not_lt.mpr him)
  | succ j hij ih =>
    intro hs
    have hj := hs j hij (Nat.lt_succ_self j)
    have ih := ih fun m him hmj => hs m him (Nat.lt_succ_of_lt hmj)
    cases hset : sets j with
    | some y =>
      rw [hset, Option.getD_some] at hj
      rw [hj]
      constructor
      · rintro rfl m x him hmj hx hlast
        rcases Nat.lt_succ_iff_lt_or_eq.mp hmj with hlt | rfl
        · rw [hlast j hlt (Nat.lt_succ_self j)] at hset
          cases hset
        · rw [hset] at hx
          exact (Option.some.inj hx).symm
      · intro h
        exact h j y hij (Nat.lt_succ_self j) hset fun m' hjm hmj => by omega
    | none =>
      rw [hset, Option.getD_none] at hj
      rw [hj, ih]
      constructor
      · intro h m x him hmj hx hlast
        rcases Nat.lt_succ_iff_lt_or_eq.mp hmj with hlt | rfl
        · exact h m x him hlt hx fun m' hm hm' => hlast m' hm (Nat.lt_succ_of_lt hm')
        · rw [hset] at hx
          cases hx
      · intro h m x him hmj hx hlast
        refine h m x him (Nat.lt_succ_of_lt hmj) hx fun m' hm hm' => ?_
        rcases Nat.lt_succ_iff_lt_or_eq.mp hm' with hlt | rfl
        · exact hlast m' hm hlt
        · exact hset

/-! ## Refinement -/

/-- Under `f`, every step from a state that satisfies `Inv` is a step of the abstract system, or
leaves the abstract state as it is. -/
structure Refinement {τ δ : Type*} (step : σ → ε → Option σ) (step' : τ → δ → Option τ)
    (Inv : σ → Prop) (f : σ → τ) : Prop where
  inv_step : ∀ s e s', Inv s → step s e = some s' → Inv s'
  sim_step : ∀ s e s', Inv s → step s e = some s' →
    f s' = f s ∨ ∃ d, step' (f s) d = some (f s')

namespace Refinement

variable {τ δ υ ζ : Type*} {step : σ → ε → Option σ} {step' : τ → δ → Option τ}
  {step'' : υ → ζ → Option υ} {Inv : σ → Prop} {Inv' : τ → Prop} {f : σ → τ} {g : τ → υ}
  {start : σ}

theorem inv (h : Refinement step step' Inv f) (r : Run step start) (h0 : Inv start) :
    ∀ i ≤ r.length, Inv (r.state i) :=
  r.invariant h0 h.inv_step

/-- An invariant of the abstract system holds throughout a run of the concrete one. -/
theorem invariant (h : Refinement step step' Inv f) (r : Run step start) (h0 : Inv start)
    {P : τ → Prop} (hp : P (f start)) (hs : ∀ t d t', P t → step' t d = some t' → P t') :
    ∀ i ≤ r.length, P (f (r.state i)) := by
  intro i hi
  have hboth := r.invariant (P := fun s => Inv s ∧ P (f s)) ⟨h0, hp⟩ (fun s e s' hs' hstep => ?_)
  · exact (hboth i hi).2
  · refine ⟨h.inv_step s e s' hs'.1 hstep, ?_⟩
    rcases h.sim_step s e s' hs'.1 hstep with hf | ⟨d, hd⟩
    · rw [hf]
      exact hs'.2
    · exact hs (f s) d (f s') hs'.2 hd

theorem comp (h : Refinement step step' Inv f) (h' : Refinement step' step'' Inv' g) :
    Refinement step step'' (fun s => Inv s ∧ Inv' (f s)) (g ∘ f) := by
  constructor
  · rintro s e s' ⟨hs, hfs⟩ hstep
    refine ⟨h.inv_step s e s' hs hstep, ?_⟩
    rcases h.sim_step s e s' hs hstep with hf | ⟨d, hd⟩
    · rw [hf]
      exact hfs
    · exact h'.inv_step (f s) d (f s') hfs hd
  · rintro s e s' ⟨hs, hfs⟩ hstep
    rcases h.sim_step s e s' hs hstep with hf | ⟨d, hd⟩
    · exact Or.inl (congrArg g hf)
    · exact h'.sim_step (f s) d (f s') hfs hd

end Refinement

/-! ## Executing a list of events -/

/-- The state after all of the events, `none` when one of them cannot happen. -/
def exec (step : σ → ε → Option σ) : σ → List ε → Option σ
  | s, [] => some s
  | s, e :: es => (step s e).bind fun s' => exec step s' es

@[simp] theorem exec_nil (step : σ → ε → Option σ) (s : σ) : exec step s [] = some s := rfl

theorem exec_cons (step : σ → ε → Option σ) (s : σ) (e : ε) (es : List ε) :
    exec step s (e :: es) = (step s e).bind fun s' => exec step s' es := rfl

theorem exec_append (step : σ → ε → Option σ) : ∀ (es fs : List ε) (s : σ),
    exec step s (es ++ fs) = (exec step s es).bind fun s' => exec step s' fs
  | [], _, _ => rfl
  | e :: es, fs, s => by
    rw [List.cons_append, exec_cons, exec_cons, Option.bind_assoc]
    congr 1
    funext s'
    exact exec_append step es fs s'

theorem exec_concat {step : σ → ε → Option σ} {s s' : σ} {es : List ε} {e : ε} :
    exec step s (es ++ [e]) = some s' ↔ ∃ t, exec step s es = some t ∧ step t e = some s' := by
  rw [exec_append, Option.bind_eq_some_iff]
  simp only [exec, Option.bind_fun_some]

/-- A state property that every event satisfying `G` preserves holds after any list of such
events. -/
theorem exec_invariant_of {step : σ → ε → Option σ} {P : σ → Prop} {G : ε → Prop}
    (hs : ∀ s e s', P s → G e → step s e = some s' → P s') :
    ∀ (es : List ε) {s s' : σ}, P s → (∀ e ∈ es, G e) → exec step s es = some s' → P s'
  | [], s, s', hp, _, h => by cases h; exact hp
  | e :: es, s, s', hp, hg, h => by
    obtain ⟨t, ht, hr⟩ := Option.bind_eq_some_iff.mp h
    exact exec_invariant_of hs es (hs _ _ _ hp (hg e List.mem_cons_self) ht)
      (fun x hx => hg x (List.mem_cons_of_mem e hx)) hr

-- The nodes and clients of example runs are numerals.
instance neZero_two : NeZero 2 := ⟨by decide⟩

instance neZero_three : NeZero 3 := ⟨by decide⟩

instance neZero_four : NeZero 4 := ⟨by decide⟩

instance neZero_five : NeZero 5 := ⟨by decide⟩

/-- Every list of events that can be executed is a run. -/
def Run.ofEvents (step : σ → ε → Option σ) (start : σ) (es : List ε) (e₀ : ε)
    (h : (exec step start es).isSome) : Run step start where
  length := es.length
  state := fun i => (exec step start (es.take i)).getD start
  event := fun i => es[i]?.getD e₀
  state_zero := by simp
  state_succ := by
    intro i hi
    obtain ⟨s, hs⟩ := Option.isSome_iff_exists.mp h
    rw [← List.take_append_drop (i + 1) es, exec_append] at hs
    obtain ⟨t, ht, -⟩ := Option.bind_eq_some_iff.mp hs
    have hcat : es.take (i + 1) = es.take i ++ [es[i]] := (List.take_concat_get' es i hi).symm
    obtain ⟨u, hu, hstep⟩ := exec_concat.mp (hcat ▸ ht)
    rw [ht, hu, List.getElem?_eq_getElem hi]
    exact hstep

/-! ## What can be reached -/

/-- Some list of events leads from `s` to `s'`. -/
def Reaches (step : σ → ε → Option σ) (s s' : σ) : Prop := ∃ es, exec step s es = some s'

namespace Reaches

variable {step : σ → ε → Option σ} {s s' s'' start : σ}

theorem refl (step : σ → ε → Option σ) (s : σ) : Reaches step s s := ⟨[], rfl⟩

theorem single {e : ε} (h : step s e = some s') : Reaches step s s' := by
  refine ⟨[e], ?_⟩
  rw [exec_cons, h, Option.bind_some, exec_nil]

theorem trans (h : Reaches step s s') (h' : Reaches step s' s'') : Reaches step s s'' := by
  obtain ⟨es, hes⟩ := h
  obtain ⟨fs, hfs⟩ := h'
  refine ⟨es ++ fs, ?_⟩
  rw [exec_append, hes, Option.bind_some, hfs]

/-- Every state of a run is reached from its start. -/
theorem of_run (r : Run step start) : ∀ i ≤ r.length, Reaches step start (r.state i) := by
  refine r.induction ?_ (fun i hi ih => ih.trans (single (r.state_succ i hi)))
  rw [r.state_zero]
  exact refl step start

/-- What every step keeps holds of every state that is reached. -/
theorem invariant {P : σ → Prop} (hs : ∀ s e s', P s → step s e = some s' → P s')
    (h : Reaches step s s') (hp : P s) : P s' := by
  obtain ⟨es, hes⟩ := h
  exact exec_invariant_of (G := fun _ => True) (fun s e s' hp _ => hs s e s' hp) es hp
    (fun _ _ => trivial) hes

/-- A state that is reached is the last one of a run. -/
theorem exists_run [Nonempty ε] (h : Reaches step start s) :
    ∃ r : Run step start, r.state r.length = s := by
  obtain ⟨es, hes⟩ := h
  refine ⟨Run.ofEvents step start es (Classical.arbitrary ε) (by simp [hes]), ?_⟩
  show (exec step start (es.take es.length)).getD start = s
  rw [List.take_length, hes, Option.getD_some]

end Reaches

/-! ## What can be reached by events of one kind -/

/-- Some list of events of the kind `G` leads from `s` to `s'`. -/
def ReachesBy (G : ε → Prop) (step : σ → ε → Option σ) (s s' : σ) : Prop :=
  ∃ es, (∀ e ∈ es, G e) ∧ exec step s es = some s'

namespace ReachesBy

variable {G : ε → Prop} {step : σ → ε → Option σ} {s s' s'' : σ}

theorem refl (G : ε → Prop) (step : σ → ε → Option σ) (s : σ) : ReachesBy G step s s :=
  ⟨[], fun _ he => (List.not_mem_nil he).elim, rfl⟩

theorem single {e : ε} (he : G e) (h : step s e = some s') : ReachesBy G step s s' := by
  refine ⟨[e], fun x hx => ?_, ?_⟩
  · rwa [List.mem_singleton.mp hx]
  · rw [exec_cons, h, Option.bind_some, exec_nil]

theorem trans (h : ReachesBy G step s s') (h' : ReachesBy G step s' s'') :
    ReachesBy G step s s'' := by
  obtain ⟨es, hes, hexec⟩ := h
  obtain ⟨fs, hfs, hexec'⟩ := h'
  refine ⟨es ++ fs, fun e he => ?_, ?_⟩
  · exact (List.mem_append.mp he).elim (hes e) (hfs e)
  · rw [exec_append, hexec, Option.bind_some, hexec']

theorem reaches (h : ReachesBy G step s s') : Reaches step s s' := by
  obtain ⟨es, -, hexec⟩ := h
  exact ⟨es, hexec⟩

/-- What every event of the kind keeps holds of every state that is reached by them. -/
theorem invariant {P : σ → Prop} (hs : ∀ s e s', P s → G e → step s e = some s' → P s')
    (h : ReachesBy G step s s') (hp : P s) : P s' := by
  obtain ⟨es, hes, hexec⟩ := h
  exact exec_invariant_of hs es hp hes hexec

/-- A relation that every event of the kind respects relates the first to the last state. -/
theorem rel {R : σ → σ → Prop} (hrefl : ∀ s, R s s) (htrans : ∀ a b c, R a b → R b c → R a c)
    (hs : ∀ s e s', G e → step s e = some s' → R s s') (h : ReachesBy G step s s') : R s s' :=
  h.invariant (P := R s) (fun t e t' ht he hstep => htrans s t t' ht (hs t e t' he hstep)) (hrefl s)

/-- When from everywhere some events of the kind make a measure smaller until `Rest` holds, they
lead to where it does. -/
theorem exists_of_measure {P Rest : σ → Prop} (μ : σ → ℕ)
    (hs : ∀ s, P s → ¬ Rest s → ∃ s', ReachesBy G step s s' ∧ P s' ∧ μ s' < μ s) :
    ∀ s, P s → ∃ s', ReachesBy G step s s' ∧ P s' ∧ Rest s' := by
  intro s
  induction hn : μ s using Nat.strong_induction_on generalizing s with
  | _ n ih =>
    intro hp
    by_cases hrest : Rest s
    · exact ⟨s, .refl G step s, hp, hrest⟩
    · obtain ⟨t, hreach, ht, hlt⟩ := hs s hp hrest
      obtain ⟨s', hreach', hp', hrest'⟩ := ih (μ t) (hn ▸ hlt) t rfl ht
      exact ⟨s', hreach.trans hreach', hp', hrest'⟩

/-- A state is reached by doing one thing for each member of a set, in any order. -/
theorem exists_forall {α : Type*} [DecidableEq α] {P : Finset α → σ → Prop} (T : Finset α)
    (h0 : P ∅ s)
    (hs : ∀ x B t, x ∈ T → x ∉ B → P B t → ∃ t', ReachesBy G step t t' ∧ P (insert x B) t') :
    ∃ t, ReachesBy G step s t ∧ P T t := by
  have key : ∀ B ⊆ T, ∃ t, ReachesBy G step s t ∧ P B t := by
    intro B
    induction B using Finset.induction_on with
    | empty => exact fun _ => ⟨s, .refl G step s, h0⟩
    | insert x B hx ih =>
      intro hB
      obtain ⟨hxT, hBT⟩ := Finset.insert_subset_iff.mp hB
      obtain ⟨t, hreach, ht⟩ := ih hBT
      obtain ⟨t', hreach', ht'⟩ := hs x B t hxT hx ht
      exact ⟨t', hreach.trans hreach', ht'⟩
  exact key T (Finset.Subset.refl T)

end ReachesBy

/-! ## Simulation -/

/-- From related states, every step is matched by some steps of the other system, which lead to
related states. -/
def Simulation {τ δ : Type*} (step : σ → ε → Option σ) (step' : τ → δ → Option τ)
    (R : σ → τ → Prop) : Prop :=
  ∀ s e s' t, R s t → step s e = some s' → ∃ t', Reaches step' t t' ∧ R s' t'

namespace Simulation

variable {τ δ υ ζ : Type*} {step : σ → ε → Option σ} {step' : τ → δ → Option τ}
  {step'' : υ → ζ → Option υ} {R : σ → τ → Prop} {R' : τ → υ → Prop}

/-- Many steps are matched as well. -/
theorem reaches (h : Simulation step step' R) {s s' : σ} {t : τ} (hreach : Reaches step s s')
    (hR : R s t) : ∃ t', Reaches step' t t' ∧ R s' t' := by
  refine hreach.invariant (P := fun s => ∃ t', Reaches step' t t' ∧ R s t') ?_ ⟨t, .refl _ _, hR⟩
  rintro s₁ e s₂ ⟨t₁, ht₁, hR₁⟩ hs
  obtain ⟨t₂, ht₂, hR₂⟩ := h s₁ e s₂ t₁ hR₁ hs
  exact ⟨t₂, ht₁.trans ht₂, hR₂⟩

theorem comp (h : Simulation step step' R) (h' : Simulation step' step'' R') :
    Simulation step step'' fun s u => ∃ t, R s t ∧ R' t u := by
  rintro s e s' u ⟨t, hR, hR'⟩ hs
  obtain ⟨t', ht', hRt⟩ := h s e s' t hR hs
  obtain ⟨u', hu', hRu⟩ := h'.reaches ht' hR'
  exact ⟨u', hu', t', hRt, hRu⟩

/-- **A run of the other system** goes through states that are related to those of the run, in the
same order. -/
theorem exists_run [Nonempty δ] (h : Simulation step step' R) {start : σ} {start' : τ}
    (r : Run step start) (h0 : R start start') :
    ∃ (r' : Run step' start') (time : ℕ → ℕ), Monotone time ∧
      ∀ i ≤ r.length, time i ≤ r'.length ∧ R (r.state i) (r'.state (time i)) := by
  -- the events that match the first `n` steps, and where each of them ends
  have key : ∀ n ≤ r.length, ∃ (es : List δ) (t : τ) (time : ℕ → ℕ),
      exec step' start' es = some t ∧ R (r.state n) t ∧ Monotone time ∧
        (∀ i, time i ≤ es.length) ∧
        ∀ i ≤ n, ∃ u, exec step' start' (es.take (time i)) = some u ∧ R (r.state i) u := by
    refine r.induction ?_ fun n hn ih => ?_
    · rw [r.state_zero]
      refine ⟨[], start', fun _ => 0, rfl, h0, monotone_const, fun i => Nat.le_refl 0, ?_⟩
      intro i hi
      rw [Nat.le_zero.mp hi, r.state_zero]
      exact ⟨start', rfl, h0⟩
    · obtain ⟨es, t, time, hes, hR, hmono, hle, htime⟩ := ih
      obtain ⟨t', ⟨ds, hds⟩, hR'⟩ := h _ _ _ t hR (r.state_succ n hn)
      have hboth : exec step' start' (es ++ ds) = some t' := by
        rw [exec_append, hes, Option.bind_some, hds]
      refine ⟨es ++ ds, t', fun i => if i ≤ n then time i else (es ++ ds).length, hboth, hR',
        ?_, fun i => ?_, fun i hi => ?_⟩
      · intro i j hij
        have hi := hle i
        have := hmono hij
        simp only [List.length_append]
        split_ifs <;> omega
      · have hi := hle i
        dsimp only
        split
        · rw [List.length_append]
          omega
        · exact Nat.le_refl _
      · dsimp only
        split
        · next hin =>
          rw [List.take_append_of_le_length (hle i)]
          exact htime i hin
        · next hin =>
          obtain rfl : i = n + 1 := by omega
          rw [List.take_length]
          exact ⟨t', hboth, hR'⟩
  obtain ⟨es, t, time, hes, -, hmono, hle, htime⟩ := key r.length (Nat.le_refl _)
  refine ⟨Run.ofEvents step' start' es (Classical.arbitrary δ) (by simp [hes]), time, hmono,
    fun i hi => ⟨hle i, ?_⟩⟩
  obtain ⟨u, hu, hR⟩ := htime i hi
  show R (r.state i) ((exec step' start' (es.take (time i))).getD start')
  rwa [hu, Option.getD_some]

end Simulation

/-- A refinement is a simulation. -/
theorem Refinement.simulation {τ δ : Type*} {step : σ → ε → Option σ} {step' : τ → δ → Option τ}
    {Inv : σ → Prop} {f : σ → τ} (h : Refinement step step' Inv f) :
    Simulation step step' fun s t => Inv s ∧ t = f s := by
  rintro s e s' t ⟨hs, rfl⟩ hstep
  refine ⟨f s', ?_, h.inv_step s e s' hs hstep, rfl⟩
  rcases h.sim_step s e s' hs hstep with hf | ⟨d, hd⟩
  · rw [hf]
    exact .refl _ _
  · exact .single hd

end Infra
