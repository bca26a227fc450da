import Mathlib.Data.List.Basic
import Mathlib.Data.List.Range
import Mathlib.Logic.Function.Basic
import Mathlib.Algebra.Order.BigOperators.Group.Finset

/-!
# A stream with a consumer group

An append-only stream of values and one group of consumers that reads it. An entry is fresh until it
is delivered to a consumer, then pending with a consumer, and finally acked. Entries are named by
their place in the stream.

A consumer reads fresh entries or claims pending ones of any consumer, and whoever acks an entry
that is pending does so for the group.
-/

namespace Infra

/-- What the group knows of an entry. -/
inductive Status (Consumer : Type*)
  | fresh
  | pending (consumer : Consumer)
  | acked
  deriving DecidableEq

namespace Status

variable {Consumer : Type*}

def isFresh : Status Consumer → Bool
  | .fresh => true
  | _ => false

def isPending : Status Consumer → Bool
  | .pending _ => true
  | _ => false

def isAcked : Status Consumer → Bool
  | .acked => true
  | _ => false

/-- How far an entry has come. -/
def rank : Status Consumer → ℕ
  | .fresh => 0
  | .pending _ => 1
  | .acked => 2

theorem rank_le_two (status : Status Consumer) : status.rank ≤ 2 := by
  cases status <;> simp [rank]

theorem rank_eq_zero_iff {status : Status Consumer} : status.rank = 0 ↔ status.isFresh = true := by
  cases status <;> simp [rank, isFresh]

theorem rank_eq_one_iff {status : Status Consumer} : status.rank = 1 ↔ status.isPending = true := by
  cases status <;> simp [rank, isPending]

theorem rank_eq_two_iff {status : Status Consumer} : status.rank = 2 ↔ status.isAcked = true := by
  cases status <;> simp [rank, isAcked]

end Status

structure ConsumerGroup (Value Consumer : Type*) where
  values : List Value
  status : ℕ → Status Consumer

namespace ConsumerGroup

variable {Value Consumer : Type*}

/-- A stream without entries. -/
def empty : ConsumerGroup Value Consumer := { values := [], status := fun _ => .fresh }

def add (v : Value) (g : ConsumerGroup Value Consumer) : ConsumerGroup Value Consumer :=
  { values := g.values ++ [v], status := Function.update g.status g.values.length .fresh }

def addAll (vs : List Value) (g : ConsumerGroup Value Consumer) : ConsumerGroup Value Consumer :=
  vs.foldl (fun g v => g.add v) g

/-- The entry is done with. -/
def IsAcked (g : ConsumerGroup Value Consumer) (i : ℕ) : Prop := (g.status i).isAcked = true

instance (g : ConsumerGroup Value Consumer) (i : ℕ) : Decidable (g.IsAcked i) :=
  inferInstanceAs (Decidable (_ = true))

/-- The fresh entries, oldest first. -/
def unread (g : ConsumerGroup Value Consumer) : List ℕ :=
  (List.range g.values.length).filter fun i => (g.status i).isFresh

/-- The entries that are pending, oldest first. -/
def stale (g : ConsumerGroup Value Consumer) : List ℕ :=
  (List.range g.values.length).filter fun i => (g.status i).isPending

/-- These entries with their values. -/
def entries (g : ConsumerGroup Value Consumer) (ids : List ℕ) : List (ℕ × Value) :=
  ids.filterMap fun i => (g.values[i]?).map fun v => (i, v)

/-- These entries become pending with the consumer. -/
def deliver (c : Consumer) (ids : List ℕ) (g : ConsumerGroup Value Consumer) :
    ConsumerGroup Value Consumer :=
  { g with status := fun i => if i ∈ ids then .pending c else g.status i }

/-- The entries that a consumer can claim in one call, in the order of the stream. -/
def Claimable (g : ConsumerGroup Value Consumer) (count : ℕ) (ids : List ℕ) : Prop :=
  ids.length ≤ count ∧ ids.Pairwise (· < ·) ∧ ∀ i ∈ ids, (g.status i).isPending = true

instance (g : ConsumerGroup Value Consumer) (count : ℕ) (ids : List ℕ) :
    Decidable (g.Claimable count ids) :=
  inferInstanceAs (Decidable (_ ∧ _ ∧ _))

/-- The first of the pending entries can be claimed. -/
theorem claimable_stale (g : ConsumerGroup Value Consumer) (count : ℕ) :
    g.Claimable count (g.stale.take count) := by
  have hsub : (g.stale.take count).Sublist (List.range g.values.length) :=
    (List.take_sublist _ _).trans List.filter_sublist
  refine ⟨List.length_take_le _ _, List.pairwise_lt_range.sublist hsub, fun i hi => ?_⟩
  exact (List.mem_filter.mp (List.mem_of_mem_take hi)).2

/-- Acks the entries that are pending. -/
def ack (ids : List ℕ) (g : ConsumerGroup Value Consumer) : ConsumerGroup Value Consumer :=
  { g with status := fun i => if i ∈ ids ∧ (g.status i).isPending then .acked else g.status i }

/-! ## What the operations change -/

@[simp] theorem add_values (v : Value) (g : ConsumerGroup Value Consumer) :
    (g.add v).values = g.values ++ [v] := rfl

@[simp] theorem addAll_nil (g : ConsumerGroup Value Consumer) : g.addAll [] = g := rfl

theorem addAll_cons (v : Value) (vs : List Value) (g : ConsumerGroup Value Consumer) :
    g.addAll (v :: vs) = (g.add v).addAll vs := rfl

theorem addAll_concat (v : Value) (vs : List Value) (g : ConsumerGroup Value Consumer) :
    g.addAll (vs ++ [v]) = (g.addAll vs).add v := by
  simp [addAll]

@[simp] theorem addAll_values : ∀ (vs : List Value) (g : ConsumerGroup Value Consumer),
    (g.addAll vs).values = g.values ++ vs
  | [], g => (List.append_nil g.values).symm
  | v :: vs, g => by
    rw [addAll_cons, addAll_values vs, add_values, List.append_assoc, List.singleton_append]

@[simp] theorem deliver_values (c : Consumer) (ids : List ℕ) (g : ConsumerGroup Value Consumer) :
    (g.deliver c ids).values = g.values := rfl

@[simp] theorem ack_values (ids : List ℕ) (g : ConsumerGroup Value Consumer) :
    (g.ack ids).values = g.values := rfl

theorem mem_entries {g : ConsumerGroup Value Consumer} {ids : List ℕ} {e : ℕ × Value} :
    e ∈ g.entries ids ↔ e.1 ∈ ids ∧ g.values[e.1]? = some e.2 := by
  unfold entries
  rw [List.mem_filterMap]
  constructor
  · rintro ⟨i, hi, he⟩
    obtain ⟨v, hv, rfl⟩ := Option.map_eq_some_iff.mp he
    exact ⟨hi, hv⟩
  · rintro ⟨hi, hv⟩
    exact ⟨e.1, hi, by rw [hv]; rfl⟩

/-- No entry that was not acked is acked by being added. -/
theorem isAcked_add {v : Value} {g : ConsumerGroup Value Consumer} {i : ℕ}
    (h : (g.add v).IsAcked i) : g.IsAcked i := by
  by_cases hi : i = g.values.length
  · simp [IsAcked, add, hi, Status.isAcked] at h
  · simpa [IsAcked, add, Function.update_of_ne hi] using h

theorem isAcked_deliver {c : Consumer} {ids : List ℕ} {g : ConsumerGroup Value Consumer} {i : ℕ}
    (h : (g.deliver c ids).IsAcked i) : g.IsAcked i := by
  by_cases hi : i ∈ ids
  · simp [IsAcked, deliver, hi, Status.isAcked] at h
  · simpa [IsAcked, deliver, hi] using h

/-- An entry that is acked is one of those that the call names, or was acked before. -/
theorem isAcked_ack {ids : List ℕ} {g : ConsumerGroup Value Consumer} {i : ℕ}
    (h : (g.ack ids).IsAcked i) : i ∈ ids ∨ g.IsAcked i := by
  by_cases hi : i ∈ ids ∧ (g.status i).isPending = true
  · exact Or.inl hi.1
  · refine Or.inr ?_
    unfold IsAcked ack at h
    dsimp only at h
    rwa [if_neg hi] at h

/-- The entries with their values are in the order of the ids. -/
theorem entries_sublist (g : ConsumerGroup Value Consumer) :
    ∀ ids : List ℕ, ((g.entries ids).map Prod.fst).Sublist ids
  | [] => List.Sublist.refl []
  | i :: ids => by
    have ih := entries_sublist g ids
    unfold entries at ih ⊢
    cases hv : g.values[i]? with
    | none =>
      rw [List.filterMap_cons, hv]
      exact ih.cons i
    | some v =>
      rw [List.filterMap_cons, hv]
      exact ih.cons_cons i

/-! ## No entry goes back -/

/-- Every entry of `g` is as far as it was or farther in `g'`. -/
structure Advances (g g' : ConsumerGroup Value Consumer) : Prop where
  length : g.values.length ≤ g'.values.length
  rank : ∀ i < g.values.length, (g.status i).rank ≤ (g'.status i).rank

namespace Advances

variable {g g' g'' : ConsumerGroup Value Consumer} {i : ℕ}

theorem refl (g : ConsumerGroup Value Consumer) : Advances g g :=
  ⟨Nat.le_refl _, fun _ _ => Nat.le_refl _⟩

theorem trans (h : Advances g g') (h' : Advances g' g'') : Advances g g'' :=
  ⟨h.length.trans h'.length, fun i hi => (h.rank i hi).trans (h'.rank i (hi.trans_le h.length))⟩

theorem add (v : Value) : Advances g (g.add v) := by
  refine ⟨by simp, fun i hi => ?_⟩
  unfold ConsumerGroup.add
  dsimp only
  rw [Function.update_of_ne (Nat.ne_of_lt hi)]

/-- Entries that are not acked are delivered. -/
theorem deliver (c : Consumer) {ids : List ℕ} (h : ∀ i ∈ ids, ¬ g.IsAcked i) :
    Advances g (g.deliver c ids) := by
  refine ⟨Nat.le_refl _, fun i _ => ?_⟩
  unfold ConsumerGroup.deliver
  dsimp only
  split
  · next hi =>
    have hnot : (g.status i).rank ≠ 2 := fun h2 => h i hi (Status.rank_eq_two_iff.mp h2)
    have hle := (g.status i).rank_le_two
    show (g.status i).rank ≤ 1
    omega
  · exact Nat.le_refl _

theorem ack (ids : List ℕ) : Advances g (g.ack ids) := by
  refine ⟨Nat.le_refl _, fun i _ => ?_⟩
  unfold ConsumerGroup.ack
  dsimp only
  split
  · exact (g.status i).rank_le_two
  · exact Nat.le_refl _

/-- An entry that is acked stays acked. -/
theorem isAcked (h : Advances g g') (hi : i < g.values.length) (hacked : g.IsAcked i) :
    g'.IsAcked i := by
  have hrank := h.rank i hi
  have hle := (g'.status i).rank_le_two
  have htwo := Status.rank_eq_two_iff.mpr hacked
  exact Status.rank_eq_two_iff.mp (by omega)

end Advances

/-- How far the entries are together from being acked. -/
def left (g : ConsumerGroup Value Consumer) : ℕ :=
  ∑ i ∈ Finset.range g.values.length, (2 - (g.status i).rank)

/-- The group has less to do when an entry has come farther. -/
theorem Advances.left_lt {g g' : ConsumerGroup Value Consumer} (h : Advances g g')
    (hvalues : g'.values = g.values) {i : ℕ} (hi : i < g.values.length)
    (hrank : (g.status i).rank < (g'.status i).rank) : g'.left < g.left := by
  unfold left
  rw [hvalues]
  refine Finset.sum_lt_sum (fun k hk => ?_) ⟨i, Finset.mem_range.mpr hi, ?_⟩
  · exact Nat.sub_le_sub_left (h.rank k (Finset.mem_range.mp hk)) 2
  · have hle := (g'.status i).rank_le_two
    omega

/-- The entry is in the stream and has been delivered. -/
def Delivered (g : ConsumerGroup Value Consumer) (i : ℕ) : Prop :=
  i < g.values.length ∧ 1 ≤ (g.status i).rank

theorem Delivered.advances {g g' : ConsumerGroup Value Consumer} {i : ℕ} (h : g.Delivered i)
    (ha : Advances g g') : g'.Delivered i :=
  ⟨h.1.trans_le ha.length, h.2.trans (ha.rank i h.1)⟩

theorem delivered_deliver {g : ConsumerGroup Value Consumer} {c : Consumer} {ids : List ℕ}
    {e : ℕ × Value} (he : e ∈ g.entries ids) : (g.deliver c ids).Delivered e.1 := by
  obtain ⟨hmem, hvalue⟩ := mem_entries.mp he
  refine ⟨(List.getElem?_eq_some_iff.mp hvalue).1, ?_⟩
  unfold deliver
  dsimp only
  rw [if_pos hmem]
  exact Nat.le_refl 1

/-- An ack that names an entry that has been delivered leaves it acked. -/
theorem isAcked_ack_of_mem {g : ConsumerGroup Value Consumer} {ids : List ℕ} {i : ℕ}
    (h : g.Delivered i) (hi : i ∈ ids) : (g.ack ids).IsAcked i := by
  unfold IsAcked ack
  dsimp only
  have hrank := h.2
  cases hs : g.status i with
  | fresh =>
    rw [hs] at hrank
    exact absurd hrank (by simp [Status.rank])
  | pending c => simp [hi, Status.isPending, Status.isAcked]
  | acked => simp [Status.isPending, Status.isAcked]

end ConsumerGroup

end Infra
