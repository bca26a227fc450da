import Mathlib.Data.List.Sort
import Mathlib.Data.Finset.Card

/-!
# Binary search in sorted lists

`bisect_right` and `insort` of Python's `bisect` on a list, and what they do when the list is
sorted. The search returns the number of elements up to `x` (`bisectRight_eq`), so it cuts the list
into its elements up to `x` and its elements above `x`, and an insertion keeps the list sorted.

Read from the cut and around, a sorted list is `clockwise` from `x`. Of a list with repetitions
`List.eraseDups` keeps the first occurrence of each element; the lemmas about it that Lean does not
have come last.
-/

namespace Infra

variable {α : Type*}

section Sorted

variable [LinearOrder α]

/-! ## The search -/

/-- The loop of `bisect_right` with `k` rounds left. -/
def bisectLoop (a : List α) (x : α) : ℕ → ℕ → ℕ → ℕ
  | 0, lo, _ => lo
  | k + 1, lo, hi =>
    if lo < hi then
      let mid := (lo + hi) / 2
      if (a[mid]?).any fun y => x < y then bisectLoop a x k lo mid
      else bisectLoop a x k (mid + 1) hi
    else lo

/-- `bisect.bisect_right(a, x)`; each round shortens the window. -/
def bisectRight (a : List α) (x : α) : ℕ := bisectLoop a x a.length 0 a.length

/-- `bisect.insort(a, x)` -/
def insort (a : List α) (x : α) : List α := a.insertIdx (bisectRight a x) x

/-- The list from its first element above `x`, once around. -/
def clockwise (a : List α) (x : α) : List α :=
  a.drop (bisectRight a x) ++ a.take (bisectRight a x)

/-- A sorted list is its elements up to `x` and then its elements above `x`. -/
theorem filter_le_append_filter_lt {x : α} : ∀ {a : List α}, a.Pairwise (· ≤ ·) →
    a.filter (· ≤ x) ++ a.filter (x < ·) = a
  | [], _ => rfl
  | y :: a, h => by
    obtain ⟨hy, ha⟩ := List.pairwise_cons.mp h
    have ih := filter_le_append_filter_lt (x := x) ha
    rcases le_or_gt y x with hyx | hxy
    · simp [hyx, ih]
    · have hgt : ∀ z ∈ a, x < z := fun z hz => hxy.trans_le (hy z hz)
      have hle : a.filter (· ≤ x) = [] :=
        List.filter_eq_nil_iff.mpr fun z hz => by simpa using hgt z hz
      have hlt : a.filter (x < ·) = a := List.filter_eq_self.mpr fun z hz => by simpa using hgt z hz
      simp [hxy, hle, hlt]

/-- The position of an element tells whether it is above `x`. -/
theorem lt_iff_length_filter_le {a : List α} {x y : α} {i : ℕ} (ha : a.Pairwise (· ≤ ·))
    (hy : a[i]? = some y) : x < y ↔ (a.filter (· ≤ x)).length ≤ i := by
  have hsplit := filter_le_append_filter_lt (x := x) ha
  rw [← hsplit] at hy
  rcases Nat.lt_or_ge i (a.filter (· ≤ x)).length with hi | hi
  · rw [List.getElem?_append_left hi] at hy
    have hle : y ≤ x := by simpa using List.of_mem_filter (List.mem_of_getElem? hy)
    exact ⟨fun hlt => absurd hle (not_le.mpr hlt), fun h => absurd hi (Nat.not_lt.mpr h)⟩
  · rw [List.getElem?_append_right hi] at hy
    have hlt : x < y := by simpa using List.of_mem_filter (List.mem_of_getElem? hy)
    exact ⟨fun _ => hi, fun _ => hlt⟩

/-- The window of the loop always holds the place after the elements up to `x`. -/
theorem bisectLoop_eq {a : List α} {x : α} (ha : a.Pairwise (· ≤ ·)) : ∀ {k lo hi : ℕ},
    lo ≤ (a.filter (· ≤ x)).length → (a.filter (· ≤ x)).length ≤ hi → hi ≤ a.length →
    hi ≤ lo + k → bisectLoop a x k lo hi = (a.filter (· ≤ x)).length
  | 0, lo, hi, hlo, hhi, _, hk => by
    rw [bisectLoop]
    omega
  | k + 1, lo, hi, hlo, hhi, hlen, hk => by
    rw [bisectLoop]
    split
    · next hlt =>
      have hmid : (lo + hi) / 2 < a.length := by omega
      have hy : a[(lo + hi) / 2]? = some a[(lo + hi) / 2] := List.getElem?_eq_getElem hmid
      have hside := lt_iff_length_filter_le (x := x) ha hy
      simp only [hy, Option.any_some, decide_eq_true_eq]
      split
      · next hbelow =>
        have hle := hside.mp hbelow
        exact bisectLoop_eq ha hlo hle (by omega) (by omega)
      · next habove =>
        have hgt := mt hside.mpr habove
        exact bisectLoop_eq ha (by omega) hhi hlen (by omega)
    · next hge => omega

theorem bisectRight_eq {a : List α} (ha : a.Pairwise (· ≤ ·)) (x : α) :
    bisectRight a x = (a.filter (· ≤ x)).length :=
  bisectLoop_eq ha (Nat.zero_le _) (List.length_filter_le _ _) le_rfl (by omega)

theorem take_bisectRight {a : List α} (ha : a.Pairwise (· ≤ ·)) (x : α) :
    a.take (bisectRight a x) = a.filter (· ≤ x) := by
  have htake : ((a.filter (· ≤ x)) ++ (a.filter (x < ·))).take (a.filter (· ≤ x)).length =
      a.filter (· ≤ x) := List.take_left
  rwa [filter_le_append_filter_lt ha, ← bisectRight_eq ha] at htake

theorem drop_bisectRight {a : List α} (ha : a.Pairwise (· ≤ ·)) (x : α) :
    a.drop (bisectRight a x) = a.filter (x < ·) := by
  have hdrop : ((a.filter (· ≤ x)) ++ (a.filter (x < ·))).drop (a.filter (· ≤ x)).length =
      a.filter (x < ·) := List.drop_left
  rwa [filter_le_append_filter_lt ha, ← bisectRight_eq ha] at hdrop

theorem bisectRight_le {a : List α} (ha : a.Pairwise (· ≤ ·)) (x : α) :
    bisectRight a x ≤ a.length := by
  rw [bisectRight_eq ha]
  exact List.length_filter_le _ _

/-! ## Insertion -/

omit [LinearOrder α] in
theorem insertIdx_length_append (x : α) : ∀ a b : List α,
    (a ++ b).insertIdx a.length x = a ++ x :: b
  | [], b => by simp
  | y :: a, b => by simp [insertIdx_length_append x a b]

theorem insort_eq {a : List α} (ha : a.Pairwise (· ≤ ·)) (x : α) :
    insort a x = a.filter (· ≤ x) ++ x :: a.filter (x < ·) := by
  have h := insertIdx_length_append x (a.filter (· ≤ x)) (a.filter (x < ·))
  rwa [filter_le_append_filter_lt ha, ← bisectRight_eq ha] at h

theorem insort_perm {a : List α} (ha : a.Pairwise (· ≤ ·)) (x : α) : (insort a x).Perm (x :: a) :=
  List.perm_insertIdx x a (bisectRight_le ha x)

theorem insort_sorted {a : List α} (ha : a.Pairwise (· ≤ ·)) (x : α) :
    (insort a x).Pairwise (· ≤ ·) := by
  rw [insort_eq ha, List.pairwise_append]
  refine ⟨ha.filter _, List.pairwise_cons.mpr ⟨fun z hz => ?_, ha.filter _⟩, fun y hy z hz => ?_⟩
  · have hlt : x < z := by simpa using List.of_mem_filter hz
    exact hlt.le
  · have hle : y ≤ x := by simpa using List.of_mem_filter hy
    rcases List.mem_cons.mp hz with rfl | hz
    · exact hle
    · have hlt : x < z := by simpa using List.of_mem_filter hz
      exact hle.trans hlt.le

/-! ## Once around -/

theorem clockwise_eq {a : List α} (ha : a.Pairwise (· ≤ ·)) (x : α) :
    clockwise a x = a.filter (x < ·) ++ a.filter (· ≤ x) := by
  rw [clockwise, take_bisectRight ha, drop_bisectRight ha]

theorem clockwise_perm (a : List α) (x : α) : (clockwise a x).Perm a :=
  List.perm_append_comm.trans (List.Perm.of_eq (List.take_append_drop _ a))

@[simp] theorem length_clockwise (a : List α) (x : α) : (clockwise a x).length = a.length :=
  (clockwise_perm a x).length_eq

/-- Place `j` of the round is place `i` of the list. -/
theorem getElem?_clockwise {a : List α} {x : α} {i j : ℕ} (hx : bisectRight a x ≤ a.length)
    (hi : i < a.length) (hj : j < a.length)
    (hij : bisectRight a x + j = i ∨ bisectRight a x + j = i + a.length) :
    (clockwise a x)[j]? = a[i]? := by
  have hlen : (a.drop (bisectRight a x)).length = a.length - bisectRight a x := List.length_drop
  rw [clockwise]
  rcases hij with hij | hij
  · rw [List.getElem?_append_left (by omega), List.getElem?_drop, hij]
  · have hi' : j - (a.length - bisectRight a x) = i := by omega
    rw [List.getElem?_append_right (by omega), hlen, hi', List.getElem?_take_of_lt (by omega)]

/-- Elements that are dropped from the list are dropped from the round. -/
theorem clockwise_filter {a : List α} (ha : a.Pairwise (· ≤ ·)) (x : α) (p : α → Bool) :
    clockwise (a.filter p) x = (clockwise a x).filter p := by
  rw [clockwise_eq (ha.filter p), clockwise_eq ha, List.filter_append, List.filter_comm,
    List.filter_comm (fun y => decide (y ≤ x))]

end Sorted

/-! ## First occurrences -/

section FirstSeen

variable [DecidableEq α]

theorem nodup_eraseDups : ∀ l : List α, l.eraseDups.Nodup
  | [] => List.nodup_nil
  | x :: l => by
    rw [List.eraseDups_cons]
    refine List.nodup_cons.mpr ⟨fun h => ?_, nodup_eraseDups _⟩
    simpa using List.of_mem_filter (List.mem_eraseDups.mp h)
termination_by l => l.length
decreasing_by simpa using Nat.lt_succ_of_le (List.length_filter_le _ l)

theorem eraseDups_concat (l : List α) (x : α) :
    (l ++ [x]).eraseDups = if x ∈ l then l.eraseDups else l.eraseDups ++ [x] := by
  rw [List.eraseDups_append]
  by_cases h : x ∈ l <;> simp [List.removeAll, h, List.eraseDups_cons]

theorem eraseDups_prefix (l l' : List α) : l.eraseDups <+: (l ++ l').eraseDups := by
  rw [List.eraseDups_append]
  exact List.prefix_append _ _

theorem eraseDups_filter (p : α → Bool) (l : List α) :
    (l.filter p).eraseDups = l.eraseDups.filter p := by
  induction l using List.reverseRecOn with
  | nil => rfl
  | append_singleton l x ih =>
    rw [List.filter_append, eraseDups_concat]
    by_cases hp : p x
    · rw [List.filter_cons_of_pos hp, List.filter_nil, eraseDups_concat, ih]
      by_cases hx : x ∈ l <;> simp [hx, hp]
    · rw [List.filter_cons_of_neg hp, List.filter_nil, List.append_nil, ih]
      by_cases hx : x ∈ l <;> simp [hx, hp]

theorem length_eraseDups (l : List α) : l.eraseDups.length = l.toFinset.card := by
  rw [← List.toFinset_card_of_nodup (nodup_eraseDups l)]
  congr 1
  ext x
  simp

end FirstSeen

end Infra
