import Mathlib.Data.Nat.Init
import Mathlib.Data.List.Basic

/-!
# Linearizability

Operations on one object by many clients. What is known of them from outside is which of them have
returned, with which result, and which of them returned before another one was called (`Record`).

The record is linearizable when one sequence of commands explains it (`Linearization`): each
operation that has returned has a place of its own in the sequence, its result is what the object
replies there, and the places are in the order in which operations followed one another. The
sequence may hold commands of operations that have not returned.

`prefix_or_prefix` compares two sequences position by position.
-/

namespace Infra

variable {ι Cmd Res : Type*}

/-- What clients see of the operations on an object. -/
structure Record (ι Cmd Res : Type*) where
  /-- The operation had this command and returned this result. -/
  returned : ι → Cmd → Res → Prop
  /-- The first operation returned before the second one was called. -/
  precedes : ι → ι → Prop

/-- The sequence `hist` explains the record, with the operation `o` at the place `pos o`. -/
structure Linearization (reply : List Cmd → Cmd → Res) (R : Record ι Cmd Res) (hist : List Cmd)
    (pos : ι → ℕ) : Prop where
  place : ∀ o c y, R.returned o c y → hist[pos o]? = some c
  result : ∀ o c y, R.returned o c y → y = reply (hist.take (pos o)) c
  distinct : ∀ o c y p d z, R.returned o c y → R.returned p d z → pos o = pos p → o = p
  realTime : ∀ o c y p d z, R.returned o c y → R.returned p d z → R.precedes o p → pos o < pos p

/-! ## Comparable sequences -/

/-- Two sequences that agree wherever both have something are front parts of one another. -/
theorem prefix_or_prefix {α : Type*} {l m : List α}
    (h : ∀ (k : ℕ) x y, l[k]? = some x → m[k]? = some y → x = y) : l <+: m ∨ m <+: l := by
  have key : ∀ {l m : List α}, (∀ (k : ℕ) x y, l[k]? = some x → m[k]? = some y → x = y) →
      l.length ≤ m.length → l <+: m := by
    intro l m h hle
    rw [List.prefix_iff_eq_take]
    refine List.ext_getElem (by rw [List.length_take]; omega) fun k hk hk' => ?_
    rw [List.getElem_take]
    exact h k _ _ (List.getElem?_eq_getElem hk) (List.getElem?_eq_getElem (by omega))
  rcases Nat.le_total l.length m.length with hle | hle
  · exact Or.inl (key h hle)
  · exact Or.inr (key (fun k x y hx hy => (h k y x hy hx).symm) hle)

end Infra
