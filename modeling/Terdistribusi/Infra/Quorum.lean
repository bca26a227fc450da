import Mathlib.Data.Fintype.Card

/-!
# Majorities

A set of members is a majority when it holds more than half of them. Any two majorities share a
member, whatever the number of members is. Where some members are faulty, two sets need to be
larger to share one that is not (`exists_correct_mem_both`).
-/

namespace Infra

variable {α : Type*} [Fintype α]

/-- More than half of all members. -/
def IsMajority (Q : Finset α) : Prop := Fintype.card α < 2 * Q.card

instance (Q : Finset α) : Decidable (IsMajority Q) :=
  inferInstanceAs (Decidable (Fintype.card α < 2 * Q.card))

/-- **Two majorities share a member.** -/
theorem IsMajority.exists_mem_both [DecidableEq α] {Q R : Finset α} (hQ : IsMajority Q)
    (hR : IsMajority R) : ∃ v, v ∈ Q ∧ v ∈ R := by
  unfold IsMajority at hQ hR
  have hcard : (Finset.univ : Finset α).card < Q.card + R.card := by
    rw [Finset.card_univ]; omega
  obtain ⟨v, hv⟩ := Finset.inter_nonempty_of_card_lt_card_add_card
    (Finset.subset_univ Q) (Finset.subset_univ R) hcard
  exact ⟨v, Finset.mem_inter.mp hv⟩

omit [Fintype α] in
/-- **Two large sets share a member that is not faulty.** -/
theorem exists_correct_mem_both [DecidableEq α] {U A B F : Finset α} (hA : A ⊆ U) (hB : B ⊆ U)
    (hcard : U.card + F.card < A.card + B.card) : ∃ v, v ∈ A ∧ v ∈ B ∧ v ∉ F := by
  have hunion : (A ∪ B).card ≤ U.card := Finset.card_le_card (Finset.union_subset hA hB)
  have hinter := Finset.card_union_add_card_inter A B
  have hlt : F.card < (A ∩ B).card := by omega
  obtain ⟨v, hv, hF⟩ := Finset.exists_mem_notMem_of_card_lt_card hlt
  exact ⟨v, (Finset.mem_inter.mp hv).1, (Finset.mem_inter.mp hv).2, hF⟩

end Infra
