import Terdistribusi.Pbft.Properties.Completion
import Mathlib.Data.Finset.BooleanAlgebra

/-!
# What a cluster with a correct primary applies

However many of the backups are faulty, and in whatever order messages are delivered or lost
(`validity`):

* what is applied under a number is the request that was submitted to the primary under it
* an applied request stays, at the node and at all but `|faulty|` of the `2f + 1` nodes that voted

That every correct node applies it needs messages to arrive, and enough correct nodes.
-/

namespace Pbft

open Infra

variable {NodeId Operation Digest : Type} [LinearOrder NodeId] [DecidableEq Digest]
  {ms : Members NodeId Operation Digest} {faulty : Finset NodeId} {p : NodeId}

/-! ## The numbers of the primary -/

/-- A correct primary numbers what an event submits to it, and nothing else. -/
theorem Logged.succ {s s' : Cluster NodeId Operation Digest} {rs : List (PBFTRequest Operation)}
    {e : Event NodeId Operation Digest} (h : Logged p s rs) (hsound : Sound ms faulty p s)
    (hp : ∀ a, ms.primary a = p) (hcorrect : p ∉ faulty) (hext : Extends s s')
    (hs : step ms faulty s e = some s') : Logged p s' (rs ++ (submission ms e).toList) := by
  have hself : ∀ r, e = .call p r → submission ms e = some r := by
    rintro r rfl
    exact if_pos (hp p)
  have hother : (∀ r, e ≠ .call p r) → submission ms e = none := by
    intro hne
    cases e with
    | call b r =>
      refine if_neg fun hb => hne r ?_
      rw [← hp b, hb]
    | deliver | drop | forge => rfl
  have hnodes := Network.nodes_step hs hcorrect
  cases hinput : s.inputOf p e with
  | none =>
    simp only [hinput] at hnodes
    -- the primary does nothing
    rw [hother, Option.toList_none, List.append_nil]
    · exact h.same hext (congrArg PBFTNode.seqNum hnodes)
    · rintro r rfl
      simp [Network.inputOf, Network.input?] at hinput
  | some inp =>
    simp only [hinput] at hnodes
    have hcall : ∀ r, inp = .call r ↔ e = .call p r := by
      intro r
      constructor
      · rintro rfl
        obtain ⟨⟨b, inp⟩, hinp, hb⟩ := Option.bind_eq_some_iff.mp hinput
        split at hb
        · next hbp =>
          dsimp only at hbp hb
          rw [hbp, Option.some.inj hb] at hinp
          exact Network.input?_call hinp
        · cases hb
      · rintro rfl
        simpa [Network.inputOf, Network.input?, eq_comm] using hinput
    have hacts := acts_act (ms.config p) (s.nodes p) inp
    rw [show (PBFTNode.act (ms.config p) inp (s.nodes p)).1 = s'.nodes p from hnodes.symm] at hacts
    rcases hacts.seqNum_cases with ⟨hsame, hno⟩ | ⟨hnext, r, hinp, -, x, hx, rfl⟩
    · rw [hother, Option.toList_none, List.append_nil]
      · exact h.same hext hsame
      · exact fun r hr => hno r ((hcall r).mpr hr) (hsound.primary_eq hp p)
    · -- it gives the request the next number
      rw [hself x.request ((hcall _).mp hinp), Option.toList_some]
      exact h.next hext hnext hx

/-- Every entry of the primary has a number that was given out. -/
theorem Sound.number_pos {s s' : Cluster NodeId Operation Digest}
    {e : Event NodeId Operation Digest} (h : Sound ms faulty p s) (hp : ∀ a, ms.primary a = p)
    (hseq : 0 ≤ (s.nodes p).seqNum) (hs : step ms faulty s e = some s')
    (hpos : ∀ k x, entryOf s p k = some x → 1 ≤ k) :
    ∀ k x, entryOf s' p k = some x → 1 ≤ k := by
  intro k x hx
  rcases Network.step_cases hs with hidles | ⟨a, inp, hacts, -⟩
  · rw [entryOf, hidles.nodes] at hx
    exact hpos k x hx
  · rcases entry_succ hacts hx with ⟨x₀, hx₀, -⟩ | ⟨rfl, hfresh⟩
    · exact hpos k x₀ hx₀
    · rcases h.fresh_cases hp hacts hfresh with ⟨-, -, rfl⟩ | ⟨hne, -⟩
      · omega
      · exact absurd rfl hne

/-! ## What is applied -/

/-- What a node has applied it keeps, in order. -/
theorem applied_kept (run : ClusterRun ms faulty) {i j : ℕ} (hij : i ≤ j) (hj : j ≤ run.length)
    (a : NodeId) : ((run.state i).nodes a).applied <+: ((run.state j).nodes a).applied := by
  refine run.rel (R := fun s s' => (s.nodes a).applied <+: (s'.nodes a).applied)
    (fun s => List.prefix_rfl) (fun s₁ s₂ s₃ h h' => h.trans h') (fun m hm => ?_) hij hj
  rcases Network.step_cases (run.state_succ m hm) with hidles | ⟨b, inp, hacts, -⟩
  · rw [hidles.nodes]
  · by_cases hb : a = b
    · subst hb
      rcases (acts_self hacts).applied with heq | ⟨k, e, -, -, -, -, heq⟩
      · rw [heq]
      · rw [heq]
        exact List.prefix_append _ _
    · rw [nodes_of_ne hacts hb]

omit [DecidableEq Digest] in
/-- All entries under one number are for the request of the primary's. -/
theorem Sound.request_eq {s : Cluster NodeId Operation Digest} (h : Sound ms faulty p s)
    (hcorrect : p ∉ faulty) {a b : NodeId} {k : ℤ} {e e' : PBFTLogEntry NodeId Operation Digest}
    (he : entryOf s a k = some e) (he' : entryOf s b k = some e') : e.request = e'.request := by
  obtain ⟨e₀, he₀, -, hr⟩ := h.primary hcorrect a k e he
  obtain ⟨e₁, he₁, -, hr'⟩ := h.primary hcorrect b k e' he'
  obtain rfl := Option.some.inj (he₀.symm.trans he₁)
  exact hr.symm.trans hr'

variable [Fintype NodeId]

/-- Throughout a run the primary has numbered what was submitted to it. -/
theorem logged_of_correct (hp : ∀ a, ms.primary a = p) (hcorrect : p ∉ faulty)
    (run : ClusterRun ms faulty) : ∀ i ≤ run.length,
      Logged p (run.state i) (submitted run i) ∧
        ∀ k x, entryOf (run.state i) p k = some x → 1 ≤ k := by
  refine run.induction ?_ (fun i hi ih => ?_)
  · rw [run.state_zero]
    exact ⟨⟨rfl, fun j r hr => by cases hr⟩, fun k x hx => by cases hx⟩
  · obtain ⟨hlogged, hpos⟩ := ih
    have hsound := sound hp run i hi.le
    have hext := extends_of_le hp run (Nat.le_succ i) hi
    rw [submitted_succ]
    refine ⟨hlogged.succ hsound hp hcorrect hext (run.state_succ i hi), ?_⟩
    exact hsound.number_pos hp (by rw [hlogged.seqNum]; omega) (run.state_succ i hi) hpos

/-- **What is applied was submitted, and stays.** With a correct primary and any faulty backups, in
every run, a node keeps what it has applied, each number once. What it has applied under a number is
the request that the primary was given under this number, and at all later times at least
`2f + 1 - |faulty|` correct nodes have an entry for it. -/
theorem validity (hp : ∀ a, ms.primary a = p) (hcorrect : p ∉ faulty) (run : ClusterRun ms faulty)
    {i j : ℕ} (hij : i ≤ j) (hj : j ≤ run.length) (a : NodeId) :
    ((run.state i).nodes a).applied <+: ((run.state j).nodes a).applied ∧
      (((run.state j).nodes a).applied.map Prod.fst).Nodup ∧
      ∀ k r, (k, r) ∈ ((run.state i).nodes a).applied →
        (∃ m : ℕ, k = m + 1 ∧ (submitted run i)[m]? = some r) ∧
        ∃ voters : Finset NodeId, (∀ b ∈ voters, b ∉ faulty) ∧
          2 * ((Fintype.card NodeId - 1) / 3) + 1 ≤ voters.card + faulty.card ∧
          ∀ b ∈ voters, ∃ e, entryOf (run.state j) b k = some e ∧ e.request = r := by
  have hi := hij.trans hj
  have hsound := sound hp run i hi
  have hsound' := sound hp run j hj
  have hext := extends_of_le hp run hij hj
  refine ⟨applied_kept run hij hj a, hsound'.nodup a, fun k r hmem => ?_⟩
  obtain ⟨e, he, hr, -, hquorum⟩ := hsound.applied a _ hmem
  dsimp only at he hr
  constructor
  · obtain ⟨hlogged, hpos⟩ := logged_of_correct hp hcorrect run i hi
    obtain ⟨e₀, he₀, -, hr₀⟩ := hsound.primary hcorrect a k e he
    have hlow := hpos k e₀ he₀
    have hseq := hlogged.seqNum
    -- the primary has given the number to the request
    have hlt : (k - 1).toNat < (submitted run i).length := by
      by_contra hge
      rw [hsound.fresh k (by omega)] at he₀
      cases he₀
    have hk : k = ((k - 1).toNat : ℤ) + 1 := by omega
    obtain ⟨e₁, he₁, hr₁⟩ := hlogged.entry _ _ (List.getElem?_eq_getElem hlt)
    rw [← hk] at he₁
    obtain rfl := Option.some.inj (he₀.symm.trans he₁)
    refine ⟨(k - 1).toNat, hk, ?_⟩
    rw [List.getElem?_eq_getElem hlt, ← hr₁, hr₀, hr]
  · obtain ⟨e', he', hgrown⟩ := hext a k e he
    -- the correct nodes among those whose COMMITs were counted have the request
    refine ⟨e.commits \ faulty, fun b hb => (Finset.mem_sdiff.mp hb).2, ?_, fun b hb => ?_⟩
    · rw [ms.f_config] at hquorum
      exact hquorum.trans Finset.card_le_card_sdiff_add_card
    · obtain ⟨hvoted, hb⟩ := Finset.mem_sdiff.mp hb
      obtain ⟨x, hx, -⟩ := (hsound.commits a k e he b hvoted hb).extends hext
      refine ⟨x, hx, ?_⟩
      rw [hsound'.request_eq hcorrect hx he', hgrown.request, hr]

/-- Nodes 1 and 2 apply number 2 first, and later all keep it. -/
theorem validity_overtaken :
    (2, request 2) ∈ ((overtaken.state 10).nodes 1).applied ∧
      ∃ m : ℕ, (2 : ℤ) = m + 1 ∧ (submitted overtaken 10)[m]? = some (request 2) := by
  have hmem : (2, request 2) ∈ ((overtaken.state 10).nodes 1).applied := by decide +kernel
  have hprimary : ∀ a, (plainCluster 4).primary a = 0 := by decide +kernel
  have h := validity hprimary (by decide) overtaken (i := 10) (j := 10) (by decide) (by decide) 1
  exact ⟨hmem, (h.2.2 2 (request 2) hmem).1⟩

end Pbft
