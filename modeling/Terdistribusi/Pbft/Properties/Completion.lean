import Terdistribusi.Pbft.Properties.InSequence
import Terdistribusi.Pbft.Properties.Agreement
import Mathlib.Data.Fintype.EquivFin

/-!
# What is applied, and in which order

* `execution_order` — a node applies no number twice, and what correct nodes apply under a number
  has the same digest; without faults and with inboxes read in order, a node applies the submitted
  requests one after the other
* `completion` — when all messages have been read then, every node has applied all of them

Nothing in the code makes a node wait for an earlier number, so `execution_order` promises no order
beyond that: with another order of delivery a node applies number 2 alone (`overtaken_applies`).
-/

namespace Pbft

open Infra

variable {NodeId Operation Digest : Type} [LinearOrder NodeId] [DecidableEq Digest]

/-- The request that an event submits to the primary. -/
def submission (ms : Members NodeId Operation Digest) :
    Event NodeId Operation Digest → Option (PBFTRequest Operation)
  | .call a request => if ms.primary a = a then some request else none
  | _ => none

/-- The requests that have been submitted to the primary, in order. -/
def submitted {ms : Members NodeId Operation Digest} {faulty : Finset NodeId}
    (run : ClusterRun ms faulty) (i : ℕ) : List (PBFTRequest Operation) :=
  (List.range i).filterMap fun j => submission ms (run.event j)

/-- The requests with the numbers `1, 2, …`. -/
def numbered (rs : List (PBFTRequest Operation)) : List (ℤ × PBFTRequest Operation) :=
  (numbers rs.length).zip rs

theorem getElem?_numbered {rs : List (PBFTRequest Operation)} {j : ℕ} {r : PBFTRequest Operation}
    (h : rs[j]? = some r) : (numbered rs)[j]? = some ((j : ℤ) + 1, r) := by
  have hj := (List.getElem?_eq_some_iff.mp h).1
  unfold numbered numbers
  rw [List.getElem?_zip_eq_some]
  exact ⟨by simp [hj], h⟩

/-! ## The log of the primary -/

/-- The primary has an entry for each of the requests, in order, and no other. -/
structure Logged (p : NodeId) (s : Cluster NodeId Operation Digest)
    (rs : List (PBFTRequest Operation)) : Prop where
  seqNum : (s.nodes p).seqNum = rs.length
  entry : ∀ (j : ℕ) r, rs[j]? = some r → ∃ e, entryOf s p ((j : ℤ) + 1) = some e ∧ e.request = r

section Step

omit [LinearOrder NodeId] [DecidableEq Digest]

variable {p : NodeId} {s s' : Cluster NodeId Operation Digest} {rs : List (PBFTRequest Operation)}

theorem Logged.entry_extends (h : Logged p s rs) (hext : Extends s s') (j : ℕ)
    (r : PBFTRequest Operation) (hr : rs[j]? = some r) :
    ∃ e, entryOf s' p ((j : ℤ) + 1) = some e ∧ e.request = r := by
  obtain ⟨e, he, hreq⟩ := h.entry j r hr
  obtain ⟨e', he', hgrown⟩ := hext p _ e he
  exact ⟨e', he', hgrown.request.trans hreq⟩

theorem Logged.same (h : Logged p s rs) (hext : Extends s s')
    (hsame : (s'.nodes p).seqNum = (s.nodes p).seqNum) : Logged p s' rs :=
  ⟨hsame.trans h.seqNum, h.entry_extends hext⟩

/-- A new entry of the primary is for one more request. -/
theorem Logged.next (h : Logged p s rs) (hext : Extends s s')
    (hnext : (s'.nodes p).seqNum = (s.nodes p).seqNum + 1)
    {e : PBFTLogEntry NodeId Operation Digest}
    (he : entryOf s' p (s'.nodes p).seqNum = some e) : Logged p s' (rs ++ [e.request]) := by
  refine ⟨?_, fun j r hr => ?_⟩
  · rw [hnext, h.seqNum, List.length_append, List.length_singleton]
    omega
  · rcases Nat.lt_trichotomy j rs.length with hlt | rfl | hgt
    · rw [List.getElem?_append_left hlt] at hr
      exact h.entry_extends hext j r hr
    · rw [List.getElem?_concat_length] at hr
      refine ⟨e, ?_, Option.some.inj hr⟩
      rw [← h.seqNum, ← hnext]
      exact he
    · rw [List.getElem?_eq_none (by simp; omega)] at hr
      cases hr

end Step

section Runs

variable [Fintype NodeId] {ms : Members NodeId Operation Digest} {p : NodeId}

omit [Fintype NodeId] in
theorem submitted_succ {faulty : Finset NodeId} (run : ClusterRun ms faulty) (i : ℕ) :
    submitted run (i + 1) = submitted run i ++ (submission ms (run.event i)).toList := by
  unfold submitted
  rw [List.range_succ, List.filterMap_append]
  cases hsub : submission ms (run.event i) <;> simp [hsub]

/-- The primary has an entry for each request that has been submitted so far. -/
theorem logged (hp : ∀ a, ms.primary a = p) (run : ClusterRun ms ∅)
    (hfifo : ∀ i < run.length, (run.event i).fifo = true) :
    ∀ i ≤ run.length, Logged p (run.state i) (submitted run i) := by
  refine run.induction ?_ (fun i hi ih => ?_)
  · rw [run.state_zero]
    exact ⟨rfl, fun j r hr => by cases hr⟩
  · obtain ⟨a, inp, inbox₀, hacts, hcall⟩ := Network.fifo_cases (run.state_succ i hi) (hfifo i hi)
    have h := sound hp run i hi.le
    have hext := h.extends hp hacts.acts
    -- where the primary gives no number and nothing is submitted, all stays
    have hnone : ((run.state (i + 1)).nodes p).seqNum = ((run.state i).nodes p).seqNum →
        submission ms (run.event i) = none →
          Logged p (run.state (i + 1)) (submitted run (i + 1)) := by
      intro hsame hsub
      rw [submitted_succ, hsub, Option.toList_none, List.append_nil]
      exact ih.same hext hsame
    by_cases hpa : p = a
    · subst hpa
      rcases (acts_inOrder hacts).seqNum_cases with ⟨hsame, hno⟩ | ⟨hnext, r, hinp, -, e, he, rfl⟩
      · refine hnone hsame ?_
        cases hev : run.event i with
        | call b r =>
          refine if_neg fun hself => ?_
          obtain ⟨-, hinp⟩ := (hcall b r).mp hev
          exact hno r hinp (h.primary_eq hp p)
        | deliver | drop | forge => rfl
      · have hsub : submission ms (run.event i) = some e.request := by
          rw [(hcall p e.request).mpr ⟨rfl, hinp⟩]
          exact if_pos (hp p)
        rw [submitted_succ, hsub, Option.toList_some]
        exact ih.next hext hnext he
    · refine hnone (congrArg PBFTNode.seqNum (nodes_of_ne hacts.acts hpa)) ?_
      cases hev : run.event i with
      | call b r =>
        obtain ⟨rfl, -⟩ := (hcall b r).mp hev
        exact if_neg fun hself => hpa ((hp b).symm.trans hself)
      | deliver | drop | forge => rfl

/-! ## Order -/

omit [DecidableEq Digest] [Fintype NodeId] in
/-- A node has applied the first of the requests. -/
theorem InSequence.prefix_of_logged {f : ℕ} {s : Cluster NodeId Operation Digest}
    {rs : List (PBFTRequest Operation)} (hq : InSequence f p s) (h : Sound ms ∅ p s)
    (hlogged : Logged p s rs) (a : NodeId) : (s.nodes a).applied <+: numbered rs := by
  rw [List.prefix_iff_getElem?]
  intro j hj
  obtain ⟨⟨k, r⟩, hx⟩ : ∃ x, (s.nodes a).applied[j] = x := ⟨_, rfl⟩
  have hk : k = (j : ℤ) + 1 := by
    have hfst : ((s.nodes a).applied.map Prod.fst)[j]? = some k := by
      rw [List.getElem?_map, List.getElem?_eq_getElem hj, hx]
      rfl
    rw [(hq.ordered a).applied, numbers, List.getElem?_map, List.getElem?_range hj] at hfst
    exact (Option.some.inj hfst).symm
  have hmem : (k, r) ∈ (s.nodes a).applied := hx ▸ List.getElem_mem hj
  obtain ⟨e, he, hr, -⟩ := h.applied a _ hmem
  obtain ⟨e₀, he₀, -, hr₀⟩ := h.primary (Finset.notMem_empty p) a k e he
  -- the primary has an entry under this number, so it is not too large
  have hlt : j < rs.length := by
    by_contra hge
    have hseq := hlogged.seqNum
    rw [h.fresh k (by omega)] at he₀
    cases he₀
  obtain ⟨e₁, he₁, hr₁⟩ := hlogged.entry j rs[j] (List.getElem?_eq_getElem hlt)
  rw [← hk] at he₁
  obtain rfl := Option.some.inj (he₀.symm.trans he₁)
  rw [getElem?_numbered (List.getElem?_eq_getElem hlt), ← hk, ← hr₁, hr₀, hr, hx]

/-- A single node receives no COMMIT, and applies nothing. -/
theorem applied_of_subsingleton [Subsingleton NodeId] (run : ClusterRun ms ∅) (a : NodeId) :
    ∀ i ≤ run.length, ((run.state i).nodes a).applied = [] := by
  refine run.induction (by rw [run.state_zero]; rfl) (fun i hi ih => ?_)
  rcases Network.step_cases (run.state_succ i hi) with hidles | ⟨b, inp, hacts, -⟩
  · rw [hidles.nodes]
    exact ih
  · obtain rfl : a = b := Subsingleton.elim a b
    have hself := acts_self hacts
    cases inp with
    | call request => exact hself.applied_call.trans ih
    | receive env m =>
      have hsound := sound (fun b => ms.primary_eq b a) run i hi.le
      obtain ⟨-, hne, -⟩ := hsound.sent a m (hacts.received env m rfl) (Finset.notMem_empty _)
      exact absurd (Subsingleton.elim a m.senderId) hne

/-- **The order of execution** in a run of `3f + 1` nodes, at most `f` of them Byzantine: no node
applies a number twice, and what two nodes apply under a number has the same digest. Without faults,
and with inboxes that are read in order, every node applies the submitted requests one after the
other. -/
theorem execution_order {faulty : Finset NodeId} {f : ℕ} (hn : Fintype.card NodeId = 3 * f + 1)
    (hfaulty : faulty.card ≤ f) (run : ClusterRun ms faulty) {i : ℕ} (hi : i ≤ run.length) :
    (∀ a, (((run.state i).nodes a).applied.map Prod.fst).Nodup) ∧
    (∀ a b k r r', (k, r) ∈ ((run.state i).nodes a).applied →
      (k, r') ∈ ((run.state i).nodes b).applied → ms.computeDigest r = ms.computeDigest r') ∧
    (faulty = ∅ → (∀ j < run.length, (run.event j).fifo = true) →
      ∀ a, ((run.state i).nodes a).applied <+: numbered (submitted run i)) := by
  have hf : ∀ a, (ms.config a).f = f := by
    intro a
    rw [ms.f_config a]
    omega
  refine ⟨fun a => ?_, fun a b k r r' ha hb => ?_, ?_⟩
  · exact (sound (fun b => ms.primary_eq b a) run i hi).nodup a
  · refine (sound (fun b => ms.primary_eq b a) run i hi).computeDigest_eq (Or.inr ?_) ha hb
    rw [hf a]
    omega
  · rintro rfl hfifo a
    have hp : ∀ b, ms.primary b = ms.primary a := fun b => ms.primary_eq b a
    rcases Nat.eq_zero_or_pos f with rfl | hpos
    · have : Subsingleton NodeId := Fintype.card_le_one_iff_subsingleton.1 (by omega)
      rw [applied_of_subsingleton run a i hi]
      exact List.nil_prefix
    · exact (inSequence hp hf hpos run hfifo i hi).prefix_of_logged (sound hp run i hi)
        (logged hp run hfifo i hi) a

/-! ## Completion -/

omit [DecidableEq Digest] in
/-- With empty inboxes, every node has applied what the primary has numbered. -/
theorem InSequence.applied_of_empty {f : ℕ} (hn : 3 * f + 1 ≤ Fintype.card NodeId)
    {s : Cluster NodeId Operation Digest} (hq : InSequence f p s)
    (hempty : ∀ a, s.inbox a = []) (a : NodeId) {k : ℤ} (hpos : 1 ≤ k)
    (hk : k ≤ (s.nodes p).seqNum) : k ∈ (s.nodes a).applied.map Prod.fst := by
  have hseen : ∀ q, Seen (s.nodes (owner p q.1)) q → ∀ b, Seen (s.nodes b) q := by
    intro q hs b
    refine (hq.told q hs b).resolve_right ?_
    rw [hempty b]
    simp
  have hproposal : ∀ b, Seen (s.nodes b) (.proposal, k) := hseen _ (hq.full k hpos hk)
  have hprepare : ∀ b x, x ≠ p → Seen (s.nodes b) (.prepare x, k) :=
    fun b x hx => hseen (.prepare x, k) ((hq.ordered x).self hx k (hproposal x)) b
  have hcommit : ∀ b x, Seen (s.nodes b) (.commit x, k) := by
    intro b x
    refine hseen (.commit x, k) ?_ b
    refine (hq.ordered x).promised_of_subset (Q := Finset.univ.erase p) ?_ (hproposal x)
      (fun y hy => hprepare x y (Finset.ne_of_mem_erase hy))
    rw [Finset.card_erase_of_mem (Finset.mem_univ p), Finset.card_univ]
    omega
  obtain ⟨e, he, -⟩ := hproposal a
  refine (hq.ordered a).executed k e he ((hq.ordered a).committed k e he ?_)
  have hall : Finset.univ ⊆ e.commits := by
    intro x _
    obtain ⟨e', he', hshows⟩ := hcommit a x
    obtain rfl := Option.some.inj (he.symm.trans he')
    exact hshows
  have hcard := Finset.card_le_card hall
  rw [Finset.card_univ] at hcard
  omega

/-- **Completion**: in a fault-free run of at least four nodes, with inboxes that are read in order,
every node has applied every submitted request exactly once, in order, whenever all inboxes are
empty. -/
theorem completion (hn : 4 ≤ Fintype.card NodeId) (run : ClusterRun ms ∅)
    (hfifo : ∀ j < run.length, (run.event j).fifo = true) {i : ℕ} (hi : i ≤ run.length)
    (hempty : ∀ a, (run.state i).inbox a = []) (a : NodeId) :
    ((run.state i).nodes a).applied = numbered (submitted run i) := by
  have hp : ∀ b, ms.primary b = ms.primary a := fun b => ms.primary_eq b a
  have hf : ∀ b, (ms.config b).f = (Fintype.card NodeId - 1) / 3 := fun b => ms.f_config b
  have hq := inSequence hp hf (by omega) run hfifo i hi
  have hlogged := logged hp run hfifo i hi
  refine (hq.prefix_of_logged (sound hp run i hi) hlogged a).eq_of_length_le ?_
  have hlength : (numbered (submitted run i)).length = (submitted run i).length := by
    simp [numbered, numbers]
  rw [hlength]
  -- the last number is applied, and with it all before it
  rcases Nat.eq_zero_or_pos (submitted run i).length with hzero | hpos
  · omega
  · have hlast := hq.applied_of_empty (by omega) hempty a
      (k := ((submitted run i).length : ℤ)) (by omega) hlogged.seqNum.ge
    rw [(hq.ordered a).applied, mem_numbers] at hlast
    omega

end Runs

/-- In `served`, what node 3 applies. -/
theorem execution_order_served :
    (((served.state 37).nodes 3).applied.map Prod.fst).Nodup ∧
      ((served.state 37).nodes 3).applied <+: numbered (submitted served 37) := by
  have h := execution_order (f := 1) (by decide) (by decide) served (i := 37) (by decide)
  exact ⟨h.1 3, h.2.2 rfl (by decide +kernel) 3⟩

theorem completion_served :
    ((served.state 37).nodes 3).applied = numbered (submitted served 37) ∧
      numbered (submitted served 37) = [(1, request 1)] :=
  ⟨completion (by decide) served (by decide +kernel) (by decide) (by decide +kernel) 3,
    by decide +kernel⟩

/-! ## Out of order -/

/-- Two requests are submitted, and nodes 0, 1 and 2 read the messages about the second one. -/
def overtakenEvents : List (Event (Fin 4) ℕ (PBFTRequest ℕ)) :=
  [.call 0 (request 1), .call 0 (request 2),
    .deliver 1 1 (), .deliver 2 1 (), .deliver 1 1 (), .deliver 2 1 (),
    .deliver 0 0 (), .deliver 0 0 (), .deliver 1 1 (), .deliver 1 1 ()]

def overtaken : ClusterRun (plainCluster 4) ∅ :=
  Run.ofEvents _ _ overtakenEvents (.drop 0 0) (by decide +kernel)

/-- Node 1 has applied number 2 and not number 1. -/
theorem overtaken_applies :
    ((overtaken.state 10).nodes 1).applied = [(2, request 2)] := by
  decide +kernel

end Pbft
