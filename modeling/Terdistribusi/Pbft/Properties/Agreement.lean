import Terdistribusi.Pbft.Properties.Sound
import Terdistribusi.Infra.Quorum

/-!
# When correct nodes agree

Two correct nodes that apply something under the same number have `2f + 1` votes each, from which
they agree if the two sets of voters share a correct node. With `n` nodes and `b` Byzantine ones
they do if `n + b < 4f + 2`. The thresholds are computed from `f = (n - 1) / 3` alone, so for
`b = f` this means `n = 3f + 1`; for `n = 5` the claim of `docs/algorithms.md` fails (`split`).

A correct primary makes all nodes agree whatever `n` is. A Byzantine node takes no step of its own
here, and applies nothing.
-/

namespace Pbft

open Infra

variable {NodeId Operation Digest : Type} [LinearOrder NodeId] [DecidableEq Digest]
  [Fintype NodeId] {ms : Members NodeId Operation Digest} {faulty : Finset NodeId} {p : NodeId}

omit [DecidableEq Digest] in
/-- Two entries with `2f + 1` votes each have the same digest. -/
theorem Sound.digest_eq {s : Cluster NodeId Operation Digest} (h : Sound ms faulty p s)
    {a b : NodeId}
    (hsafe : p ∉ faulty ∨ Fintype.card NodeId + faulty.card < 4 * (ms.config a).f + 2)
    {k : ℤ} {e e' : PBFTLogEntry NodeId Operation Digest} (he : entryOf s a k = some e)
    (he' : entryOf s b k = some e') (hquorum : 2 * (ms.config a).f + 1 ≤ e.commits.card)
    (hquorum' : 2 * (ms.config b).f + 1 ≤ e'.commits.card) : e.digest = e'.digest := by
  rcases hsafe with hcorrect | hcard
  · obtain ⟨x, hx, hd, -⟩ := h.primary hcorrect a k e he
    obtain ⟨x', hx', hd', -⟩ := h.primary hcorrect b k e' he'
    obtain rfl := Option.some.inj (hx.symm.trans hx')
    exact hd.symm.trans hd'
  · have hcards : (Finset.univ : Finset NodeId).card + faulty.card <
        e.commits.card + e'.commits.card := by
      rw [ms.f_config b, ← ms.f_config a] at hquorum'
      rw [Finset.card_univ]
      omega
    obtain ⟨v, hv, hv', hcorrect⟩ :=
      exists_correct_mem_both (Finset.subset_univ _) (Finset.subset_univ _) hcards
    obtain ⟨x, hx, hd⟩ := h.commits a k e he v hv hcorrect
    obtain ⟨x', hx', hd'⟩ := h.commits b k e' he' v hv' hcorrect
    obtain rfl := Option.some.inj (hx.symm.trans hx')
    exact hd.symm.trans hd'

omit [DecidableEq Digest] in
/-- What nodes apply under the same number has the same digest. -/
theorem Sound.computeDigest_eq {s : Cluster NodeId Operation Digest} (h : Sound ms faulty p s)
    {a b : NodeId}
    (hsafe : p ∉ faulty ∨ Fintype.card NodeId + faulty.card < 4 * (ms.config a).f + 2)
    {k : ℤ} {r r' : PBFTRequest Operation} (ha : (k, r) ∈ (s.nodes a).applied)
    (hb : (k, r') ∈ (s.nodes b).applied) : ms.computeDigest r = ms.computeDigest r' := by
  obtain ⟨e, he, hr, -, hquorum⟩ := h.applied a _ ha
  obtain ⟨e', he', hr', -, hquorum'⟩ := h.applied b _ hb
  calc ms.computeDigest r = ms.computeDigest e.request := by rw [hr]
    _ = e.digest := (h.digest a k e he).symm
    _ = e'.digest := h.digest_eq hsafe he he' hquorum hquorum'
    _ = ms.computeDigest e'.request := h.digest b k e' he'
    _ = ms.computeDigest r' := by rw [hr']

/-- **Agreement**: where the primary is correct, or there are fewer than `4f + 2 - n` Byzantine
nodes, no two nodes apply different requests under the same number. -/
theorem agreement (hdigest : Function.Injective ms.computeDigest) (run : ClusterRun ms faulty)
    {i : ℕ} (hi : i ≤ run.length) {a b : NodeId}
    (hsafe : ms.primary a ∉ faulty ∨
      Fintype.card NodeId + faulty.card < 4 * (ms.config a).f + 2)
    {k : ℤ} {r r' : PBFTRequest Operation} (ha : (k, r) ∈ ((run.state i).nodes a).applied)
    (hb : (k, r') ∈ ((run.state i).nodes b).applied) : r = r' :=
  hdigest ((sound (fun b => ms.primary_eq b a) run i hi).computeDigest_eq hsafe ha hb)

/-! ## A cluster of four -/

/-- `n` nodes for which a request is its own digest. -/
def plainCluster (n : ℕ) : Members (Fin n) ℕ (PBFTRequest ℕ) := fullCluster n id

/-- Requests that differ in their operation. -/
def request (k : ℕ) : PBFTRequest ℕ :=
  { requestId := "r", clientId := "c", operation := k, timestamp := 0 }

/-- The nodes take the messages at the front of their inboxes in this order. -/
def inOrder (nodes : List (Fin 4)) : List (Event (Fin 4) ℕ (PBFTRequest ℕ)) :=
  nodes.map fun a => .deliver a 0 ()

/-- The primary submits a request, and all messages are delivered. -/
def served : ClusterRun (plainCluster 4) ∅ :=
  Run.ofEvents _ _
    (.call 0 (request 1) :: inOrder
      [1, 0, 2, 0, 1, 0, 1, 2, 0, 1, 2, 2, 3, 0, 1, 0, 1, 2,
        0, 1, 2, 2, 3, 0, 1, 2, 3, 0, 1, 2, 3, 3, 3, 3, 3, 3])
    (.drop 0 0) (by decide +kernel)

theorem agreement_served :
    (1, request 1) ∈ ((served.state 37).nodes 0).applied ∧
      ∀ r, (1, r) ∈ ((served.state 37).nodes 3).applied → r = request 1 := by
  have hzero : (1, request 1) ∈ ((served.state 37).nodes 0).applied := by decide +kernel
  have hdigest : Function.Injective (plainCluster 4).computeDigest := Function.injective_id
  exact ⟨hzero, fun r hr => agreement hdigest served (by decide) (a := 3)
    (Or.inr (by decide +kernel)) hr hzero⟩

/-! ## A split cluster of five -/

/-- A message of node 0, which is Byzantine. -/
def forged {n : ℕ} [NeZero n] (b : Fin n) (payload : Payload ℕ (PBFTRequest ℕ)) :
    Event (Fin n) ℕ (PBFTRequest ℕ) :=
  .forge { senderId := 0, receiverId := b, payload := payload }

/-- The primary proposes one request to nodes 1 and 2 and another one to nodes 3 and 4, and votes
for both. -/
def splitEvents : List (Event (Fin 5) ℕ (PBFTRequest ℕ)) :=
  [forged 1 (.prePrepare 0 1 (request 1) (request 1)),
    forged 2 (.prePrepare 0 1 (request 1) (request 1)),
    forged 3 (.prePrepare 0 1 (request 2) (request 2)),
    forged 4 (.prePrepare 0 1 (request 2) (request 2)),
    .deliver 1 0 (), .deliver 2 0 (), .deliver 1 0 (), .deliver 2 0 (), .deliver 1 0 (),
    forged 1 (.commit 0 1 (request 1)), .deliver 1 0 (),
    .deliver 3 0 (), .deliver 4 0 (), .deliver 3 4 (), .deliver 4 4 (), .deliver 3 4 (),
    forged 3 (.commit 0 1 (request 2)), .deliver 3 4 ()]

def split : ClusterRun (plainCluster 5) {0} :=
  Run.ofEvents _ _ splitEvents (.drop 0 0) (by decide +kernel)

/-- Five nodes tolerate no Byzantine primary, although `f = 1`. -/
theorem split_disagrees :
    Function.Injective (plainCluster 5).computeDigest ∧
      ({0} : Finset (Fin 5)).card ≤ ((plainCluster 5).config 1).f ∧
      (1, request 1) ∈ ((split.state 18).nodes 1).applied ∧
      (1, request 2) ∈ ((split.state 18).nodes 3).applied ∧ request 1 ≠ request 2 :=
  ⟨Function.injective_id, by decide +kernel, by decide +kernel, by decide +kernel, by decide⟩

end Pbft
