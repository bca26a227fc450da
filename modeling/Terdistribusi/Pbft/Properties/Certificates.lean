import Terdistribusi.Pbft.Properties.Agreement

/-!
# When prepared certificates agree

Two correct nodes that broadcast COMMIT for different digests under one number need `2f` PREPAREs
each. Of `3f` nodes other than the primary at least `f` are in both sets, and one of them is correct
when the primary is not. So it is enough that each PREPARE is the vote of a node other than the
primary, for one digest only.

The code ensures neither. A PREPARE of the primary is counted although its PRE-PREPARE is the vote
(`countsPrimary`), and a second PRE-PREPARE is answered with a second PREPARE for its digest
(`vouchesTwice`).
-/

namespace Pbft

open Infra

variable {NodeId Operation Digest : Type} [LinearOrder NodeId] [DecidableEq Digest]

/-- The node would vote for the digest of a PRE-PREPARE, and has an entry with another digest. -/
def vouchesTwice (cfg : Config NodeId Operation Digest) (n : PBFTNode NodeId Operation Digest)
    (m : Message NodeId (Payload Operation Digest)) : Bool :=
  match m.payload with
  | .prePrepare view seqNum digest request =>
    view = n.view && m.senderId = cfg.primary n.view && digest = cfg.computeDigest request &&
      (n.log.get? seqNum).any fun e => e.digest ≠ digest
  | _ => false

/-- The node would count a PREPARE of the primary. -/
def countsPrimary (cfg : Config NodeId Operation Digest) (n : PBFTNode NodeId Operation Digest)
    (m : Message NodeId (Payload Operation Digest)) : Bool :=
  match m.payload with
  | .prepare _ seqNum digest =>
    m.senderId = cfg.primary n.view && (n.log.get? seqNum).any fun e => e.digest = digest
  | _ => false

/-- The event makes a correct node vote twice or count a PREPARE of the primary. -/
def weakens (ms : Members NodeId Operation Digest) (faulty : Finset NodeId)
    (s : Cluster NodeId Operation Digest) (e : Event NodeId Operation Digest) : Bool :=
  Network.atDelivery faulty
    (fun a n m => vouchesTwice (ms.config a) n m || countsPrimary (ms.config a) n m) s e

/-- Every counted PREPARE of a correct node is its one vote, and none is the primary's. -/
structure Vouched (faulty : Finset NodeId) (p : NodeId) (s : Cluster NodeId Operation Digest) :
    Prop where
  sent : ∀ b, ∀ m ∈ s.inbox b, m.senderId ∉ faulty → ∀ v k d, m.payload = .prepare v k d →
    Agreed s m.senderId k d
  prepares : ∀ a k e, entryOf s a k = some e → ∀ x ∈ e.prepares, x ∉ faulty → Agreed s x k e.digest
  others : ∀ a k e, entryOf s a k = some e → p ∉ e.prepares

section Step

variable {ms : Members NodeId Operation Digest} {faulty : Finset NodeId} {p : NodeId}
  {s s' : Cluster NodeId Operation Digest} {a : NodeId}
  {inp : Input NodeId (PBFTRequest Operation) Unit (Payload Operation Digest)}

/-- A node that does not vote twice has the entry for which it sends a PREPARE. -/
theorem agreed_prepare
    (hone : ∀ env m, inp = .receive env m → vouchesTwice (ms.config a) (s.nodes a) m = false)
    {v : ℕ} {k : ℤ} {d : Digest}
    (hb : Behind (ms.config a) (s.nodes a) inp (s'.nodes a) (.prepare v k d)) :
    Agreed s' a k d := by
  obtain ⟨rfl, r, rfl, ⟨env, m, hinp, hsender, hpayload⟩, e, he, -, hd | ⟨e₀, he₀, hd⟩⟩ := hb
  · exact ⟨e, he, hd⟩
  · refine ⟨e, he, ?_⟩
    by_contra hne
    have htwice : vouchesTwice (ms.config a) (s.nodes a) m = true := by
      simp only [vouchesTwice, hpayload, hsender, he₀, Option.any_some, hd]
      simpa using hne
    rw [hone env m hinp] at htwice
    cases htwice

variable (h : Sound ms faulty p s) (hv : Vouched faulty p s) (hp : ∀ a, ms.primary a = p)
  (hacts : Network.Acts ms.act faulty s s' a inp)

include h hv hp hacts

theorem Vouched.sent_succ
    (hone : ∀ env m, inp = .receive env m → vouchesTwice (ms.config a) (s.nodes a) m = false) :
    ∀ b, ∀ m ∈ s'.inbox b, m.senderId ∉ faulty → ∀ v k d, m.payload = .prepare v k d →
      Agreed s' m.senderId k d := by
  intro b m hm hcorrect v k d hpayload
  rcases hacts.inbox b m hm with hm | ⟨hout, -⟩
  · exact (hv.sent b m hm hcorrect v k d hpayload).extends (h.extends hp hacts)
  · obtain ⟨hsender, -, hbehind⟩ := (acts_self hacts).sends hout
    rw [hpayload] at hbehind
    rw [show m.senderId = a from hsender]
    exact agreed_prepare hone hbehind

theorem Vouched.prepares_succ : ∀ b k e', entryOf s' b k = some e' → ∀ x ∈ e'.prepares,
    x ∉ faulty → Agreed s' x k e'.digest := by
  intro b k e' he' x hx hcorrect
  have hext := h.extends hp hacts
  rcases entry_succ hacts he' with ⟨e, he, hchanged⟩ | ⟨rfl, hfresh⟩
  · rw [hchanged.digest]
    rcases hchanged.newPrepares x hx with hx | ⟨v, env, m, hinp, rfl, hpayload⟩ | ⟨rfl, -⟩
    · exact (hv.prepares b k e he x hx hcorrect).extends hext
    · exact (hv.sent a m (hacts.received env m hinp) hcorrect v k _ hpayload).extends hext
    · exact ⟨e', he', hchanged.digest⟩
  · obtain ⟨rfl, -⟩ := hfresh.mem_prepares hx
    exact ⟨e', he', rfl⟩

theorem Vouched.others_succ
    (hothers : ∀ env m, inp = .receive env m → countsPrimary (ms.config a) (s.nodes a) m = false) :
    ∀ b k e', entryOf s' b k = some e' → p ∉ e'.prepares := by
  intro b k e' he' hx
  by_cases hb : b = a
  · subst hb
    have hself : ∀ d r, p = b → ¬ Receives inp ((ms.config b).primary (s.nodes b).view)
        (.prePrepare (s.nodes b).view k d r) := by
      rintro d r rfl hr
      rw [h.primary_eq hp p] at hr
      exact (h.receives hacts hr hacts.correct).1 rfl
    rcases (acts_self hacts).entry he' with ⟨e, he, hchanged⟩ | hfresh
    · rcases hchanged.newPrepares p hx with hx | ⟨v, env, m, hinp, hsender, hpayload⟩ |
        ⟨hpb, d, r, hr⟩
      · exact hv.others b k e he hx
      · have hcounts : countsPrimary (ms.config b) (s.nodes b) m = true := by
          simp [countsPrimary, hpayload, hsender, he, h.primary_eq hp b]
        rw [hothers env m hinp] at hcounts
        cases hcounts
      · exact hself d r hpb hr
    · obtain ⟨hpb, hr⟩ := hfresh.mem_prepares hx
      exact hself _ _ hpb hr
  · rw [entryOf, nodes_of_ne hacts hb] at he'
    exact hv.others b k e' he' hx

end Step

/-! ## Runs -/

section Runs

variable [Fintype NodeId] {ms : Members NodeId Operation Digest} {faulty : Finset NodeId}
  {p : NodeId}

/-- PREPAREs are single votes throughout a run that no step weakens. -/
theorem vouched (hp : ∀ a, ms.primary a = p) (run : ClusterRun ms faulty)
    (hno : ∀ i < run.length, weakens ms faulty (run.state i) (run.event i) = false) :
    ∀ i ≤ run.length, Vouched faulty p (run.state i) := by
  refine run.induction ?_ (fun i hi ih => ?_)
  · rw [run.state_zero]
    constructor <;> simp [entryOf, Network.initial]
  · have h := sound hp run i hi.le
    have hweak := hno i hi
    rcases Network.step_cases (run.state_succ i hi) with hidles | ⟨a, inp, hacts, hdeliver⟩
    · obtain ⟨hnodes, hinbox⟩ := hidles
      refine ⟨fun b m hm hcorrect v k d hpayload => ?_, ?_, ?_⟩
      · have hold := ih.sent b m ((hinbox b m hm).resolve_right hcorrect) hcorrect v k d hpayload
        simpa only [Agreed, entryOf, hnodes] using hold
      · simpa only [Agreed, entryOf, hnodes] using ih.prepares
      · simpa only [entryOf, hnodes] using ih.others
    · have hchecks : ∀ env m, inp = .receive env m →
          vouchesTwice (ms.config a) ((run.state i).nodes a) m = false ∧
            countsPrimary (ms.config a) ((run.state i).nodes a) m = false := by
        intro env m hinp
        obtain ⟨k, he, hm⟩ := hdeliver env m hinp
        rw [he] at hweak
        exact Bool.or_eq_false_iff.mp (Network.check_of_atDelivery hweak hacts.correct hm)
      exact ⟨ih.sent_succ h hp hacts fun env m hinp => (hchecks env m hinp).1,
        ih.prepares_succ h hp hacts,
        ih.others_succ h hp hacts fun env m hinp => (hchecks env m hinp).2⟩

omit [DecidableEq Digest] in
/-- Two correct nodes with `2f` PREPAREs each have the same digest. -/
theorem Vouched.digest_eq {s : Cluster NodeId Operation Digest} (hv : Vouched faulty p s)
    (h : Sound ms faulty p s) {f : ℕ} (hn : Fintype.card NodeId = 3 * f + 1)
    (hfaulty : faulty.card ≤ f) {a b : NodeId} {k : ℤ} {e e' : PBFTLogEntry NodeId Operation Digest}
    (he : entryOf s a k = some e) (he' : entryOf s b k = some e')
    (hquorum : 2 * f ≤ e.prepares.card) (hquorum' : 2 * f ≤ e'.prepares.card) :
    e.digest = e'.digest := by
  by_cases hcorrect : p ∈ faulty
  · have hsubset : ∀ c e, entryOf s c k = some e → e.prepares ⊆ Finset.univ.erase p :=
      fun c e he => Finset.subset_erase.mpr ⟨Finset.subset_univ _, hv.others c k e he⟩
    have hcards : (Finset.univ.erase p).card + (faulty.erase p).card <
        e.prepares.card + e'.prepares.card := by
      rw [Finset.card_erase_of_mem (Finset.mem_univ p), Finset.card_erase_of_mem hcorrect,
        Finset.card_univ]
      have hpos := Finset.card_pos.mpr ⟨p, hcorrect⟩
      omega
    obtain ⟨x, hx, hx', hnot⟩ :=
      exists_correct_mem_both (hsubset a e he) (hsubset b e' he') hcards
    have hxp : x ≠ p := by
      rintro rfl
      exact hv.others a k e he hx
    have hx_correct : x ∉ faulty := fun hf => hnot (Finset.mem_erase.mpr ⟨hxp, hf⟩)
    obtain ⟨e₁, he₁, hd⟩ := hv.prepares a k e he x hx hx_correct
    obtain ⟨e₂, he₂, hd'⟩ := hv.prepares b k e' he' x hx' hx_correct
    obtain rfl := Option.some.inj (he₁.symm.trans he₂)
    exact hd.symm.trans hd'
  · obtain ⟨e₁, he₁, hd, -⟩ := h.primary hcorrect a k e he
    obtain ⟨e₂, he₂, hd', -⟩ := h.primary hcorrect b k e' he'
    obtain rfl := Option.some.inj (he₁.symm.trans he₂)
    exact hd.symm.trans hd'

/-- **Prepared certificates agree** in every run of `3f + 1` nodes, at most `f` of them Byzantine,
in which no correct node votes twice or counts a PREPARE of the primary: two COMMITs of correct
nodes under one number, sent at any times, are for the same digest. -/
theorem certificates_agree {f : ℕ} (hn : Fintype.card NodeId = 3 * f + 1)
    (hfaulty : faulty.card ≤ f) (run : ClusterRun ms faulty)
    (hno : ∀ i < run.length, weakens ms faulty (run.state i) (run.event i) = false)
    {i j : ℕ} (hi : i ≤ run.length) (hj : j ≤ run.length) {b b' : NodeId}
    {m m' : Message NodeId (Payload Operation Digest)} (hm : m ∈ (run.state i).inbox b)
    (hm' : m' ∈ (run.state j).inbox b') (hcorrect : m.senderId ∉ faulty)
    (hcorrect' : m'.senderId ∉ faulty) {v : ℕ} {k : ℤ} {d d' : Digest}
    (hpayload : m.payload = .commit v k d) (hpayload' : m'.payload = .commit v k d') : d = d' := by
  have hp : ∀ c, ms.primary c = ms.primary b := fun c => ms.primary_eq c b
  have hf : ∀ c, (ms.config c).f = f := by
    intro c
    rw [ms.f_config c]
    omega
  have hbacked := (sound hp run i hi).sent b m hm hcorrect
  have hbacked' := (sound hp run j hj).sent b' m' hm' hcorrect'
  rw [hpayload, hf b] at hbacked
  rw [hpayload', hf b'] at hbacked'
  obtain ⟨-, -, -, e, he, rfl, hquorum, -⟩ := hbacked
  obtain ⟨-, -, -, e', he', rfl, hquorum', -⟩ := hbacked'
  -- both entries, at the later of the two times
  have hmax : max i j ≤ run.length := max_le hi hj
  obtain ⟨x, hx, hgrown⟩ := extends_of_le hp run (le_max_left i j) hmax _ k e he
  obtain ⟨x', hx', hgrown'⟩ := extends_of_le hp run (le_max_right i j) hmax _ k e' he'
  rw [← hgrown.digest, ← hgrown'.digest]
  exact (vouched hp run hno _ hmax).digest_eq (sound hp run _ hmax) hn hfaulty hx hx'
    (hquorum.trans (Finset.card_le_card hgrown.prepares))
    (hquorum'.trans (Finset.card_le_card hgrown'.prepares))

end Runs

/-- Two COMMITs in the inbox of node 3 are for the same digest. -/
theorem certificates_agree_served :
    { senderId := 2, receiverId := 3, payload := .commit 0 1 (request 1) } ∈
        (served.state 18).inbox 3 ∧
      ∀ m ∈ (served.state 18).inbox 3, ∀ d, m.senderId = 1 → m.payload = .commit 0 1 d →
        d = request 1 := by
  have hm' : { senderId := 2, receiverId := 3, payload := .commit 0 1 (request 1) } ∈
      (served.state 18).inbox 3 := by decide +kernel
  refine ⟨hm', fun m hm d hsender hpayload => ?_⟩
  exact certificates_agree (f := 1) (by decide) (by decide) served (by decide +kernel)
    (i := 18) (by decide) (j := 18) (by decide) hm hm' (Finset.notMem_empty _)
    (Finset.notMem_empty _) hpayload rfl

/-! ## Two certificates -/

/-- The primary proposes one request to node 1 and another one to node 2, with a PREPARE of its own
for each. -/
def doubledEvents : List (Event (Fin 4) ℕ (PBFTRequest ℕ)) :=
  [forged 1 (.prePrepare 0 1 (request 1) (request 1)), forged 1 (.prepare 0 1 (request 1)),
    forged 2 (.prePrepare 0 1 (request 2) (request 2)), forged 2 (.prepare 0 1 (request 2)),
    .deliver 1 0 (), .deliver 1 0 (), .deliver 2 0 (), .deliver 2 0 ()]

def doubled : ClusterRun (plainCluster 4) {0} :=
  Run.ofEvents _ _ doubledEvents (.drop 0 0) (by decide +kernel)

/-- Nodes 1 and 2, both correct, broadcast COMMIT for different digests. -/
theorem doubled_disagrees :
    Function.Injective (plainCluster 4).computeDigest ∧
      { senderId := 1, receiverId := 3, payload := .commit 0 1 (request 1) } ∈
        (doubled.state 8).inbox 3 ∧
      { senderId := 2, receiverId := 3, payload := .commit 0 1 (request 2) } ∈
        (doubled.state 8).inbox 3 ∧
      request 1 ≠ request 2 :=
  ⟨Function.injective_id, by decide +kernel, by decide +kernel, by decide⟩

end Pbft
