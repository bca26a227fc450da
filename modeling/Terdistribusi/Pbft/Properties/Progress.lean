import Terdistribusi.Pbft.Properties.Agreement
import Mathlib.Data.Finset.Prod
import Mathlib.Data.Finset.SDiff

/-!
# Byzantine backups cannot stop a cluster

From any state of any run, whatever was lost or forged before, a request that a correct primary
takes can still be applied by all correct nodes, and the faulty ones need not take part
(`served_anyway`). Their messages stay in the inboxes, and those of the correct nodes about the
request are taken in three rounds:

* `Asked` — the backups take the proposal
* `Promising` — all take each other's PREPAREs
* `Committing` — all take each other's COMMITs
-/

namespace Pbft

open Infra

variable {NodeId Operation Digest : Type} [LinearOrder NodeId] [DecidableEq Digest]

/-! ## The messages about one request -/

section Node

variable (ms : Members NodeId Operation Digest) (k : ℤ) (q : PBFTRequest Operation)

/-- The proposal of request `q` under number `k`. -/
def Members.proposal : Payload Operation Digest := .prePrepare 0 k (ms.computeDigest q) q

def Members.promise : Payload Operation Digest := .prepare 0 k (ms.computeDigest q)

def Members.vote : Payload Operation Digest := .commit 0 k (ms.computeDigest q)

/-- The entry for it, with these votes. -/
def Members.entry (prepares commits : Finset NodeId) : PBFTLogEntry NodeId Operation Digest :=
  { seqNum := k, view := 0, request := q, digest := ms.computeDigest q, prePrepareReceived := true,
    prepares := prepares, commits := commits }

variable {n : PBFTNode NodeId Operation Digest} {b x : NodeId}

theorem act_call (hself : ms.primary b = b) (hview : n.view = 0) (hk : k = n.seqNum + 1) :
    ms.act b (.call q) n = ({ n.withEntry k (ms.entry k q ∅ ∅) with seqNum := k },
      Network.broadcast b (ms.peers b) (ms.proposal k q)) := by
  obtain ⟨view, seqNum, log, applied⟩ := n
  dsimp only at hview hk
  subst hview hk
  have hprimary : ¬ (ms.config b).primary 0 ≠ (ms.config b).nodeId := not_not.mpr hself
  show (PBFTNode.submit (ms.config b) q _).2 = _
  unfold PBFTNode.submit
  rw [if_neg hprimary]
  rfl

theorem act_proposal {p : NodeId} (hp : ms.primary b = p) (hview : n.view = 0)
    (hget : n.log.get? k = none) : ms.act b (.receive () ⟨p, b, ms.proposal k q⟩) n =
      (n.withEntry k (ms.entry k q {b} ∅), Network.broadcast b (ms.peers b) (ms.promise k q)) := by
  have hsender : (ms.config b).primary 0 = p := hp
  have hdigest : (ms.config b).computeDigest q = ms.computeDigest q := rfl
  show PBFTNode.onPrePrepare (ms.config b) p 0 k (ms.computeDigest q) q n = _
  simp [PBFTNode.onPrePrepare, hview, hsender, hget, hdigest, Members.entry]
  exact ⟨rfl, rfl⟩

theorem act_promise {P C : Finset NodeId} (hview : n.view = 0)
    (hget : n.log.get? k = some (ms.entry k q P C)) (hx : x ∉ C) :
    ms.act b (.receive () ⟨x, b, ms.promise k q⟩) n =
      if 2 * (ms.config b).f ≤ (insert x P).card then
        (n.withEntry k (ms.entry k q (insert x P) (insert b C)),
          Network.broadcast b (ms.peers b) (ms.vote k q))
      else (n.withEntry k (ms.entry k q (insert x P) C), []) := by
  obtain ⟨view, seqNum, log, applied⟩ := n
  dsimp only at hview hget
  subst hview
  show PBFTNode.onPrepare (ms.config b) x k (ms.computeDigest q) _ = _
  unfold PBFTNode.onPrepare
  rw [hget]
  simp [Members.entry, hx]
  rfl

theorem act_vote {e : PBFTLogEntry NodeId Operation Digest} (hget : n.log.get? k = some e)
    (hd : e.digest = ms.computeDigest q) :
    (ms.act b (.receive () ⟨x, b, ms.vote k q⟩) n).1 =
      if 2 * (ms.config b).f + 1 ≤ (insert x e.commits).card ∧ ¬ e.committed = true then
        PBFTNode.apply { e with commits := insert x e.commits, committed := true }
          (n.withEntry k { e with commits := insert x e.commits, committed := true })
      else n.withEntry k { e with commits := insert x e.commits } := by
  show (PBFTNode.onCommit (ms.config b) x k (ms.computeDigest q) n).1 = _
  simp only [PBFTNode.onCommit, hget, hd, ne_eq, not_true_eq_false, if_false]
  split <;> rfl

end Node

omit [DecidableEq Digest] in
/-- Only a COMMIT makes a node apply something. -/
theorem Acts.applied_of_not_commit {cfg : Config NodeId Operation Digest}
    {n n' : PBFTNode NodeId Operation Digest} {env : Unit}
    {m : Message NodeId (Payload Operation Digest)}
    {outs : List (Message NodeId (Payload Operation Digest))}
    (h : Acts cfg n (.receive env m) n' outs) (hm : ∀ v k d, m.payload ≠ .commit v k d) :
    n'.applied = n.applied := by
  cases h with
  | executed hcommit => exact absurd hcommit (hm _ _ _)
  | _ => rfl

/-- The entry `e` of the request has the votes of `V`, and the node has applied it once it is
committed. -/
structure Voting (ms : Members NodeId Operation Digest) (k : ℤ) (q : PBFTRequest Operation)
    (V : Finset NodeId) (n : PBFTNode NodeId Operation Digest)
    (e : PBFTLogEntry NodeId Operation Digest) : Prop where
  get : n.log.get? k = some e
  seqNum : e.seqNum = k
  request : e.request = q
  digest : e.digest = ms.computeDigest q
  votes : V ⊆ e.commits
  applied : e.committed = true → (k, q) ∈ n.applied
  unapplied : ¬ e.committed = true → k ∉ n.applied.map Prod.fst

/-- One more vote, which commits the entry when there are enough. -/
theorem Voting.take {ms : Members NodeId Operation Digest} {k : ℤ} {q : PBFTRequest Operation}
    {V : Finset NodeId} {n : PBFTNode NodeId Operation Digest}
    {e : PBFTLogEntry NodeId Operation Digest} (h : Voting ms k q V n e) (x b : NodeId) :
    ∃ e', Voting ms k q (insert x V) (ms.act b (.receive () ⟨x, b, ms.vote k q⟩) n).1 e' ∧
      (2 * (ms.config b).f + 1 ≤ (insert x V).card → e'.committed = true) := by
  have hvotes : insert x V ⊆ insert x e.commits := Finset.insert_subset_insert x h.votes
  rw [act_vote ms k q h.get h.digest]
  split
  · next hcond =>
    refine ⟨{ e with commits := insert x e.commits, committed := true },
      ⟨?_, h.seqNum, h.request, h.digest, hvotes, fun _ => ?_, fun hne => absurd rfl hne⟩,
      fun _ => rfl⟩
    · rw [apply_log]
      exact Dict.get?_set_self _ _ _
    · have hnot : e.seqNum ∉ n.applied.map Prod.fst := by
        rw [h.seqNum]
        exact h.unapplied hcond.2
      unfold PBFTNode.apply
      rw [if_neg hnot]
      simp [h.seqNum, h.request]
  · next hcond =>
    refine ⟨{ e with commits := insert x e.commits },
      ⟨Dict.get?_set_self _ _ _, h.seqNum, h.request, h.digest, hvotes, h.applied, h.unapplied⟩,
      fun hle => ?_⟩
    by_contra hne
    exact hcond ⟨hle.trans (Finset.card_le_card hvotes), hne⟩

/-- Those that node `b` has heard of: `own`, and the senders of the messages in `B` that it took. -/
def heard (own : Finset NodeId) (B : Finset (NodeId × NodeId)) (b : NodeId) : Finset NodeId :=
  own ∪ (B.filter fun x => x.2 = b).image Prod.fst

theorem mem_heard {own : Finset NodeId} {B : Finset (NodeId × NodeId)} {b x : NodeId} :
    x ∈ heard own B b ↔ x ∈ own ∨ (x, b) ∈ B := by
  simp [heard]

theorem heard_insert_self (own : Finset NodeId) (B : Finset (NodeId × NodeId)) (x b : NodeId) :
    heard own (insert (x, b) B) b = insert x (heard own B b) := by
  ext y
  simp only [mem_heard, Finset.mem_insert, Prod.mk.injEq, and_true]
  tauto

theorem heard_insert_of_ne (own : Finset NodeId) (B : Finset (NodeId × NodeId)) {x b c : NodeId}
    (h : c ≠ b) : heard own (insert (x, b) B) c = heard own B c := by
  ext y
  simp [mem_heard, h]

section Rounds

variable {ms : Members NodeId Operation Digest} {faulty : Finset NodeId} {p : NodeId} {k : ℤ}
  {q : PBFTRequest Operation} {s : Cluster NodeId Operation Digest}

/-- Node `b` takes a message of node `x` in the steps from `s` to `s'`. -/
structure Takes (ms : Members NodeId Operation Digest) (x b : NodeId)
    (pl : Payload Operation Digest)
    (s s' : Cluster NodeId Operation Digest) : Prop where
  self : s'.nodes b = (ms.act b (.receive () ⟨x, b, pl⟩) (s.nodes b)).1
  others : ∀ c, c ≠ b → s'.nodes c = s.nodes c
  kept : ∀ c y pl', ⟨y, c, pl'⟩ ∈ s.inbox c → (pl' ≠ pl ∨ (y, c) ≠ (x, b)) →
    ⟨y, c, pl'⟩ ∈ s'.inbox c
  sent : ∀ c pl', ⟨b, c, pl'⟩ ∈ (ms.act b (.receive () ⟨x, b, pl⟩) (s.nodes b)).2 →
    ⟨b, c, pl'⟩ ∈ s'.inbox c

section Takes

variable {x b : NodeId} {pl : Payload Operation Digest} {s' : Cluster NodeId Operation Digest}

theorem Takes.view (h : Takes ms x b pl s s') (hview : ∀ c, (s.nodes c).view = 0) (c : NodeId) :
    (s'.nodes c).view = 0 := by
  by_cases hcb : c = b
  · subst hcb
    rw [h.self]
    exact (acts_act (ms.config c) (s.nodes c) _).view.trans (hview c)
  · rw [h.others c hcb]
    exact hview c

theorem Takes.applied (h : Takes ms x b pl s s') (hpl : ∀ v k d, pl ≠ .commit v k d) (c : NodeId) :
    (s'.nodes c).applied = (s.nodes c).applied := by
  by_cases hcb : c = b
  · subst hcb
    rw [h.self]
    exact (acts_act (ms.config c) (s.nodes c) _).applied_of_not_commit hpl
  · rw [h.others c hcb]

end Takes

variable (ms) in
/-- A correct node can take any message of its inbox. -/
theorem exists_takes {x b : NodeId} {pl : Payload Operation Digest} (hb : b ∉ faulty)
    (hm : ⟨x, b, pl⟩ ∈ s.inbox b) :
    ∃ s', ReachesBy (Network.Event.Working faulty) (step ms faulty) s s' ∧
      Takes ms x b pl s s' := by
  obtain ⟨s', inbox₀, hreach, hmoves⟩ := Network.exists_receive ms.act hb hm ()
  refine ⟨s', hreach, hmoves.node_self, fun c hc => hmoves.node_of_ne hc, fun c y pl' hin hne => ?_,
    fun c pl' hout => hmoves.sent hout⟩
  refine hmoves.kept hin fun env m hinp hc he => ?_
  cases hinp
  cases he
  exact hne.elim (fun h => h rfl) fun h => h (by rw [hc])

/-! ## The proposal -/

/-- The primary has proposed, and the backups in `A` have taken the proposal. -/
structure Asked (ms : Members NodeId Operation Digest) (faulty : Finset NodeId) (p : NodeId) (k : ℤ)
    (q : PBFTRequest Operation) (A : Finset NodeId) (s : Cluster NodeId Operation Digest) :
    Prop where
  view : ∀ b, (s.nodes b).view = 0
  unapplied : ∀ b, k ∉ (s.nodes b).applied.map Prod.fst
  primary : entryOf s p k = some (ms.entry k q ∅ ∅)
  asked : ∀ b ∉ faulty, b ≠ p → b ∉ A → entryOf s b k = none ∧ ⟨p, b, ms.proposal k q⟩ ∈ s.inbox b
  promised : ∀ b ∈ A, b ≠ p ∧ entryOf s b k = some (ms.entry k q {b} ∅) ∧
    ∀ c, c ≠ b → ⟨b, c, ms.promise k q⟩ ∈ s.inbox c

/-- One more backup takes the proposal. -/
theorem Asked.take (hp : ∀ a, ms.primary a = p) {A : Finset NodeId}
    (h : Asked ms faulty p k q A s) {b : NodeId} (hb : b ∉ faulty) (hbp : b ≠ p) (hbA : b ∉ A) :
    ∃ s', ReachesBy (Network.Event.Working faulty) (step ms faulty) s s' ∧
      Asked ms faulty p k q (insert b A) s' := by
  obtain ⟨hnone, hmem⟩ := h.asked b hb hbp hbA
  obtain ⟨s', hreach, ht⟩ := exists_takes ms hb hmem
  have hact := act_proposal ms k q (hp b) (h.view b) hnone
  have hself := ht.self
  rw [hact] at hself
  have hproposal : ∀ v m d, ms.proposal k q ≠ .commit v m d := by
    intro v m d heq
    cases heq
  have hpromise : ms.promise k q ≠ ms.proposal k q := by
    intro heq
    cases heq
  refine ⟨s', hreach, ht.view h.view, fun c => ?_, ?_, fun c hc hcp hcA => ?_, fun c hcA => ?_⟩
  · rw [ht.applied hproposal]
    exact h.unapplied c
  · rw [entryOf, ht.others p (Ne.symm hbp)]
    exact h.primary
  · -- the other PRE-PREPAREs stay in their inboxes
    obtain ⟨hcb, hcA'⟩ := not_or.mp (mt Finset.mem_insert.mpr hcA)
    obtain ⟨hget, hin⟩ := h.asked c hc hcp hcA'
    rw [entryOf, ht.others c hcb]
    exact ⟨hget, ht.kept c p _ hin (Or.inr (by simp [hcb]))⟩
  · rcases Finset.mem_insert.mp hcA with rfl | hcA'
    · refine ⟨hbp, ?_, fun d hd => ?_⟩
      · rw [entryOf, hself]
        exact Dict.get?_set_self _ _ _
      · refine ht.sent d _ ?_
        rw [hact]
        exact Network.mem_broadcast.mpr ⟨rfl, rfl, (ms.mem_peers c d).mpr hd⟩
    · have hcb : c ≠ b := fun he => hbA (he ▸ hcA')
      obtain ⟨hcp, hget, hin⟩ := h.promised c hcA'
      rw [entryOf, ht.others c hcb]
      exact ⟨hcp, hget, fun d hd => ht.kept d c _ (hin d hd) (Or.inl hpromise)⟩

/-! ## The PREPAREs -/

/-- The receivers in the pairs of `B` have taken the PREPAREs of the senders. Whoever knows of
enough of them has sent its COMMIT. -/
structure Promising (ms : Members NodeId Operation Digest) (faulty : Finset NodeId) (p : NodeId)
    (k : ℤ) (q : PBFTRequest Operation) (B : Finset (NodeId × NodeId))
    (s : Cluster NodeId Operation Digest) : Prop where
  view : ∀ b, (s.nodes b).view = 0
  unapplied : ∀ b, k ∉ (s.nodes b).applied.map Prod.fst
  entry : ∀ b ∉ faulty, ∃ P C, entryOf s b k = some (ms.entry k q P C) ∧
    heard (({b} : Finset NodeId).erase p) B b ⊆ P ∧ C ⊆ {b} ∧
    ((∃ x, (x, b) ∈ B) → 2 * (ms.config b).f ≤ (heard (({b} : Finset NodeId).erase p) B b).card →
      b ∈ C) ∧
    (b ∈ C → ∀ c, c ≠ b → ⟨b, c, ms.vote k q⟩ ∈ s.inbox c)
  sent : ∀ x ∉ faulty, x ≠ p → ∀ b ∉ faulty, b ≠ x → (x, b) ∉ B →
    ⟨x, b, ms.promise k q⟩ ∈ s.inbox b

omit [DecidableEq Digest] in
/-- When all correct backups have taken the proposal, nobody has taken a PREPARE. -/
theorem Asked.promising {A : Finset NodeId} (h : Asked ms faulty p k q A s)
    (hA : ∀ b ∉ faulty, b ≠ p → b ∈ A) : Promising ms faulty p k q ∅ s := by
  refine ⟨h.view, h.unapplied, fun b hb => ?_, fun x hx hxp b _ hbx _ => ?_⟩
  · by_cases hbp : b = p
    · subst hbp
      exact ⟨∅, ∅, h.primary, by simp [heard], by simp, by simp, by simp⟩
    · obtain ⟨-, hget, -⟩ := h.promised b (hA b hb hbp)
      exact ⟨{b}, ∅, hget, by simp [heard, Ne.symm hbp], by simp, by simp, by simp⟩
  · obtain ⟨-, -, hin⟩ := h.promised x (hA x hx hxp)
    exact hin b hbx

/-- One more PREPARE is taken. -/
theorem Promising.take {B : Finset (NodeId × NodeId)} (h : Promising ms faulty p k q B s)
    {x b : NodeId} (hx : x ∉ faulty) (hxp : x ≠ p) (hb : b ∉ faulty) (hbx : b ≠ x)
    (hB : (x, b) ∉ B) :
    ∃ s', ReachesBy (Network.Event.Working faulty) (step ms faulty) s s' ∧
      Promising ms faulty p k q (insert (x, b) B) s' := by
  obtain ⟨P, C, hget, hP, hC, hdone, hvoted⟩ := h.entry b hb
  obtain ⟨s', hreach, ht⟩ := exists_takes ms hb (h.sent x hx hxp b hb hbx hB)
  have hxC : x ∉ C := fun hmem => hbx (Finset.mem_singleton.mp (hC hmem)).symm
  have hact := act_promise ms (b := b) k q (h.view b) hget hxC
  have hself := ht.self
  have hsent := ht.sent
  rw [hact] at hself hsent
  have hP' : heard (({b} : Finset NodeId).erase p) (insert (x, b) B) b ⊆ insert x P := by
    rw [heard_insert_self]
    exact Finset.insert_subset_insert x hP
  have hkept : ∀ c, c ≠ b → ⟨b, c, ms.vote k q⟩ ∈ s.inbox c → ⟨b, c, ms.vote k q⟩ ∈ s'.inbox c :=
    fun c _ hin => ht.kept c b _ hin (Or.inl nofun)
  refine ⟨s', hreach, ht.view h.view, fun c => ?_, fun c hc => ?_, fun y hy hyp c hc hcy hyB => ?_⟩
  · rw [ht.applied nofun]
    exact h.unapplied c
  · by_cases hcb : c = b
    · subst hcb
      by_cases hq : 2 * (ms.config c).f ≤ (insert x P).card
      · -- it sends its COMMIT
        rw [if_pos hq] at hself hsent
        refine ⟨insert x P, insert c C, ?_, hP', ?_, fun _ _ => Finset.mem_insert_self _ _,
          fun _ d hd => ?_⟩
        · rw [entryOf, hself]
          exact Dict.get?_set_self _ _ _
        · exact Finset.insert_subset (Finset.mem_singleton_self c) hC
        · exact hsent d _ (Network.mem_broadcast.mpr ⟨rfl, rfl, (ms.mem_peers c d).mpr hd⟩)
      · -- it waits for more PREPAREs
        rw [if_neg hq] at hself
        refine ⟨insert x P, C, ?_, hP', hC, fun _ hle => ?_, fun hmem d hd => ?_⟩
        · rw [entryOf, hself]
          exact Dict.get?_set_self _ _ _
        · exact absurd (hle.trans (Finset.card_le_card hP')) hq
        · exact hkept d hd (hvoted hmem d hd)
    · obtain ⟨P', C', hget', hP'', hC', hdone', hvoted'⟩ := h.entry c hc
      rw [heard_insert_of_ne _ _ hcb]
      refine ⟨P', C', ?_, hP'', hC', fun hex => hdone' ?_, fun hmem d hd => ?_⟩
      · rw [entryOf, ht.others c hcb]
        exact hget'
      · obtain ⟨y, hy⟩ := hex
        exact ⟨y, (Finset.mem_insert.mp hy).resolve_left (by simp [hcb])⟩
      · exact ht.kept d c _ (hvoted' hmem d hd) (Or.inl nofun)
  · -- the other PREPAREs stay in their inboxes
    obtain ⟨hne, hyB'⟩ := not_or.mp (mt Finset.mem_insert.mpr hyB)
    exact ht.kept c y _ (h.sent y hy hyp c hc hcy hyB') (Or.inr hne)

/-! ## The COMMITs -/

/-- The receivers in the pairs of `E` have taken the COMMITs of the senders. Whoever knows of enough
of them has committed the entry. -/
structure Committing (ms : Members NodeId Operation Digest) (faulty : Finset NodeId) (k : ℤ)
    (q : PBFTRequest Operation) (E : Finset (NodeId × NodeId))
    (s : Cluster NodeId Operation Digest) : Prop where
  entry : ∀ b ∉ faulty, ∃ e, Voting ms k q (heard {b} E b) (s.nodes b) e ∧
    ((∃ x, (x, b) ∈ E) → 2 * (ms.config b).f + 1 ≤ (heard {b} E b).card → e.committed = true)
  sent : ∀ x ∉ faulty, ∀ b ∉ faulty, b ≠ x → (x, b) ∉ E → ⟨x, b, ms.vote k q⟩ ∈ s.inbox b

omit [DecidableEq Digest] in
/-- When all PREPAREs are taken, everyone has sent its COMMIT and nobody has taken one. -/
theorem Promising.committing {B : Finset (NodeId × NodeId)} (h : Promising ms faulty p k q B s)
    (hB : ∀ b ∉ faulty, (∃ x, (x, b) ∈ B) ∧
      2 * (ms.config b).f ≤ (heard (({b} : Finset NodeId).erase p) B b).card) :
    Committing ms faulty k q ∅ s := by
  refine ⟨fun b hb => ?_, fun x hx b _ hbx _ => ?_⟩
  · obtain ⟨P, C, hget, -, -, hdone, -⟩ := h.entry b hb
    have hbC := hdone (hB b hb).1 (hB b hb).2
    refine ⟨_, ⟨hget, rfl, rfl, rfl, ?_, nofun, fun _ => h.unapplied b⟩, by simp⟩
    simpa [heard, Members.entry] using hbC
  · obtain ⟨P, C, -, -, -, hdone, hvoted⟩ := h.entry x hx
    exact hvoted (hdone (hB x hx).1 (hB x hx).2) b hbx

/-- One more COMMIT is taken. -/
theorem Committing.take {E : Finset (NodeId × NodeId)} (h : Committing ms faulty k q E s)
    {x b : NodeId} (hx : x ∉ faulty) (hb : b ∉ faulty) (hbx : b ≠ x) (hE : (x, b) ∉ E) :
    ∃ s', ReachesBy (Network.Event.Working faulty) (step ms faulty) s s' ∧
      Committing ms faulty k q (insert (x, b) E) s' := by
  obtain ⟨s', hreach, ht⟩ := exists_takes ms hb (h.sent x hx b hb hbx hE)
  refine ⟨s', hreach, fun c hc => ?_, fun y hy c hc hcy hyE => ?_⟩
  · by_cases hcb : c = b
    · subst hcb
      obtain ⟨e, hv, -⟩ := h.entry c hc
      obtain ⟨e', hv', hdone⟩ := hv.take x c
      rw [ht.self, heard_insert_self]
      exact ⟨e', hv', fun _ => hdone⟩
    · rw [ht.others c hcb, heard_insert_of_ne _ _ hcb]
      obtain ⟨e, hv, hdone⟩ := h.entry c hc
      refine ⟨e, hv, fun hex => hdone ?_⟩
      obtain ⟨y, hy⟩ := hex
      exact ⟨y, (Finset.mem_insert.mp hy).resolve_left (by simp [hcb])⟩
  · obtain ⟨hne, hyE'⟩ := not_or.mp (mt Finset.mem_insert.mpr hyE)
    exact ht.kept c y _ (h.sent y hy c hc hcy hyE') (Or.inr hne)

end Rounds

/-! ## All rounds -/

section

variable [Fintype NodeId] {ms : Members NodeId Operation Digest} {faulty : Finset NodeId}
  {p : NodeId} {k : ℤ} {q : PBFTRequest Operation} {s : Cluster NodeId Operation Digest}

/-- The pairs of different correct nodes whose first one is in `S`. -/
def pairs (faulty S : Finset NodeId) : Finset (NodeId × NodeId) :=
  (S ×ˢ Finset.univ).filter fun x => x.1 ∉ faulty ∧ x.2 ∉ faulty ∧ x.2 ≠ x.1

theorem mem_pairs {S : Finset NodeId} {x b : NodeId} :
    (x, b) ∈ pairs faulty S ↔ x ∈ S ∧ x ∉ faulty ∧ b ∉ faulty ∧ b ≠ x := by
  simp [pairs]

/-- With at most `f` faulty nodes of at least four, the correct ones are a quorum, and at least
three. -/
theorem card_correct (hn : 4 ≤ Fintype.card NodeId)
    (hf : faulty.card ≤ (Fintype.card NodeId - 1) / 3) :
    2 * ((Fintype.card NodeId - 1) / 3) + 1 ≤ (faultyᶜ).card ∧ 3 ≤ (faultyᶜ).card := by
  rw [Finset.card_compl]
  omega

/-- Node `b` hears of all correct backups in the second round. -/
theorem subset_heard_erase {b : NodeId} (hb : b ∉ faulty) : (faultyᶜ).erase p ⊆
    heard (({b} : Finset NodeId).erase p) (pairs faulty (Finset.univ.erase p)) b := by
  intro x hx
  obtain ⟨hxp, hx⟩ := Finset.mem_erase.mp hx
  rw [mem_heard, mem_pairs]
  by_cases hxb : x = b
  · simp [hxb ▸ hxp, hxb]
  · exact Or.inr ⟨by simp [hxp], Finset.mem_compl.mp hx, hb, Ne.symm hxb⟩

/-- Node `b` hears of all correct nodes in the third round. -/
theorem subset_heard {b : NodeId} (hb : b ∉ faulty) :
    faultyᶜ ⊆ heard {b} (pairs faulty Finset.univ) b := by
  intro x hx
  rw [mem_heard, mem_pairs]
  by_cases hxb : x = b
  · simp [hxb]
  · exact Or.inr ⟨Finset.mem_univ x, Finset.mem_compl.mp hx, hb, Ne.symm hxb⟩

/-- Node `b` hears from somebody else. -/
theorem exists_mem_pairs {S : Finset NodeId} (hS : 1 < (faultyᶜ ∩ S).card) {b : NodeId}
    (hb : b ∉ faulty) : ∃ x, (x, b) ∈ pairs faulty S := by
  obtain ⟨x, hx, hxb⟩ := Finset.exists_mem_ne hS b
  obtain ⟨hx, hxS⟩ := Finset.mem_inter.mp hx
  exact ⟨x, mem_pairs.mpr ⟨hxS, Finset.mem_compl.mp hx, hb, Ne.symm hxb⟩⟩

omit [Fintype NodeId] in
/-- A primary proposes a request under its next number. -/
theorem exists_asked (hsound : Sound ms faulty p s) (hp : ∀ a, ms.primary a = p)
    (hcorrect : p ∉ faulty) (hk : k = (s.nodes p).seqNum + 1) :
    ∃ s', ReachesBy (Network.Event.Working faulty) (step ms faulty) s s' ∧
      Asked ms faulty p k q ∅ s' := by
  -- an entry of any node comes from the primary, which has not used the number yet
  have hfree : ∀ b, entryOf s b k = none := by
    intro b
    cases hget : entryOf s b k with
    | none => rfl
    | some e =>
      obtain ⟨e₀, he₀, -, -⟩ := hsound.primary hcorrect b k e hget
      rw [hsound.fresh k (by omega)] at he₀
      cases he₀
  have hunapplied : ∀ b, k ∉ (s.nodes b).applied.map Prod.fst := by
    intro b hmem
    obtain ⟨x, hx, rfl⟩ := List.mem_map.mp hmem
    obtain ⟨e, he, -⟩ := hsound.applied b x hx
    rw [hfree b] at he
    cases he
  have hact := act_call ms k q (hp p) (hsound.view p) hk
  obtain ⟨s', hreach, hmoves⟩ := Network.exists_call (s := s) ms.act hcorrect q
  have hself := hmoves.node_self
  rw [hact] at hself
  refine ⟨s', hreach, fun b => ?_, fun b => ?_, ?_, fun b hb hbp _ => ⟨?_, ?_⟩, by simp⟩
  · by_cases hbp : b = p
    · subst hbp
      rw [hself]
      exact hsound.view b
    · rw [hmoves.node_of_ne hbp]
      exact hsound.view b
  · by_cases hbp : b = p
    · subst hbp
      rw [hself]
      exact hunapplied b
    · rw [hmoves.node_of_ne hbp]
      exact hunapplied b
  · rw [entryOf, hself]
    exact Dict.get?_set_self _ _ _
  · rw [entryOf, hmoves.node_of_ne hbp]
    exact hfree b
  · refine hmoves.sent (m := ⟨p, b, ms.proposal k q⟩) ?_
    rw [hact]
    exact Network.mem_broadcast.mpr ⟨rfl, rfl, (ms.mem_peers p b).mpr hbp⟩

/-- **Byzantine backups cannot stop a cluster.** With at least four nodes and at most `f` of them
faulty, not the primary, from every state of every run there are events after which every correct
node has applied a new request of the primary, under the primary's next number. In these the correct
nodes take calls and messages, and the faulty ones do nothing. -/
theorem served_anyway (hn : 4 ≤ Fintype.card NodeId)
    (hf : faulty.card ≤ (Fintype.card NodeId - 1) / 3) (hp : ∀ a, ms.primary a = p)
    (hcorrect : p ∉ faulty) (run : ClusterRun ms faulty) {i : ℕ} (hi : i ≤ run.length)
    (q : PBFTRequest Operation) :
    ∃ es s', (∀ e ∈ es, Network.Event.Working faulty e) ∧
      exec (step ms faulty) (run.state i) es = some s' ∧
        ∀ b ∉ faulty, (((run.state i).nodes p).seqNum + 1, q) ∈ (s'.nodes b).applied := by
  obtain ⟨hquorum, hthree⟩ := card_correct hn hf
  obtain ⟨s₀, hreach₀, hasked⟩ := exists_asked (q := q) (sound hp run i hi) hp hcorrect rfl
  generalize ((run.state i).nodes p).seqNum + 1 = k at hasked ⊢
  -- the proposal
  obtain ⟨s₁, hreach₁, hasked₁⟩ := ReachesBy.exists_forall (P := Asked ms faulty p k q)
    ((faultyᶜ).erase p) hasked (fun b A t hb hA h => by
      obtain ⟨hbp, hb⟩ := Finset.mem_erase.mp hb
      exact h.take hp (Finset.mem_compl.mp hb) hbp hA)
  have hpromising := hasked₁.promising fun b hb hbp =>
    Finset.mem_erase.mpr ⟨hbp, Finset.mem_compl.mpr hb⟩
  -- the PREPAREs
  obtain ⟨s₂, hreach₂, hpromising₂⟩ := ReachesBy.exists_forall (P := Promising ms faulty p k q)
    (pairs faulty (Finset.univ.erase p)) hpromising (fun x B t hx hB h => by
      obtain ⟨hxp, hx, hb, hbx⟩ := mem_pairs.mp hx
      exact h.take hx (Finset.ne_of_mem_erase hxp) hb hbx hB)
  have hbackups := Finset.card_erase_of_mem (Finset.mem_compl.mpr hcorrect)
  have hcommitting := hpromising₂.committing fun b hb => by
    refine ⟨exists_mem_pairs ?_ hb, ?_⟩
    · rw [Finset.inter_erase, Finset.inter_univ]
      omega
    · rw [ms.f_config]
      have := Finset.card_le_card (subset_heard_erase (p := p) hb)
      omega
  -- the COMMITs
  obtain ⟨s₃, hreach₃, hcommitting₃⟩ := ReachesBy.exists_forall (P := Committing ms faulty k q)
    (pairs faulty Finset.univ) hcommitting (fun x E t hx hE h => by
      obtain ⟨-, hx, hb, hbx⟩ := mem_pairs.mp hx
      exact h.take hx hb hbx hE)
  obtain ⟨es, hworking, hes⟩ := ((hreach₀.trans hreach₁).trans hreach₂).trans hreach₃
  refine ⟨es, s₃, hworking, hes, fun b hb => ?_⟩
  obtain ⟨e, hvoting, hdone⟩ := hcommitting₃.entry b hb
  refine hvoting.applied (hdone (exists_mem_pairs ?_ hb) ?_)
  · rw [Finset.inter_univ]
    omega
  · rw [ms.f_config]
    have := Finset.card_le_card (subset_heard hb)
    omega

end

/-- A proposal gets lost on its way to node 1, and node 3 forges a vote for another request. -/
def harassed : ClusterRun (plainCluster 4) {3} :=
  Run.ofEvents _ _
    [.call 0 (request 1), .drop 1 0, .forge ⟨3, 2, .commit 0 1 (request 2)⟩, .deliver 2 0 ()]
    (.drop 0 0) (by decide +kernel)

theorem served_anyway_harassed :
    ∃ es s', (∀ e ∈ es, Network.Event.Working {3} e) ∧
      exec (step (plainCluster 4) {3}) (harassed.state 4) es = some s' ∧
        ∀ b ∉ ({3} : Finset (Fin 4)), (2, request 3) ∈ (s'.nodes b).applied := by
  have hprimary : ∀ a, (plainCluster 4).primary a = 0 := by decide +kernel
  have hseq : ((harassed.state 4).nodes 0).seqNum = 1 := by decide +kernel
  have h := served_anyway (by decide) (by decide) hprimary (by decide) harassed (i := 4) (by decide)
    (request 3)
  rwa [hseq] at h

end Pbft
