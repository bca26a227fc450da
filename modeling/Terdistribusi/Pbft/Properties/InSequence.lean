import Terdistribusi.Pbft.Properties.Order

/-!
# Fault-free runs in order

Nothing is faulty or lost, and every inbox is read from its front. `InSequence` is the invariant of
such a run: a node sees each kind of message in the order of the numbers (`closed`), whatever a
correct node says every node gets to know (`told`), and nothing is read too early (`ready`).

From this a node never misses a threshold: its entry has `2f` PREPAREs only with its own promise
(`promised`), others' COMMITs only after it (`first`), and `2f + 1` COMMITs only when it is
committed (`committed`).
-/

namespace Pbft

open Infra

variable {NodeId Operation Digest : Type} [LinearOrder NodeId] [DecidableEq Digest]

/-- The numbers `1, …, m`. -/
def numbers (m : ℕ) : List ℤ := (List.range m).map fun j : ℕ => (j : ℤ) + 1

theorem mem_numbers {m : ℕ} {k : ℤ} : k ∈ numbers m ↔ 1 ≤ k ∧ k ≤ m := by
  unfold numbers
  rw [List.mem_map]
  constructor
  · rintro ⟨j, hj, rfl⟩
    have hj := List.mem_range.mp hj
    omega
  · rintro ⟨hpos, hle⟩
    exact ⟨(k - 1).toNat, List.mem_range.mpr (by omega), by omega⟩

theorem numbers_succ (m : ℕ) : numbers (m + 1) = numbers m ++ [(m : ℤ) + 1] := by
  simp [numbers, List.range_succ]

/-- What holds of node `a`. -/
structure Ordered (f : ℕ) (p a : NodeId) (n : PBFTNode NodeId Operation Digest) : Prop where
  pos : ∀ k, Seen n (.proposal, k) → 1 ≤ k
  closed : ∀ q, Seen n q → ∀ j, 1 ≤ j → j < q.2 → Seen n (q.1, j)
  received : ∀ k e, n.log.get? k = some e → e.prePrepareReceived = true
  self : a ≠ p → ∀ k, Seen n (.proposal, k) → Seen n (.prepare a, k)
  others : ∀ k, ¬ Seen n (.prepare p, k)
  promised : ∀ k e, n.log.get? k = some e → 2 * f ≤ e.prepares.card → a ∈ e.commits
  counted : ∀ k x, Seen n (.commit x, k) → x ≠ p → Seen n (.prepare x, k)
  first : ∀ k x, Seen n (.commit x, k) → Seen n (.commit a, k)
  committed : ∀ k e, n.log.get? k = some e → 2 * f + 1 ≤ e.commits.card → e.committed = true
  executed : ∀ k e, n.log.get? k = some e → e.committed = true → k ∈ n.applied.map Prod.fst
  applied : n.applied.map Prod.fst = numbers n.applied.length

/-- What holds of the whole cluster with primary `p`. -/
structure InSequence (f : ℕ) (p : NodeId) (s : Cluster NodeId Operation Digest) : Prop where
  ordered : ∀ a, Ordered f p a (s.nodes a)
  nonneg : 0 ≤ (s.nodes p).seqNum
  full : ∀ j, 1 ≤ j → j ≤ (s.nodes p).seqNum → Seen (s.nodes p) (.proposal, j)
  honest : ∀ a q, Seen (s.nodes a) q → Seen (s.nodes (owner p q.1)) q
  told : ∀ q, Seen (s.nodes (owner p q.1)) q → ∀ a, Network.Known label (fun _ => Seen) s a q
  ready : Network.Ready label (fun _ => Seen) (fun _ m K => RestsOn f p K (label m)) s

/-- What senders have seen of their own messages. -/
def Told (p : NodeId) (s : Cluster NodeId Operation Digest) : Set (Label NodeId) :=
  { q | Seen (s.nodes (owner p q.1)) q }

section Step

variable {ms : Members NodeId Operation Digest} {p : NodeId} {f : ℕ}
  {s s' : Cluster NodeId Operation Digest} {a : NodeId}
  {inp : Input NodeId (PBFTRequest Operation) Unit (Payload Operation Digest)}
  {inbox₀ : NodeId → List (Message NodeId (Payload Operation Digest))}

theorem acts_inOrder (hacts : Network.ActsInOrder ms.act s s' a inp inbox₀) :
    Acts (ms.config a) (s.nodes a) inp (s'.nodes a) (ms.act a inp (s.nodes a)).2 :=
  acts_self hacts.acts

/-- The message that is read rests on what the node has seen. -/
theorem InSequence.front (hq : InSequence f p s)
    (hacts : Network.ActsInOrder ms.act s s' a inp inbox₀) {env : Unit}
    {m : Message NodeId (Payload Operation Digest)} (hinp : inp = .receive env m) :
    RestsOn f p { q | Seen (s.nodes a) q } (label m) :=
  hq.ready.front (hacts.received env m hinp).1

/-- What is read has been seen by its sender, who is its owner. -/
theorem Sound.read (h : Sound ms ∅ p s) (hacts : Network.ActsInOrder ms.act s s' a inp inbox₀)
    {env : Unit} {m : Message NodeId (Payload Operation Digest)} (hinp : inp = .receive env m) :
    a ≠ m.senderId ∧ owner p (label m).1 = m.senderId ∧ Seen (s.nodes m.senderId) (label m) := by
  obtain ⟨hne, hbacked⟩ :=
    h.receives hacts.acts ⟨env, m, hinp, rfl, rfl⟩ (Finset.notMem_empty m.senderId)
  exact ⟨hne, hbacked.seen⟩

/-- What a node newly sees it has read, or it tells all others. -/
theorem seen_cases (hacts : Network.ActsInOrder ms.act s s' a inp inbox₀) {q : Label NodeId}
    (hseen : Seen (s'.nodes a) q) :
    Seen (s.nodes a) q ∨ (∃ env m, inp = .receive env m ∧ label m = q) ∨
      ∃ payload, (ms.act a inp (s.nodes a)).2 = Network.broadcast a (ms.peers a) payload ∧
        Behind (ms.config a) (s.nodes a) inp (s'.nodes a) payload ∧ labelOf a payload = q := by
  rcases (acts_inOrder hacts).broadcasts with ⟨-, hcases⟩ | ⟨payload, houts, hbehind, hcases⟩
  · exact (hcases q hseen).imp_right Or.inl
  · exact (hcases q hseen).imp_right fun hnew => hnew.imp_right fun hlabel =>
      ⟨payload, houts, hbehind, hlabel⟩

/-- A node that reads a PREPARE sees no other new one. -/
theorem prepare_of_read (hacts : Network.ActsInOrder ms.act s s' a inp inbox₀) {env : Unit}
    {m : Message NodeId (Payload Operation Digest)} (hinp : inp = .receive env m) {v : ℕ} {k : ℤ}
    {d : Digest} (hm : m.payload = .prepare v k d) {y : NodeId}
    (hseen : Seen (s'.nodes a) (.prepare y, k)) :
    Seen (s.nodes a) (.prepare y, k) ∨ y = m.senderId := by
  rcases seen_cases hacts hseen with hold | ⟨env', m', hinp', hlabel⟩ | ⟨payload, -, hb, hlabel⟩
  · exact Or.inl hold
  · rw [hinp] at hinp'
    cases hinp'
    rw [label, hm] at hlabel
    cases hlabel
    exact Or.inr rfl
  · cases payload with
    | prepare =>
      -- it would answer a proposal
      obtain ⟨-, r, -, ⟨env', m', hinp', -, hm'⟩, -⟩ := hb
      rw [hinp] at hinp'
      cases hinp'
      rw [hm] at hm'
      cases hm'
    | prePrepare | commit => cases hlabel

omit [DecidableEq Digest] [LinearOrder NodeId] in
/-- A node promises a number for which it has `2f` PREPAREs. -/
theorem Ordered.promised_of_subset [LinearOrder NodeId] {n : PBFTNode NodeId Operation Digest}
    (h : Ordered f p a n) {k : ℤ} {Q : Finset NodeId} (hcard : 2 * f ≤ Q.card)
    (hproposal : Seen n (.proposal, k)) (hQ : ∀ y ∈ Q, Seen n (.prepare y, k)) :
    Seen n (.commit a, k) := by
  obtain ⟨e, he, -⟩ := hproposal
  refine ⟨e, he, h.promised k e he (hcard.trans (Finset.card_le_card fun y hy => ?_))⟩
  obtain ⟨e', he', hshows⟩ := hQ y hy
  obtain rfl := Option.some.inj (he.symm.trans he')
  exact hshows

variable (h : Sound ms ∅ p s) (hq : InSequence f p s) (hp : ∀ a, ms.primary a = p)
  (hacts : Network.ActsInOrder ms.act s s' a inp inbox₀)

include h hq hp hacts

/-- No message that is read is ignored. -/
theorem InSequence.not_ignores {env : Unit} {m : Message NodeId (Payload Operation Digest)}
    (hinp : inp = .receive env m) : ¬ Ignores (ms.config a) (s.nodes a) m := by
  have hfront := hq.front hacts hinp
  obtain ⟨-, hbacked⟩ :=
    h.receives hacts.acts ⟨env, m, hinp, rfl, rfl⟩ (Finset.notMem_empty m.senderId)
  -- the digest of a message is that of the primary's entry, as is the digest of the node's own
  have hdigests : ∀ k d, Agreed s p k d → Seen (s.nodes a) (.proposal, k) →
      ¬ ∀ e, (s.nodes a).log.get? k = some e → e.digest ≠ d := by
    rintro k d ⟨e₀, he₀, rfl⟩ ⟨e, he, -⟩ hall
    obtain ⟨e₁, he₁, hd, -⟩ := h.primary (Finset.notMem_empty p) a k e he
    obtain rfl := Option.some.inj (he₀.symm.trans he₁)
    exact hall e he hd.symm
  unfold Ignores
  rw [label] at hfront
  cases hm : m.payload with
  | prePrepare v k d r =>
    rw [hm] at hbacked
    obtain ⟨rfl, hsender, e, he, rfl, rfl⟩ := hbacked
    refine not_not.mpr ⟨(h.view a).symm, ?_, h.digest _ k e he⟩
    rw [hsender, h.primary_eq hp a]
  | prepare v k d =>
    rw [hm] at hbacked hfront
    exact hdigests k d (hbacked.2.1 (Finset.notMem_empty p)) hfront.2.2
  | commit v k d =>
    rw [hm] at hbacked hfront
    obtain ⟨-, e, he, rfl, -⟩ := hbacked
    obtain ⟨e₀, he₀, hd, -⟩ := h.primary (Finset.notMem_empty p) _ k e he
    exact hdigests k _ ⟨e₀, he₀, hd⟩ hfront.2.2.1

/-- A node sees what it reads, and forgets nothing. -/
theorem InSequence.learns :
    Network.Learns label (fun _ => Seen) ms.act (s.nodes a) a inp := by
  have hext := h.extends hp hacts.acts
  constructor
  · intro q hseen
    have hsucc := hseen.extends hext
    rwa [hacts.nodes, Function.update_self] at hsucc
  · rintro env m rfl
    have hsucc := (acts_inOrder hacts).seen_receive (hq.not_ignores h hp hacts rfl)
    rwa [hacts.nodes, Function.update_self] at hsucc

/-- What a node broadcasts is its own message, and rests on what all nodes have said. -/
theorem InSequence.restsOn (hf : ∀ a, (ms.config a).f = f)
    {payload : Payload Operation Digest}
    (hbehind : Behind (ms.config a) (s.nodes a) inp (s'.nodes a) payload) :
    owner p (labelOf a payload).1 = a ∧ RestsOn f p (Told p s) (labelOf a payload) := by
  have hordered := hq.ordered a
  cases payload with
  | prePrepare v k d r =>
    obtain ⟨rfl, hself, -, hk, -⟩ := hbehind
    obtain rfl : p = a := (h.primary_eq hp a).symm.trans hself
    refine ⟨rfl, ?_, fun j hj hjk => hq.full j hj ?_, trivial⟩
    · have hnonneg := hq.nonneg
      show 1 ≤ k
      omega
    · have hjk : j < k := hjk
      omega
  | prepare v k d =>
    obtain ⟨rfl, r, -, hr, -⟩ := hbehind
    rw [h.primary_eq hp a] at hr
    obtain ⟨env, m, hinp, hsender, hm⟩ := hr
    obtain ⟨hne, -, hseen⟩ := h.read hacts hinp
    obtain ⟨hpos, hearlier, -⟩ := hq.front hacts hinp
    rw [label, hm] at hpos hearlier hseen
    rw [hsender] at hne hseen
    exact ⟨rfl, hpos, fun j hj hjk => hordered.self hne j (hearlier j hj hjk), hseen⟩
  | commit v k d =>
    obtain ⟨rfl, e', he', -, hquorum, -, x, v', env, m, hinp, hsender, hm⟩ := hbehind
    rw [hf a] at hquorum
    obtain ⟨-, -, hseen⟩ := h.read hacts hinp
    obtain ⟨hpos, hearlier, hproposal⟩ := hq.front hacts hinp
    rw [label, hm] at hpos hearlier hproposal hseen
    rw [hsender] at hseen hearlier
    -- the PREPAREs behind the promise are old, but for the one that is read
    have hprepares : ∀ y ∈ e'.prepares, Seen (s.nodes a) (.prepare y, k) ∨ y = x := fun y hy =>
      hsender ▸ prepare_of_read hacts hinp hm ⟨e', he', hy⟩
    refine ⟨rfl, hpos, fun j hj hjk => ?_, ?_, fun hne => hordered.self hne k hproposal,
      e'.prepares, hquorum, fun y hy => ?_⟩
    · refine hordered.promised_of_subset hquorum (hordered.closed _ hproposal j hj hjk)
        fun y hy => ?_
      rcases hprepares y hy with hold | rfl
      · exact hordered.closed _ hold j hj hjk
      · exact hearlier j hj hjk
    · exact hq.honest a _ hproposal
    · rcases hprepares y hy with hold | rfl
      · exact hq.honest a _ hold
      · exact hseen

variable (hf : ∀ a, (ms.config a).f = f)

include hf

/-! ### The acting node -/

theorem InSequence.pos_succ : ∀ k, Seen (s'.nodes a) (.proposal, k) → 1 ≤ k := by
  intro k hseen
  rcases seen_cases hacts hseen with hold | ⟨env, m, hinp, hlabel⟩ | ⟨payload, -, hbehind, hlabel⟩
  · exact (hq.ordered a).pos k hold
  · have hpos := (hq.front hacts hinp).1
    rwa [hlabel] at hpos
  · have hpos := (hq.restsOn h hp hacts hf hbehind).2.1
    rwa [hlabel] at hpos

theorem InSequence.closed_succ :
    ∀ q, Seen (s'.nodes a) q → ∀ j, 1 ≤ j → j < q.2 → Seen (s'.nodes a) (q.1, j) := by
  intro q hseen j hj hjq
  refine Seen.extends (h.extends hp hacts.acts) ?_
  rcases seen_cases hacts hseen with hold | ⟨env, m, hinp, rfl⟩ | ⟨payload, -, hbehind, rfl⟩
  · exact (hq.ordered a).closed q hold j hj hjq
  · exact (hq.front hacts hinp).2.1 j hj hjq
  · obtain ⟨howner, -, hearlier, -⟩ := hq.restsOn h hp hacts hf hbehind
    have htold : Seen (s.nodes (owner p (labelOf a payload).1)) ((labelOf a payload).1, j) :=
      hearlier j hj hjq
    rwa [howner] at htold

omit h hq hp hf in
theorem received_succ (hordered : Ordered f p a (s.nodes a)) :
    ∀ k e', (s'.nodes a).log.get? k = some e' → e'.prePrepareReceived = true := by
  intro k e' he'
  rcases (acts_inOrder hacts).entry he' with ⟨e, he, hchanged⟩ | hfresh
  · exact hchanged.received (hordered.received k e he)
  · exact hfresh.received

omit hf in
theorem InSequence.self_succ (hap : a ≠ p) :
    ∀ k, Seen (s'.nodes a) (.proposal, k) → Seen (s'.nodes a) (.prepare a, k) := by
  rintro k ⟨e', he', -⟩
  rcases (acts_inOrder hacts).entry he' with ⟨e, he, -⟩ | hfresh
  · exact ((hq.ordered a).self hap k ⟨e, he, trivial⟩).extends (h.extends hp hacts.acts)
  · refine ⟨e', he', ?_⟩
    rcases hfresh.origin with ⟨-, -, hself, -⟩ | ⟨-, -, hprepares⟩
    · exact absurd (hself.symm.trans (h.primary_eq hp a)) hap
    · show a ∈ e'.prepares
      rw [hprepares]
      exact Finset.mem_singleton_self a

omit hf in
theorem InSequence.others_succ : ∀ k, ¬ Seen (s'.nodes a) (.prepare p, k) := by
  intro k hseen
  rcases seen_cases hacts hseen with hold | ⟨env, m, hinp, hlabel⟩ | ⟨payload, -, hbehind, hlabel⟩
  · exact (hq.ordered a).others k hold
  · obtain ⟨-, howner, hsender⟩ := h.read hacts hinp
    rw [hlabel] at howner hsender
    rw [← howner] at hsender
    exact (hq.ordered p).others k hsender
  · -- the primary does not receive its own proposal
    cases payload with
    | prepare v k' d =>
      obtain ⟨rfl, r, -, hr, -⟩ := hbehind
      rw [h.primary_eq hp a] at hr
      cases hlabel
      exact (h.receives hacts.acts hr (Finset.notMem_empty p)).1 rfl
    | prePrepare | commit => cases hlabel

theorem InSequence.counted_succ : ∀ k x, Seen (s'.nodes a) (.commit x, k) → x ≠ p →
    Seen (s'.nodes a) (.prepare x, k) := by
  intro k x hseen hxp
  have hext := h.extends hp hacts.acts
  rcases seen_cases hacts hseen with hold | ⟨env, m, hinp, hlabel⟩ | ⟨payload, -, hbehind, hlabel⟩
  · exact ((hq.ordered a).counted k x hold hxp).extends hext
  · have hfront := hq.front hacts hinp
    rw [hlabel] at hfront
    exact Seen.extends hext (hfront.2.2.2.1 hxp)
  · cases payload with
    | commit v k' d =>
      obtain ⟨-, hrests⟩ := hq.restsOn h hp hacts hf hbehind
      cases hlabel
      exact Seen.extends hext (hrests.2.2.2.1 hxp)
    | prePrepare | prepare => cases hlabel

omit hf in
theorem InSequence.first_succ :
    ∀ k x, Seen (s'.nodes a) (.commit x, k) → Seen (s'.nodes a) (.commit a, k) := by
  intro k x hseen
  have hext := h.extends hp hacts.acts
  rcases seen_cases hacts hseen with hold | ⟨env, m, hinp, hlabel⟩ | ⟨payload, -, hbehind, hlabel⟩
  · exact ((hq.ordered a).first k x hold).extends hext
  · have hfront := hq.front hacts hinp
    rw [hlabel] at hfront
    obtain ⟨-, -, hproposal, -, Q, hcard, hQ⟩ := hfront
    exact ((hq.ordered a).promised_of_subset hcard hproposal hQ).extends hext
  · cases payload with
    | commit v k' d =>
      cases hlabel
      exact hseen
    | prePrepare | prepare => cases hlabel

/-- A node that has `2f` PREPAREs has promised. -/
theorem InSequence.promised_succ (hpos : 0 < f) : ∀ k e', (s'.nodes a).log.get? k = some e' →
    2 * f ≤ e'.prepares.card → a ∈ e'.commits := by
  intro k e' he' hquorum
  have hordered := hq.ordered a
  rcases (acts_inOrder hacts).promised_cases hordered.received he' (by rwa [hf a]) with
    hself | hsingle | ⟨e, he, hcommits, hcases⟩
  · exact hself
  · have hcard := Finset.card_le_card hsingle
    rw [Finset.card_singleton] at hcard
    omega
  · refine hcommits (hordered.promised k e he (hquorum.trans (Finset.card_le_card ?_)))
    rcases hcases with hself | ⟨y, hy, hinsert, env, m, hinp, hlabel⟩
    · intro x hx
      rcases Finset.mem_insert.mp (hself hx) with hxa | hx'
      · -- the node's own PREPARE was there, as the primary has none
        obtain rfl : x = a := hxa
        by_cases hxp : x = p
        · subst hxp
          exact absurd ⟨e', he', hx⟩ (hq.others_succ h hp hacts k)
        · obtain ⟨e₁, he₁, hshows⟩ := hordered.self hxp k ⟨e, he, trivial⟩
          obtain rfl := Option.some.inj (he.symm.trans he₁)
          exact hshows
      · exact hx'
    · obtain ⟨-, howner, hsender⟩ := h.read hacts hinp
      rw [hlabel] at howner hsender
      have hyp : y ≠ p := by
        rintro rfl
        rw [← howner] at hsender
        exact (hq.ordered y).others k hsender
      obtain ⟨e₁, he₁, hshows⟩ := hordered.counted k y ⟨e, he, hy⟩ hyp
      obtain rfl := Option.some.inj (he.symm.trans he₁)
      rw [hinsert, Finset.insert_eq_of_mem hshows]

omit h hp in
/-- A node that has `2f + 1` COMMITs has committed. -/
theorem InSequence.committed_succ (hpos : 0 < f) : ∀ k e', (s'.nodes a).log.get? k = some e' →
    2 * f + 1 ≤ e'.commits.card → e'.committed = true := by
  intro k e' he' hquorum
  have hordered := hq.ordered a
  rcases (acts_inOrder hacts).committed_cases he' (by rwa [hf a]) with
    hcommitted | ⟨e, he, hsame, hsubset⟩
  · exact hcommitted
  · rw [← hsame]
    by_cases hself : a ∈ e.commits
    · refine hordered.committed k e he (hquorum.trans (Finset.card_le_card ?_))
      rwa [show insert (ms.config a).nodeId e.commits = e.commits from
        Finset.insert_eq_of_mem hself] at hsubset
    · -- without its own promise the node had no COMMIT
      have hempty : e.commits = ∅ := by
        by_contra hne
        obtain ⟨x, hx⟩ := Finset.nonempty_iff_ne_empty.mpr hne
        obtain ⟨e₁, he₁, hshows⟩ := hordered.first k x ⟨e, he, hx⟩
        obtain rfl := Option.some.inj (he.symm.trans he₁)
        exact hself hshows
      rw [hempty] at hsubset
      have hcard := Finset.card_le_card hsubset
      rw [insert_empty_eq, Finset.card_singleton] at hcard
      omega

omit hp hf in
theorem InSequence.executed_succ : ∀ k e', (s'.nodes a).log.get? k = some e' →
    e'.committed = true → k ∈ (s'.nodes a).applied.map Prod.fst := by
  intro k e' he' hcommitted
  have hself := acts_inOrder hacts
  rcases hself.applied_of_committed he' hcommitted with ⟨e, he, hc⟩ | happlied
  · exact hself.applied_mono ((hq.ordered a).executed k e he hc)
  · rwa [h.seqNum_succ hacts.acts a k e' he'] at happlied

/-- The numbers are applied one after the other. -/
theorem InSequence.applied_succ (hpos : 0 < f) :
    (s'.nodes a).applied.map Prod.fst = numbers (s'.nodes a).applied.length := by
  have hordered := hq.ordered a
  rcases (acts_inOrder hacts).applied with heq | ⟨k, e, he, hc, hquorum, hnot, heq⟩
  · rw [heq]
    exact hordered.applied
  · rw [h.seqNum_succ hacts.acts a k e he] at hnot heq
    rw [hf a] at hquorum
    have hnum : k = ((s.nodes a).applied.length : ℤ) + 1 := by
      have hk := hq.pos_succ h hp hacts hf k ⟨e, he, trivial⟩
      rw [hordered.applied, mem_numbers] at hnot
      by_contra hne
      have hgt : ((s.nodes a).applied.length : ℤ) + 1 < k := by omega
      -- the number before would be committed, and applied
      have hbefore : ∀ x ∈ e.commits,
          Seen (s'.nodes a) (.commit x, ((s.nodes a).applied.length : ℤ) + 1) := fun x hx =>
        hq.closed_succ h hp hacts hf (.commit x, k) ⟨e, he, hx⟩ _ (by omega) hgt
      obtain ⟨e₁, he₁, -⟩ :=
        hq.closed_succ h hp hacts hf (.proposal, k) ⟨e, he, trivial⟩ _ (by omega) hgt
      have hquorum₁ : 2 * f + 1 ≤ e₁.commits.card := by
        refine hquorum.trans (Finset.card_le_card fun x hx => ?_)
        obtain ⟨e₂, he₂, hshows⟩ := hbefore x hx
        obtain rfl := Option.some.inj (he₁.symm.trans he₂)
        exact hshows
      have hmem := hq.executed_succ h hacts _ e₁ he₁
        (hq.committed_succ hacts hf hpos _ e₁ he₁ hquorum₁)
      rw [heq, List.map_append, hordered.applied, List.mem_append, mem_numbers] at hmem
      rcases hmem with ⟨-, hle⟩ | hmem
      · omega
      · exact hgt.ne (List.mem_singleton.mp hmem)
    rw [heq, List.map_append, hordered.applied, List.length_append, List.length_singleton,
      numbers_succ, List.map_singleton, hnum]

theorem InSequence.ordered_succ (hpos : 0 < f) : ∀ b, Ordered f p b (s'.nodes b) := by
  intro b
  by_cases hb : b = a
  · subst hb
    exact {
      pos := hq.pos_succ h hp hacts hf
      closed := hq.closed_succ h hp hacts hf
      received := received_succ hacts (hq.ordered b)
      self := hq.self_succ h hp hacts
      others := hq.others_succ h hp hacts
      promised := hq.promised_succ h hp hacts hf hpos
      counted := hq.counted_succ h hp hacts hf
      first := hq.first_succ h hp hacts
      committed := hq.committed_succ hacts hf hpos
      executed := hq.executed_succ h hacts
      applied := hq.applied_succ h hp hacts hf hpos }
  · rw [nodes_of_ne hacts.acts hb]
    exact hq.ordered b

/-! ### The cluster -/

omit h hq hp hf in
/-- The numbers of the primary grow one by one, each with an entry. -/
theorem seqNum_cases_succ : (s'.nodes p).seqNum = (s.nodes p).seqNum ∨
    (s'.nodes p).seqNum = (s.nodes p).seqNum + 1 ∧
      Seen (s'.nodes p) (.proposal, (s'.nodes p).seqNum) := by
  by_cases hpa : p = a
  · subst hpa
    rcases (acts_inOrder hacts).seqNum_cases with ⟨hsame, -⟩ | ⟨hnext, -, -, -, e, he, -⟩
    · exact Or.inl hsame
    · exact Or.inr ⟨hnext, e, he, trivial⟩
  · rw [nodes_of_ne hacts.acts hpa]
    exact Or.inl rfl

omit h hp hf in
theorem InSequence.nonneg_succ : 0 ≤ (s'.nodes p).seqNum := by
  have hnonneg := hq.nonneg
  rcases seqNum_cases_succ (p := p) hacts with hsame | ⟨hnext, -⟩
  · omega
  · omega

omit hf in
theorem InSequence.full_succ :
    ∀ j, 1 ≤ j → j ≤ (s'.nodes p).seqNum → Seen (s'.nodes p) (.proposal, j) := by
  intro j hj hjle
  have hold : j ≤ (s.nodes p).seqNum → Seen (s'.nodes p) (.proposal, j) :=
    fun hle => (hq.full j hj hle).extends (h.extends hp hacts.acts)
  rcases seqNum_cases_succ (p := p) hacts with hsame | ⟨hnext, hseen⟩
  · exact hold (by omega)
  · by_cases hle : j ≤ (s.nodes p).seqNum
    · exact hold hle
    · rwa [show j = (s'.nodes p).seqNum by omega]

theorem InSequence.honest_succ :
    ∀ b q, Seen (s'.nodes b) q → Seen (s'.nodes (owner p q.1)) q := by
  intro b q hseen
  have hext := h.extends hp hacts.acts
  by_cases hb : b = a
  · subst hb
    rcases seen_cases hacts hseen with hold | ⟨env, m, hinp, rfl⟩ | ⟨payload, -, hbehind, rfl⟩
    · exact (hq.honest b q hold).extends hext
    · obtain ⟨-, howner, hsender⟩ := h.read hacts hinp
      rw [howner]
      exact hsender.extends hext
    · rwa [(hq.restsOn h hp hacts hf hbehind).1]
  · rw [nodes_of_ne hacts.acts hb] at hseen
    exact (hq.honest b q hseen).extends hext

omit hf in
theorem InSequence.told_succ : ∀ q, Seen (s'.nodes (owner p q.1)) q →
    ∀ b, Network.Known label (fun _ => Seen) s' b q := by
  intro q hseen b
  have hold : Seen (s.nodes (owner p q.1)) q → Network.Known label (fun _ => Seen) s' b q :=
    fun hs => (hq.told q hs b).succ hacts (hq.learns h hp hacts)
  by_cases howner : owner p q.1 = a
  · rw [howner] at hseen hold
    rcases seen_cases hacts hseen with hs | ⟨env, m, hinp, rfl⟩ | ⟨payload, houts, -, hlabel⟩
    · exact hold hs
    · obtain ⟨hne, hsender, -⟩ := h.read hacts hinp
      exact absurd (howner.symm.trans hsender) hne
    · by_cases hb : b = a
      · subst hb
        exact Or.inl hseen
      · -- it is broadcast in this step
        refine Or.inr ?_
        rw [hacts.inbox, houts, Network.filter_broadcast a b payload (ms.nodup_peers a),
          if_pos ((ms.mem_peers a b).mpr hb), List.map_append]
        exact List.mem_append_right _ (List.mem_singleton.mpr hlabel.symm)
  · rw [nodes_of_ne hacts.acts howner] at hseen
    exact hold hseen

theorem InSequence.ready_succ :
    Network.Ready label (fun _ => Seen) (fun _ m K => RestsOn f p K (label m)) s' := by
  refine Network.Ready.succ hacts (hq.learns h hp hacts) hq.ready
    (fun b m K K' hK hm => hm.mono hK) (fun b l₁ m l₂ hsplit => ?_)
  have hout : m ∈ (ms.act a inp (s.nodes a)).2 := by
    have hmem : m ∈ (ms.act a inp (s.nodes a)).2.filter fun m => m.receiverId = b := by
      rw [hsplit]
      exact List.mem_append_right _ List.mem_cons_self
    exact List.mem_of_mem_filter hmem
  obtain ⟨hsender, -, hbehind⟩ := (acts_inOrder hacts).sends hout
  have hsender : m.senderId = a := hsender
  rw [label, hsender]
  exact (hq.restsOn h hp hacts hf hbehind).2.mono fun q htold => Or.inl (hq.told q htold b)

theorem InSequence.acts (hpos : 0 < f) : InSequence f p s' where
  ordered := hq.ordered_succ h hp hacts hf hpos
  nonneg := hq.nonneg_succ hacts
  full := hq.full_succ h hp hacts
  honest := hq.honest_succ h hp hacts hf
  told := hq.told_succ h hp hacts
  ready := hq.ready_succ h hp hacts hf

end Step

omit [LinearOrder NodeId] [DecidableEq Digest] in
theorem InSequence.initial (f : ℕ) (p : NodeId) :
    InSequence f p (Cluster.initial : Cluster NodeId Operation Digest) := by
  have hnone : ∀ q, ¬ Seen ({} : PBFTNode NodeId Operation Digest) q := by
    rintro q ⟨e, he, -⟩
    cases he
  refine ⟨fun a => ?_, le_refl _, fun j hj hjle => ?_, fun a q hs => absurd hs (hnone q),
    fun q hs => absurd hs (hnone q), fun a l₁ m l₂ hm => ?_⟩
  · exact {
      pos := fun k hs => absurd hs (hnone _)
      closed := fun q hs => absurd hs (hnone q)
      received := fun k e he => by cases he
      self := fun _ k hs => absurd hs (hnone _)
      others := fun k => hnone _
      promised := fun k e he => by cases he
      counted := fun k x hs => absurd hs (hnone _)
      first := fun k x hs => absurd hs (hnone _)
      committed := fun k e he => by cases he
      executed := fun k e he => by cases he
      applied := rfl }
  · have hle : (1 : ℤ) ≤ 0 := hj.trans hjle
    omega
  · have hlen := congrArg List.length hm
    simp [Network.initial] at hlen

/-- **The invariant of fault-free runs in order**, for at least four nodes. -/
theorem inSequence [Fintype NodeId] {ms : Members NodeId Operation Digest} {p : NodeId}
    (hp : ∀ a, ms.primary a = p) {f : ℕ} (hf : ∀ a, (ms.config a).f = f) (hpos : 0 < f)
    (run : ClusterRun ms ∅) (hfifo : ∀ i < run.length, (run.event i).fifo = true) :
    ∀ i ≤ run.length, InSequence f p (run.state i) := by
  refine run.induction ?_ (fun i hi ih => ?_)
  · rw [run.state_zero]
    exact InSequence.initial f p
  · obtain ⟨a, inp, inbox₀, hacts, -⟩ := Network.fifo_cases (run.state_succ i hi) (hfifo i hi)
    exact ih.acts (sound hp run i hi.le) hp hacts hf hpos

end Pbft
