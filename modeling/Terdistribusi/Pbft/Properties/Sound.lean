import Terdistribusi.Pbft.Properties.Acts

/-!
# What votes stand for

The invariant of all runs, whatever Byzantine nodes send and whatever is lost (`Sound`).

* a correct node never replaces an entry, so its digest under a number is settled once
* a vote of a correct node that another node has counted, or that is in flight, agrees with the
  entry of the voter (`commits`, `sent`)
* what a node applies has `2f + 1` votes (`applied`)
* where the primary is correct, all entries are the primary's (`primary`)

`p` is the primary.
-/

namespace Pbft

open Infra

variable {NodeId Operation Digest : Type} [LinearOrder NodeId] [DecidableEq Digest]

/-- The entry of node `a` under a number. -/
abbrev entryOf (s : Cluster NodeId Operation Digest) (a : NodeId) (k : ℤ) :
    Option (PBFTLogEntry NodeId Operation Digest) :=
  (s.nodes a).log.get? k

/-- Node `a` has an entry under `k` with the digest `d`. -/
def Agreed (s : Cluster NodeId Operation Digest) (a : NodeId) (k : ℤ) (d : Digest) : Prop :=
  ∃ e, entryOf s a k = some e ∧ e.digest = d

/-- What the state of a correct sender `x` says about a payload in flight. -/
def Backed (faulty : Finset NodeId) (p : NodeId) (f : ℕ) (s : Cluster NodeId Operation Digest)
    (x : NodeId) : Payload Operation Digest → Prop
  | .prePrepare v k d r =>
    v = 0 ∧ x = p ∧ ∃ e, entryOf s x k = some e ∧ e.digest = d ∧ e.request = r
  | .prepare v k d => v = 0 ∧ (p ∉ faulty → Agreed s p k d) ∧
      ∃ e, entryOf s x k = some e ∧ x ∈ e.prepares
  | .commit v k d => v = 0 ∧
      ∃ e, entryOf s x k = some e ∧ e.digest = d ∧ 2 * f ≤ e.prepares.card ∧ x ∈ e.commits

/-- The invariant of a cluster with primary `p`. -/
structure Sound (ms : Members NodeId Operation Digest) (faulty : Finset NodeId) (p : NodeId)
    (s : Cluster NodeId Operation Digest) : Prop where
  view : ∀ a, (s.nodes a).view = 0
  fresh : ∀ k, (s.nodes p).seqNum < k → entryOf s p k = none
  seqNum : ∀ a k e, entryOf s a k = some e → e.seqNum = k
  digest : ∀ a k e, entryOf s a k = some e → e.digest = ms.computeDigest e.request
  sent : ∀ b, ∀ m ∈ s.inbox b, m.senderId ∉ faulty →
    m.receiverId = b ∧ b ≠ m.senderId ∧ Backed faulty p (ms.config b).f s m.senderId m.payload
  commits : ∀ a k e, entryOf s a k = some e → ∀ x ∈ e.commits, x ∉ faulty → Agreed s x k e.digest
  primary : p ∉ faulty → ∀ a k e, entryOf s a k = some e →
    ∃ e₀, entryOf s p k = some e₀ ∧ e₀.digest = e.digest ∧ e₀.request = e.request
  applied : ∀ a, ∀ x ∈ (s.nodes a).applied, ∃ e, entryOf s a x.1 = some e ∧ e.request = x.2 ∧
    e.committed = true ∧ 2 * (ms.config a).f + 1 ≤ e.commits.card
  nodup : ∀ a, ((s.nodes a).applied.map Prod.fst).Nodup

/-! ## Entries stay -/

/-- Every entry of every node stays, and grows. -/
def Extends (s s' : Cluster NodeId Operation Digest) : Prop :=
  ∀ a k e, entryOf s a k = some e → ∃ e', entryOf s' a k = some e' ∧ Grown e e'

omit [LinearOrder NodeId] [DecidableEq Digest] in
theorem Agreed.extends {s s' : Cluster NodeId Operation Digest} (h : Extends s s') {a : NodeId}
    {k : ℤ} {d : Digest} (ha : Agreed s a k d) : Agreed s' a k d := by
  obtain ⟨e, he, hd⟩ := ha
  obtain ⟨e', he', hgrown⟩ := h a k e he
  exact ⟨e', he', hgrown.digest.trans hd⟩

omit [LinearOrder NodeId] [DecidableEq Digest] in
theorem Backed.extends {faulty : Finset NodeId} {p : NodeId} {f : ℕ}
    {s s' : Cluster NodeId Operation Digest} (h : Extends s s') {x : NodeId}
    {payload : Payload Operation Digest} (hb : Backed faulty p f s x payload) :
    Backed faulty p f s' x payload := by
  cases payload with
  | prePrepare v k d r =>
    obtain ⟨hv, hx, e, he, hd, hr⟩ := hb
    obtain ⟨e', he', hgrown⟩ := h x k e he
    exact ⟨hv, hx, e', he', hgrown.digest.trans hd, hgrown.request.trans hr⟩
  | prepare v k d =>
    obtain ⟨hv, hp, e, he, hx⟩ := hb
    obtain ⟨e', he', hgrown⟩ := h x k e he
    exact ⟨hv, fun hc => (hp hc).extends h, e', he', hgrown.prepares hx⟩
  | commit v k d =>
    obtain ⟨hv, e, he, hd, hquorum, hx⟩ := hb
    obtain ⟨e', he', hgrown⟩ := h x k e he
    exact ⟨hv, e', he', hgrown.digest.trans hd,
      hquorum.trans (Finset.card_le_card hgrown.prepares), hgrown.commits hx⟩

/-! ## One step -/

section Step

variable {ms : Members NodeId Operation Digest} {faulty : Finset NodeId} {p : NodeId}
  {s s' : Cluster NodeId Operation Digest} {a : NodeId}
  {inp : Input NodeId (PBFTRequest Operation) Unit (Payload Operation Digest)}

omit [DecidableEq Digest] in
/-- The primary that a node sees is `p`. -/
theorem Sound.primary_eq (h : Sound ms faulty p s) (hp : ∀ a, ms.primary a = p) (b : NodeId) :
    (ms.config b).primary (s.nodes b).view = p := by
  rw [h.view b]
  exact hp b

/-- The step of the acting node. -/
theorem acts_self (hacts : Network.Acts ms.act faulty s s' a inp) :
    Acts (ms.config a) (s.nodes a) inp (s'.nodes a) (ms.act a inp (s.nodes a)).2 := by
  rw [hacts.nodes, Function.update_self]
  exact acts_act (ms.config a) (s.nodes a) inp

theorem nodes_of_ne (hacts : Network.Acts ms.act faulty s s' a inp) {b : NodeId} (hb : b ≠ a) :
    s'.nodes b = s.nodes b := by
  rw [hacts.nodes, Function.update_of_ne hb]

/-- Every entry after a step was there before or is new at the acting node. -/
theorem entry_succ (hacts : Network.Acts ms.act faulty s s' a inp) {b : NodeId} {k : ℤ}
    {e' : PBFTLogEntry NodeId Operation Digest} (he' : entryOf s' b k = some e') :
    (∃ e, entryOf s b k = some e ∧ Changed (ms.config b) (s.nodes b) inp k e e') ∨
      b = a ∧ Fresh (ms.config a) (s.nodes a) inp k e' := by
  by_cases hb : b = a
  · subst hb
    exact ((acts_self hacts).entry he').imp_right fun h => ⟨rfl, h⟩
  · rw [entryOf, nodes_of_ne hacts hb] at he'
    exact Or.inl ⟨e', he', Acts.changed_refl k e'⟩

variable (h : Sound ms faulty p s) (hp : ∀ a, ms.primary a = p)
  (hacts : Network.Acts ms.act faulty s s' a inp)

include h hacts

/-- A payload that was received from a correct node is backed by its sender. -/
theorem Sound.receives {x : NodeId} {payload : Payload Operation Digest}
    (hr : Receives inp x payload) (hx : x ∉ faulty) :
    a ≠ x ∧ Backed faulty p (ms.config a).f s x payload := by
  obtain ⟨env, m, hinp, rfl, rfl⟩ := hr
  obtain ⟨-, hne, hbacked⟩ := h.sent a m (hacts.received env m hinp) hx
  exact ⟨hne, hbacked⟩

theorem Sound.view_succ : ∀ b, (s'.nodes b).view = 0 := by
  intro b
  by_cases hb : b = a
  · subst hb
    rw [(acts_self hacts).view, h.view b]
  · rw [nodes_of_ne hacts hb, h.view b]

theorem Sound.seqNum_succ : ∀ b k e', entryOf s' b k = some e' → e'.seqNum = k := by
  intro b k e' he'
  rcases entry_succ hacts he' with ⟨e, he, hchanged⟩ | ⟨-, hfresh⟩
  · exact hchanged.seqNum.trans (h.seqNum b k e he)
  · exact hfresh.seqNum

theorem Sound.digest_succ :
    ∀ b k e', entryOf s' b k = some e' → e'.digest = ms.computeDigest e'.request := by
  intro b k e' he'
  rcases entry_succ hacts he' with ⟨e, he, hchanged⟩ | ⟨-, hfresh⟩
  · rw [hchanged.digest, hchanged.request, h.digest b k e he]
  · exact hfresh.digest

theorem Sound.nodup_succ : ∀ b, ((s'.nodes b).applied.map Prod.fst).Nodup := by
  intro b
  by_cases hb : b = a
  · subst hb
    rcases (acts_self hacts).applied with heq | ⟨k, e, -, -, -, hnot, heq⟩
    · rw [heq]
      exact h.nodup b
    · rw [heq, List.map_append, List.nodup_append']
      exact ⟨h.nodup b, List.nodup_singleton _, by simpa using hnot⟩
  · rw [nodes_of_ne hacts hb]
    exact h.nodup b

include hp

/-- A new entry is a submission of the primary, or what the primary has sent to another node. -/
theorem Sound.fresh_cases {k : ℤ} {e' : PBFTLogEntry NodeId Operation Digest}
    (hfresh : Fresh (ms.config a) (s.nodes a) inp k e') :
    (a = p ∧ (∃ request, inp = .call request) ∧ k = (s.nodes p).seqNum + 1) ∨
      a ≠ p ∧ Receives inp p (.prePrepare 0 k e'.digest e'.request) := by
  have hprimary := h.primary_eq hp a
  rcases hfresh.origin with ⟨r, hinp, hself, hk, -⟩ | ⟨hr, -, -⟩
  · have hap : a = p := hself.symm.trans hprimary
    subst hap
    exact Or.inl ⟨rfl, ⟨r, hinp⟩, hk⟩
  · rw [hprimary, h.view a] at hr
    refine Or.inr ⟨?_, hr⟩
    rintro rfl
    exact (h.receives hacts hr hacts.correct).1 rfl

theorem Sound.extends : Extends s s' := by
  intro b k e he
  by_cases hb : b = a
  · subst hb
    refine (acts_self hacts).grown (fun request hinp hself => ?_) he
    have hbp : b = p := hself.symm.trans (h.primary_eq hp b)
    subst hbp
    exact h.fresh _ (by omega)
  · exact ⟨e, by rw [entryOf, nodes_of_ne hacts hb]; exact he, Grown.refl e⟩

theorem Sound.fresh_succ : ∀ k, (s'.nodes p).seqNum < k → entryOf s' p k = none := by
  intro k hk
  by_contra hne
  obtain ⟨e', he'⟩ := Option.ne_none_iff_exists'.mp hne
  by_cases hpa : p = a
  · subst hpa
    have hseq := (acts_self hacts).seqNum_cases
    rcases entry_succ hacts he' with ⟨e, he, -⟩ | ⟨-, hfresh⟩
    · rw [h.fresh k (by omega)] at he
      cases he
    · rcases h.fresh_cases hp hacts hfresh with ⟨-, ⟨r, hinp⟩, hk'⟩ | ⟨hne, -⟩
      · rcases hseq with ⟨-, hno⟩ | ⟨hseq, -⟩
        · exact hno r hinp (h.primary_eq hp p)
        · omega
      · exact hne rfl
  · rw [nodes_of_ne hacts hpa] at hk
    rw [entryOf, nodes_of_ne hacts hpa] at he'
    cases (h.fresh k hk).symm.trans he'

/-- What a node sends is backed by its new state. -/
theorem Sound.behind {payload : Payload Operation Digest}
    (hb : Behind (ms.config a) (s.nodes a) inp (s'.nodes a) payload) :
    Backed faulty p (ms.config a).f s' a payload := by
  have hext := h.extends hp hacts
  cases payload with
  | prePrepare v k d r =>
    obtain ⟨rfl, hself, -, -, e, he, hd, hr⟩ := hb
    exact ⟨h.view a, hself.symm.trans (h.primary_eq hp a), e, he, hd, hr⟩
  | prepare v k d =>
    obtain ⟨rfl, r, -, hr, e, he, hmem, -⟩ := hb
    rw [h.primary_eq hp a] at hr
    refine ⟨h.view a, fun hcorrect => ?_, e, he, hmem⟩
    obtain ⟨-, -, -, e₀, he₀, hd₀, -⟩ := h.receives hacts hr hcorrect
    exact Agreed.extends hext ⟨e₀, he₀, hd₀⟩
  | commit v k d =>
    obtain ⟨rfl, e, he, hd, hquorum, hmem, -⟩ := hb
    exact ⟨h.view a, e, he, hd, hquorum, hmem⟩

theorem Sound.sent_succ [Fintype NodeId] : ∀ b, ∀ m ∈ s'.inbox b, m.senderId ∉ faulty →
    m.receiverId = b ∧ b ≠ m.senderId ∧
      Backed faulty p (ms.config b).f s' m.senderId m.payload := by
  intro b m hm hcorrect
  rcases hacts.inbox b m hm with hm | ⟨hout, hb⟩
  · obtain ⟨hreceiver, hne, hbacked⟩ := h.sent b m hm hcorrect
    exact ⟨hreceiver, hne, hbacked.extends (h.extends hp hacts)⟩
  · obtain ⟨hsender, hpeer, hbehind⟩ := (acts_self hacts).sends hout
    have hsender : m.senderId = a := hsender
    have hne : m.receiverId ≠ a := (ms.mem_peers a _).mp hpeer
    have hbacked := h.behind hp hacts hbehind
    rw [hsender, ← hb, ms.f_config m.receiverId, ← ms.f_config a]
    exact ⟨rfl, hne, hbacked⟩

theorem Sound.commits_succ : ∀ b k e', entryOf s' b k = some e' → ∀ x ∈ e'.commits, x ∉ faulty →
    Agreed s' x k e'.digest := by
  intro b k e' he' x hx hcorrect
  have hext := h.extends hp hacts
  rcases entry_succ hacts he' with ⟨e, he, hchanged⟩ | ⟨-, hfresh⟩
  · rcases hchanged.newCommits x hx with hx | rfl | ⟨v, hr⟩
    · rw [hchanged.digest]
      exact (h.commits b k e he x hx hcorrect).extends hext
    · exact ⟨e', he', rfl⟩
    · obtain ⟨-, -, e₀, he₀, hd₀, -⟩ := h.receives hacts hr hcorrect
      rw [hchanged.digest]
      exact Agreed.extends hext ⟨e₀, he₀, hd₀⟩
  · rw [hfresh.commits] at hx
    exact absurd hx (Finset.notMem_empty x)

theorem Sound.primary_succ (hcorrect : p ∉ faulty) : ∀ b k e', entryOf s' b k = some e' →
    ∃ e₀, entryOf s' p k = some e₀ ∧ e₀.digest = e'.digest ∧ e₀.request = e'.request := by
  intro b k e' he'
  have hext := h.extends hp hacts
  rcases entry_succ hacts he' with ⟨e, he, hchanged⟩ | ⟨rfl, hfresh⟩
  · obtain ⟨e₀, he₀, hd₀, hr₀⟩ := h.primary hcorrect b k e he
    obtain ⟨e₁, he₁, hgrown⟩ := hext p k e₀ he₀
    exact ⟨e₁, he₁, by rw [hgrown.digest, hd₀, hchanged.digest],
      by rw [hgrown.request, hr₀, hchanged.request]⟩
  · rcases h.fresh_cases hp hacts hfresh with ⟨rfl, -, -⟩ | ⟨-, hr⟩
    · exact ⟨e', he', rfl, rfl⟩
    · obtain ⟨-, -, -, e₀, he₀, hd₀, hr₀⟩ := h.receives hacts hr hcorrect
      obtain ⟨e₁, he₁, hgrown⟩ := hext p k e₀ he₀
      exact ⟨e₁, he₁, hgrown.digest.trans hd₀, hgrown.request.trans hr₀⟩

theorem Sound.applied_succ : ∀ b, ∀ x ∈ (s'.nodes b).applied,
    ∃ e, entryOf s' b x.1 = some e ∧ e.request = x.2 ∧ e.committed = true ∧
      2 * (ms.config b).f + 1 ≤ e.commits.card := by
  intro b x hx
  have hold : x ∈ (s.nodes b).applied → ∃ e, entryOf s' b x.1 = some e ∧ e.request = x.2 ∧
      e.committed = true ∧ 2 * (ms.config b).f + 1 ≤ e.commits.card := by
    intro hx
    obtain ⟨e, he, hr, hc, hquorum⟩ := h.applied b x hx
    obtain ⟨e', he', hgrown⟩ := h.extends hp hacts b x.1 e he
    exact ⟨e', he', hgrown.request.trans hr, hgrown.committed hc,
      hquorum.trans (Finset.card_le_card hgrown.commits)⟩
  by_cases hb : b = a
  · subst hb
    rcases (acts_self hacts).applied with heq | ⟨k, e, he, hc, hquorum, -, heq⟩
    · rw [heq] at hx
      exact hold hx
    · rw [heq] at hx
      rcases List.mem_append.mp hx with hx | hx
      · exact hold hx
      · rw [List.mem_singleton.mp hx, h.seqNum_succ hacts b k e he]
        exact ⟨e, he, rfl, hc, hquorum⟩
  · rw [nodes_of_ne hacts hb] at hx
    exact hold hx

theorem Sound.acts [Fintype NodeId] : Sound ms faulty p s' where
  view := h.view_succ hacts
  fresh := h.fresh_succ hp hacts
  seqNum := h.seqNum_succ hacts
  digest := h.digest_succ hacts
  sent := h.sent_succ hp hacts
  commits := h.commits_succ hp hacts
  primary := h.primary_succ hp hacts
  applied := h.applied_succ hp hacts
  nodup := h.nodup_succ hacts

end Step

omit [DecidableEq Digest] in
/-- A step of the network alone. -/
theorem Sound.idles {ms : Members NodeId Operation Digest} {faulty : Finset NodeId} {p : NodeId}
    {s s' : Cluster NodeId Operation Digest} (h : Sound ms faulty p s)
    (hidles : Network.Idles faulty s s') : Sound ms faulty p s' := by
  obtain ⟨nodes, inbox⟩ := s'
  obtain ⟨rfl, hinbox⟩ := hidles
  exact { h with
    sent := fun b m hm hcorrect =>
      h.sent b m ((hinbox b m hm).resolve_right hcorrect) hcorrect }

omit [DecidableEq Digest] in
theorem Sound.initial (ms : Members NodeId Operation Digest) (faulty : Finset NodeId) (p : NodeId) :
    Sound ms faulty p Cluster.initial := by
  constructor <;> simp [entryOf, Network.initial]

/-- **The invariant holds throughout a run.** -/
theorem sound [Fintype NodeId] {ms : Members NodeId Operation Digest} {faulty : Finset NodeId}
    {p : NodeId} (hp : ∀ a, ms.primary a = p) (run : ClusterRun ms faulty) :
    ∀ i ≤ run.length, Sound ms faulty p (run.state i) := by
  refine run.invariant (Sound.initial ms faulty p) (fun s e s' h hs => ?_)
  rcases Network.step_cases hs with hidles | ⟨a, inp, hacts, -⟩
  · exact h.idles hidles
  · exact h.acts hp hacts

/-- Every entry stays for the rest of the run. -/
theorem extends_of_le [Fintype NodeId] {ms : Members NodeId Operation Digest}
    {faulty : Finset NodeId} {p : NodeId} (hp : ∀ a, ms.primary a = p) (run : ClusterRun ms faulty)
    {i j : ℕ} (hij : i ≤ j) (hj : j ≤ run.length) : Extends (run.state i) (run.state j) := by
  refine run.rel (R := Extends) (fun s a k e he => ⟨e, he, Grown.refl e⟩) ?_ (fun i hi => ?_) hij hj
  · intro s₁ s₂ s₃ h h' a k e he
    obtain ⟨e', he', hgrown⟩ := h a k e he
    obtain ⟨e'', he'', hgrown'⟩ := h' a k e' he'
    exact ⟨e'', he'', hgrown.trans hgrown'⟩
  · rcases Network.step_cases (run.state_succ i hi) with hidles | ⟨a, inp, hacts, -⟩
    · intro a k e he
      exact ⟨e, by rw [entryOf, hidles.nodes]; exact he, Grown.refl e⟩
    · exact (sound hp run i hi.le).extends hp hacts

end Pbft
