import Terdistribusi.Pbft.Properties.Sound

/-!
# What a message rests on

Where nothing is faulty and inboxes are read in order, a message is only read after everything that
it rests on (`RestsOn`): the same kind of message under all earlier numbers, and what made its
sender send it.

The lemmas after it say when one node promises, commits and applies.
-/

namespace Pbft

open Infra

variable {NodeId Operation Digest : Type}

/-- The node whose message it is; `p` is the primary. -/
def owner (p : NodeId) : Kind NodeId → NodeId
  | .proposal => p
  | .prepare x | .commit x => x

/-- What a message rests on: the same kind under all earlier numbers, the proposal, and for a COMMIT
the PREPARE of its sender and `2f` PREPAREs. -/
def RestsOn (f : ℕ) (p : NodeId) (K : Set (Label NodeId)) (q : Label NodeId) : Prop :=
  1 ≤ q.2 ∧ (∀ j, 1 ≤ j → j < q.2 → (q.1, j) ∈ K) ∧
    match q.1 with
    | .proposal => True
    | .prepare _ => (.proposal, q.2) ∈ K
    | .commit x => (.proposal, q.2) ∈ K ∧ (x ≠ p → (.prepare x, q.2) ∈ K) ∧
        ∃ Q : Finset NodeId, 2 * f ≤ Q.card ∧ ∀ y ∈ Q, (.prepare y, q.2) ∈ K

theorem RestsOn.mono {f : ℕ} {p : NodeId} {K K' : Set (Label NodeId)} {q : Label NodeId}
    (hK : K ⊆ K') (h : RestsOn f p K q) : RestsOn f p K' q := by
  obtain ⟨hpos, hearlier, hkind⟩ := h
  refine ⟨hpos, fun j hj hjq => hK (hearlier j hj hjq), ?_⟩
  obtain ⟨kind, k⟩ := q
  cases kind with
  | proposal => trivial
  | prepare x => exact hK hkind
  | commit x =>
    obtain ⟨hproposal, hprepare, Q, hcard, hQ⟩ := hkind
    exact ⟨hK hproposal, fun hx => hK (hprepare hx), Q, hcard, fun y hy => hK (hQ y hy)⟩

theorem Seen.proposal {n : PBFTNode NodeId Operation Digest} {q : Label NodeId} (h : Seen n q) :
    Seen n (.proposal, q.2) := by
  obtain ⟨e, he, -⟩ := h
  exact ⟨e, he, trivial⟩

theorem Shows.grown {e e' : PBFTLogEntry NodeId Operation Digest} (h : Grown e e')
    {kind : Kind NodeId} (hs : Shows e kind) : Shows e' kind := by
  cases kind with
  | proposal => trivial
  | prepare x => exact h.prepares hs
  | commit x => exact h.commits hs

theorem Seen.extends {s s' : Cluster NodeId Operation Digest} (h : Extends s s') {a : NodeId}
    {q : Label NodeId} (hs : Seen (s.nodes a) q) : Seen (s'.nodes a) q := by
  obtain ⟨e, he, hshows⟩ := hs
  obtain ⟨e', he', hgrown⟩ := h a q.2 e he
  exact ⟨e', he', hshows.grown hgrown⟩

/-- What is in flight has been seen by its sender. -/
theorem Backed.seen {faulty : Finset NodeId} {p : NodeId} {f : ℕ}
    {s : Cluster NodeId Operation Digest} {x : NodeId} {payload : Payload Operation Digest}
    (h : Backed faulty p f s x payload) :
    owner p (labelOf x payload).1 = x ∧ Seen (s.nodes x) (labelOf x payload) := by
  cases payload with
  | prePrepare v k d r =>
    obtain ⟨-, rfl, e, he, -⟩ := h
    exact ⟨rfl, e, he, trivial⟩
  | prepare v k d =>
    obtain ⟨-, -, e, he, hx⟩ := h
    exact ⟨rfl, e, he, hx⟩
  | commit v k d =>
    obtain ⟨-, e, he, -, -, hx⟩ := h
    exact ⟨rfl, e, he, hx⟩

/-! ## What a step adds -/

variable [LinearOrder NodeId]

namespace Acts

variable {cfg : Config NodeId Operation Digest} {n n' : PBFTNode NodeId Operation Digest}
  {inp : Input NodeId (PBFTRequest Operation) Unit (Payload Operation Digest)}
  {outs : List (Message NodeId (Payload Operation Digest))}

/-- A message that is not ignored is seen. -/
theorem seen_receive {env : Unit} {m : Message NodeId (Payload Operation Digest)}
    (h : Acts cfg n (.receive env m) n' outs) (hm : ¬ Ignores cfg n m) : Seen n' (label m) := by
  cases h with
  | ignored hignores => exact absurd hignores hm
  | accepted hpayload hprimary hget =>
    rw [label, hpayload]
    exact ⟨_, Dict.get?_set_self _ _ _, trivial⟩
  | repeated hpayload hprimary hget =>
    rw [label, hpayload]
    exact ⟨_, Dict.get?_set_self _ _ _, trivial⟩
  | prepared hpayload hget hwait =>
    rw [label, hpayload]
    exact ⟨_, Dict.get?_set_self _ _ _, Finset.mem_insert_self _ _⟩
  | promised hpayload hget hreceived hquorum hsender =>
    rw [label, hpayload]
    exact ⟨_, Dict.get?_set_self _ _ _, Finset.mem_insert_self _ _⟩
  | counted hpayload hget hwait =>
    rw [label, hpayload]
    exact ⟨_, Dict.get?_set_self _ _ _, Finset.mem_insert_self _ _⟩
  | executed hpayload hget hquorum hopen =>
    rw [label, hpayload, Seen, apply_log]
    exact ⟨_, Dict.get?_set_self _ _ _, Finset.mem_insert_self _ _⟩

/-- An entry with `2f` PREPAREs: the node has promised it, or it had these PREPAREs before, but for
its own, or the last one came from a node whose COMMIT was there already. -/
theorem promised_cases (h : Acts cfg n inp n' outs)
    (hreceived : ∀ k e, n.log.get? k = some e → e.prePrepareReceived = true) {k : ℤ}
    {e' : PBFTLogEntry NodeId Operation Digest} (he' : n'.log.get? k = some e')
    (hquorum : 2 * cfg.f ≤ e'.prepares.card) :
    cfg.nodeId ∈ e'.commits ∨ e'.prepares ⊆ {cfg.nodeId} ∨
      ∃ e, n.log.get? k = some e ∧ e.commits ⊆ e'.commits ∧
        (e'.prepares ⊆ insert cfg.nodeId e.prepares ∨
          ∃ y ∈ e.commits, e'.prepares = insert y e.prepares ∧
            ∃ env m, inp = .receive env m ∧ label m = (.prepare y, k)) := by
  rcases h.rewrites he' with he | hrewrites
  · exact Or.inr (Or.inr ⟨e', he, fun _ hx => hx, Or.inl (Finset.subset_insert _ _)⟩)
  · cases hrewrites with
    | submitted => exact Or.inr (Or.inl (Finset.empty_subset _))
    | accepted => exact Or.inr (Or.inl (Finset.Subset.refl _))
    | @repeated env m request e hinp hm hprimary hget =>
      exact Or.inr (Or.inr ⟨e, hget, fun _ hx => hx, Or.inl (Finset.Subset.refl _)⟩)
    | @prepared env m view e hinp hm hget hwait =>
      have hsender : m.senderId ∈ e.commits := by
        by_contra hnot
        exact hwait ⟨hreceived k e hget, hquorum, hnot⟩
      exact Or.inr (Or.inr ⟨e, hget, fun _ hx => hx,
        Or.inr ⟨m.senderId, hsender, rfl, env, m, hinp, by rw [label, hm]; rfl⟩⟩)
    | promised => exact Or.inl (Finset.mem_insert_self _ _)
    | @counted env m view e hinp hm hget hwait =>
      exact Or.inr (Or.inr ⟨e, hget, Finset.subset_insert _ _, Or.inl (Finset.subset_insert _ _)⟩)
    | @executed env m view e hinp hm hget happlied =>
      exact Or.inr (Or.inr ⟨e, hget, Finset.subset_insert _ _, Or.inl (Finset.subset_insert _ _)⟩)

/-- An entry with `2f + 1` COMMITs is committed, or it had these COMMITs before, but for the node's
own. -/
theorem committed_cases (h : Acts cfg n inp n' outs) {k : ℤ}
    {e' : PBFTLogEntry NodeId Operation Digest} (he' : n'.log.get? k = some e')
    (hquorum : 2 * cfg.f + 1 ≤ e'.commits.card) :
    e'.committed = true ∨ ∃ e, n.log.get? k = some e ∧ e.committed = e'.committed ∧
      e'.commits ⊆ insert cfg.nodeId e.commits := by
  rcases h.rewrites he' with he | hrewrites
  · exact Or.inr ⟨e', he, rfl, Finset.subset_insert _ _⟩
  · cases hrewrites with
    | submitted | accepted => simp at hquorum
    | @repeated env m request e hinp hm hprimary hget =>
      exact Or.inr ⟨e, hget, rfl, Finset.subset_insert _ _⟩
    | @prepared env m view e hinp hm hget hwait =>
      exact Or.inr ⟨e, hget, rfl, Finset.subset_insert _ _⟩
    | @promised env m view e hinp hm hget => exact Or.inr ⟨e, hget, rfl, Finset.Subset.refl _⟩
    | counted hinp hm hget hwait =>
      refine Or.inl ?_
      by_contra hopen
      exact hwait ⟨hquorum, hopen⟩
    | executed => exact Or.inl rfl

/-- An entry that is committed was committed before, or is applied. -/
theorem applied_of_committed (h : Acts cfg n inp n' outs) {k : ℤ}
    {e' : PBFTLogEntry NodeId Operation Digest} (he' : n'.log.get? k = some e')
    (hcommitted : e'.committed = true) :
    (∃ e, n.log.get? k = some e ∧ e.committed = true) ∨ e'.seqNum ∈ n'.applied.map Prod.fst := by
  rcases h.rewrites he' with he | hrewrites
  · exact Or.inl ⟨e', he, hcommitted⟩
  · cases hrewrites with
    | submitted | accepted => cases hcommitted
    | repeated hinp hm hprimary hget => exact Or.inl ⟨_, hget, hcommitted⟩
    | prepared hinp hm hget => exact Or.inl ⟨_, hget, hcommitted⟩
    | promised hinp hm hget => exact Or.inl ⟨_, hget, hcommitted⟩
    | counted hinp hm hget => exact Or.inl ⟨_, hget, hcommitted⟩
    | executed hinp hm hget happlied => exact Or.inr happlied

/-- What is applied stays applied. -/
theorem applied_mono (h : Acts cfg n inp n' outs) {k : ℤ} (hk : k ∈ n.applied.map Prod.fst) :
    k ∈ n'.applied.map Prod.fst := by
  rcases h.applied with heq | ⟨k', e, -, -, -, -, heq⟩
  · rwa [heq]
  · rw [heq, List.map_append]
    exact List.mem_append_left _ hk

end Acts

end Pbft
