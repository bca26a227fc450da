import Terdistribusi.Infra.Quorum
import Terdistribusi.Infra.Splice

/-!
# Histories of logs replicated by elected leaders

What a group of nodes did over time, as far as their terms, votes and logs are concerned: every
node has at each time a term, at most one vote in that term, a log and possibly the leadership.
`LogHistory` lists the few laws that one step of such a group obeys. Nothing is said about
messages, timeouts or how a node counts.

From the laws alone follow, for histories of any length and any number of nodes:

* `leader_unique` — a term has one leader
* `matched` — every front part of a log was written by the leader of its last entry's term
* `leader_complete` — what a majority held in a term is in the log of every later leader
* `committed_comparable` — two committed logs are front parts of one another
-/

namespace Infra

/-- The record of a history: times `0` to `length`. -/
structure Timeline (Node Entry : Type*) where
  length : ℕ
  term : ℕ → Node → ℕ
  vote : ℕ → Node → Option Node
  log : ℕ → Node → List Entry
  leads : ℕ → Node → Prop

section Order

variable {Entry : Type*} (tm : Entry → ℕ)

/-- The term of the last entry, `0` for the empty log. -/
def lastTerm (l : List Entry) : ℕ := (l.getLast?.map tm).getD 0

/-- The log `l` is at least as up to date as `m`: a higher last term, or the same and no shorter. -/
def UpToDate (l m : List Entry) : Prop :=
  lastTerm tm m < lastTerm tm l ∨ (lastTerm tm m = lastTerm tm l ∧ m.length ≤ l.length)

theorem UpToDate.refl (l : List Entry) : UpToDate tm l l := Or.inr ⟨rfl, Nat.le_refl _⟩

end Order

namespace Timeline

variable {Node Entry : Type*} (tm : Entry → ℕ) (h : Timeline Node Entry)

/--
What a step may do to the log of `v`.

* `same` — nothing
* `append` — `v` leads and writes one entry of its own term
* `adopt` — `v` does not lead and splices in a part of a log that the leader of its term had
-/
inductive LogStep (i : ℕ) (v : Node) : Prop
  | same : h.log (i + 1) v = h.log i v → LogStep i v
  | append (e : Entry) : h.leads (i + 1) v → h.term (i + 1) v = h.term i v → tm e = h.term i v →
      h.log (i + 1) v = h.log i v ++ [e] → LogStep i v
  | adopt (j : ℕ) (a : Node) (m : List Entry) (k : ℕ) : ¬ h.leads (i + 1) v → j ≤ i →
      h.leads j a → h.term j a = h.term (i + 1) v → m <+: h.log j a → k ≤ m.length →
      (∀ p, k = p + 1 → ∃ e e', (h.log i v)[p]? = some e ∧ m[p]? = some e' ∧ tm e = tm e') →
      h.log (i + 1) v = splice tm (h.log i v) k (m.drop k) → LogStep i v

/-- `a` becomes leader in the step after time `i`: by the votes of a majority, each given while
the voter's log was not ahead of the log `a` is elected with. -/
structure ElectedAt [Fintype Node] (i : ℕ) (a : Node) : Prop where
  log_eq : h.log (i + 1) a = h.log i a
  /-- The first time `a` leads in this term. -/
  fresh : ∀ j ≤ i, h.leads j a → h.term j a ≠ h.term (i + 1) a
  quorum : ∃ Q : Finset Node, IsMajority Q ∧ ∀ v ∈ Q, ∃ j ≤ i + 1,
    h.term j v = h.term (i + 1) a ∧ h.vote j v = some a ∧
      UpToDate tm (h.log (i + 1) a) (h.log j v)

end Timeline

/-- A timeline that obeys the laws of voting and of replication. -/
structure LogHistory (Node : Type*) {Entry : Type*} [Fintype Node] (tm : Entry → ℕ) extends
    Timeline Node Entry where
  log_zero : ∀ v, log 0 v = []
  leads_zero : ∀ v, ¬ leads 0 v
  term_step : ∀ i < length, ∀ v, term i v ≤ term (i + 1) v
  /-- A vote is not taken back within its term. -/
  vote_step : ∀ i < length, ∀ v c, term (i + 1) v = term i v → vote i v = some c →
    vote (i + 1) v = some c
  leads_step : ∀ i < length, ∀ a, leads (i + 1) a →
    (leads i a ∧ term (i + 1) a = term i a) ∨ toTimeline.ElectedAt tm i a
  log_step : ∀ i < length, ∀ v, toTimeline.LogStep tm i v

namespace LogHistory

variable {Node Entry : Type*} [Fintype Node] {tm : Entry → ℕ} (h : LogHistory Node tm)

/-! ## Terms and votes -/

theorem term_mono {i j : ℕ} (hij : i ≤ j) (hj : j ≤ h.length) (v : Node) :
    h.term i v ≤ h.term j v := by
  induction j, hij using Nat.le_induction with
  | base => exact Nat.le_refl _
  | succ j _ ih => exact (ih (by omega)).trans (h.term_step j hj v)

theorem vote_stable {i j : ℕ} (hij : i ≤ j) (hj : j ≤ h.length) {v c : Node}
    (ht : h.term i v = h.term j v) (hc : h.vote i v = some c) : h.vote j v = some c := by
  induction j, hij using Nat.le_induction with
  | base => exact hc
  | succ j hij ih =>
    have h1 : h.term i v ≤ h.term j v := h.term_mono hij (by omega) v
    have h2 : h.term j v ≤ h.term (j + 1) v := h.term_step j hj v
    exact h.vote_step j hj v c (by omega) (ih (by omega) (by omega))

/-- **A node votes for one candidate in a term.** -/
theorem vote_unique {i j : ℕ} (hi : i ≤ h.length) (hj : j ≤ h.length) {v c d : Node}
    (ht : h.term i v = h.term j v) (hc : h.vote i v = some c) (hd : h.vote j v = some d) :
    c = d := by
  rcases Nat.le_total i j with hij | hij
  · have := h.vote_stable hij hj ht hc
    exact Option.some.inj (this.symm.trans hd)
  · have := h.vote_stable hij hi ht.symm hd
    exact Option.some.inj (hc.symm.trans this)

/-! ## Leaders -/

/-- A leader was elected at an earlier time of its term and has led from then on. -/
theorem exists_elected {i : ℕ} {a : Node} : i ≤ h.length → h.leads i a →
    ∃ t < i, h.ElectedAt tm t a ∧ ∀ k, t < k → k ≤ i → h.leads k a ∧ h.term k a = h.term i a := by
  induction i with
  | zero => exact fun _ hl => absurd hl (h.leads_zero a)
  | succ i ih =>
    intro hi hl
    rcases h.leads_step i hi a hl with ⟨hl', ht⟩ | he
    · obtain ⟨t, hti, he, hk⟩ := ih (by omega) hl'
      refine ⟨t, by omega, he, fun k htk hki => ?_⟩
      rcases Nat.lt_or_ge i k with hik | hik
      · obtain rfl : k = i + 1 := by omega
        exact ⟨hl, rfl⟩
      · rw [ht]; exact hk k htk hik
    · refine ⟨i, Nat.lt_succ_self i, he, fun k htk hki => ?_⟩
      obtain rfl : k = i + 1 := by omega
      exact ⟨hl, rfl⟩

/-- **Election safety**: a term has at most one leader. -/
theorem leader_unique [DecidableEq Node] {i j : ℕ} (hi : i ≤ h.length) (hj : j ≤ h.length)
    {a b : Node} (ha : h.leads i a) (hb : h.leads j b) (ht : h.term i a = h.term j b) : a = b := by
  obtain ⟨t, hti, hea, hka⟩ := h.exists_elected hi ha
  obtain ⟨u, huj, heb, hkb⟩ := h.exists_elected hj hb
  obtain ⟨Q, hQ, hvQ⟩ := hea.quorum
  obtain ⟨R, hR, hvR⟩ := heb.quorum
  obtain ⟨v, hv1, hv2⟩ := hQ.exists_mem_both hR
  obtain ⟨p, hp, htp, hcp, -⟩ := hvQ v hv1
  obtain ⟨q, hq, htq, hcq, -⟩ := hvR v hv2
  have hta : h.term (t + 1) a = h.term i a := (hka (t + 1) (by omega) hti).2
  have htb : h.term (u + 1) b = h.term j b := (hkb (u + 1) (by omega) huj).2
  exact h.vote_unique (by omega) (by omega) (by omega) hcp hcq

/-- Between two times at which it leads a term, a node leads that term. -/
theorem leads_between {i k j : ℕ} (hik : i ≤ k) (hkj : k ≤ j) (hj : j ≤ h.length) {a : Node}
    (hi : h.leads i a) (hl : h.leads j a) (ht : h.term i a = h.term j a) :
    h.leads k a ∧ h.term k a = h.term j a := by
  obtain ⟨t, htj, he, hk⟩ := h.exists_elected hj hl
  have hti : t < i := by
    by_contra hc
    have := he.fresh i (by omega) hi
    rw [(hk (t + 1) (by omega) htj).2] at this
    exact this ht
  exact hk k (by omega) hkj

/-- The log of a leader only grows during its term. -/
theorem leader_log_mono {i j : ℕ} (hij : i ≤ j) (hj : j ≤ h.length) {a : Node}
    (hi : h.leads i a) (hl : h.leads j a) (ht : h.term i a = h.term j a) :
    h.log i a <+: h.log j a := by
  have key : ∀ k, i ≤ k → k ≤ j → h.log i a <+: h.log k a := by
    intro k hik
    induction k, hik using Nat.le_induction with
    | base => exact fun _ => List.prefix_rfl
    | succ k hik ih =>
      intro hkj
      have hlk := (h.leads_between (by omega) hkj hj hi hl ht).1
      cases h.log_step k (by omega) a with
      | same he => rw [he]; exact ih (by omega)
      | append e _ _ _ he => rw [he]; exact (ih (by omega)).trans (List.prefix_append _ _)
      | adopt _ _ _ _ hn => exact absurd hlk hn
  exact key j hij (Nat.le_refl j)

theorem leader_logs_comparable [DecidableEq Node] {i j : ℕ} (hi : i ≤ h.length)
    (hj : j ≤ h.length) {a b : Node} (ha : h.leads i a) (hb : h.leads j b)
    (ht : h.term i a = h.term j b) : h.log i a <+: h.log j b ∨ h.log j b <+: h.log i a := by
  obtain rfl := h.leader_unique hi hj ha hb ht
  rcases Nat.le_total i j with hij | hij
  · exact Or.inl (h.leader_log_mono hij hj ha hb ht)
  · exact Or.inr (h.leader_log_mono hij hi hb ha ht.symm)

/-! ## Authored front parts -/

/-- Up to time `i` a leader of term `T` had a log that starts with `p`. -/
def Authored (i T : ℕ) (p : List Entry) : Prop :=
  ∃ j ≤ i, ∃ a, h.leads j a ∧ h.term j a = T ∧ p <+: h.log j a

variable {h}

theorem Authored.mono {i j T : ℕ} {p : List Entry} (hp : h.Authored i T p) (hij : i ≤ j) :
    h.Authored j T p := by
  obtain ⟨k, hk, rest⟩ := hp
  exact ⟨k, hk.trans hij, rest⟩

theorem Authored.of_isPrefix {i T : ℕ} {p q : List Entry} (hq : h.Authored i T q) (hpq : p <+: q) :
    h.Authored i T p := by
  obtain ⟨k, hk, a, hl, ht, hqa⟩ := hq
  exact ⟨k, hk, a, hl, ht, hpq.trans hqa⟩

/-- Two lists that the leader of one term wrote are front parts of one another. -/
theorem Authored.comparable [DecidableEq Node] {i j T : ℕ} {p q : List Entry}
    (hi : i ≤ h.length) (hj : j ≤ h.length) (hp : h.Authored i T p) (hq : h.Authored j T q) :
    p <+: q ∨ q <+: p := by
  obtain ⟨k, hk, a, hla, hta, hpa⟩ := hp
  obtain ⟨m, hm, b, hlb, htb, hqb⟩ := hq
  rcases h.leader_logs_comparable (hk.trans hi) (hm.trans hj) hla hlb (hta.trans htb.symm) with
    hab | hba
  · exact List.prefix_or_prefix_of_prefix (hpa.trans hab) hqb
  · exact List.prefix_or_prefix_of_prefix hpa (hqb.trans hba)

/-- Every front part of `l` was written by the leader of its last entry's term. -/
def Matched (h : LogHistory Node tm) (i : ℕ) (l : List Entry) : Prop :=
  ∀ (k : ℕ) (e : Entry), l[k]? = some e → h.Authored i (tm e) (l.take (k + 1))

theorem Matched.mono {i j : ℕ} {l : List Entry} (hl : h.Matched i l) (hij : i ≤ j) :
    h.Matched j l :=
  fun k e he => (hl k e he).mono hij

theorem Matched.of_isPrefix {i : ℕ} {l m : List Entry} (hm : h.Matched i m) (hlm : l <+: m) :
    h.Matched i l := by
  intro k e he
  exact (hm k e (getElem?_of_isPrefix hlm he)).of_isPrefix (hlm.take (k + 1))

theorem Matched.matching [DecidableEq Node] {i j : ℕ} (hi : i ≤ h.length) (hj : j ≤ h.length)
    {l m : List Entry} (hl : h.Matched i l) (hm : h.Matched j m) : Matching tm l m := by
  intro k a b ha hb hab
  have hka : k < l.length := (List.getElem?_eq_some_iff.mp ha).1
  have hkb : k < m.length := (List.getElem?_eq_some_iff.mp hb).1
  have hlen : (l.take (k + 1)).length = (m.take (k + 1)).length := by
    rw [List.length_take, List.length_take]; omega
  rcases Authored.comparable hi hj (hl k a ha) (hab ▸ hm k b hb) with hp | hp
  · exact hp.eq_of_length hlen
  · exact (hp.eq_of_length hlen.symm).symm

/-- The whole of a matched log was written by the leader of its last term. -/
theorem Matched.authored_self {i : ℕ} {l : List Entry} {e : Entry} (hl : h.Matched i l)
    (he : l.getLast? = some e) : h.Authored i (tm e) l := by
  rw [List.getLast?_eq_getElem?] at he
  have hlt : l.length - 1 < l.length := (List.getElem?_eq_some_iff.mp he).1
  have := hl (l.length - 1) e he
  rwa [List.take_of_length_le (by omega)] at this

/-! ## Log matching -/

section Matching

variable [DecidableEq Node] (h)

/-- The two outcomes of adopting a part `m` of the leader's log. -/
theorem adopt_eq {i j k : ℕ} {v a : Node} {m : List Entry} (hi : i ≤ h.length)
    (hml : h.Matched i (h.log i v)) (hma : h.Matched j (h.log j a)) (hj : j ≤ i)
    (hm : m <+: h.log j a) (hk : k ≤ m.length)
    (hprev : ∀ p, k = p + 1 →
      ∃ e e', (h.log i v)[p]? = some e ∧ m[p]? = some e' ∧ tm e = tm e') :
    (m <+: h.log i v ∧ splice tm (h.log i v) k (m.drop k) = h.log i v) ∨
      (¬ m <+: h.log i v ∧ splice tm (h.log i v) k (m.drop k) = m) := by
  have hmatch : Matching tm (h.log i v) m :=
    hml.matching hi (hj.trans hi) (hma.of_isPrefix hm)
  refine splice_eq hmatch _ k rfl hk ?_
  cases k with
  | zero => simp
  | succ p =>
    obtain ⟨e, e', he, he', hee⟩ := hprev p rfl
    exact hmatch p e e' he he' hee

theorem matched_succ {i : ℕ} (hi : i < h.length) (ih : ∀ j ≤ i, ∀ v, h.Matched j (h.log j v))
    (v : Node) : h.Matched (i + 1) (h.log (i + 1) v) := by
  have hold : h.Matched (i + 1) (h.log i v) := (ih i (Nat.le_refl i) v).mono (Nat.le_succ i)
  cases h.log_step i hi v with
  | same he => rw [he]; exact hold
  | append e hl ht hte he =>
    intro k e' hk
    rw [he] at hk ⊢
    rcases Nat.lt_or_ge k (h.log i v).length with hlt | hge
    · rw [List.getElem?_append_left hlt] at hk
      rw [List.take_append_of_le_length hlt]
      exact hold k e' hk
    · -- the entry that was just written ends a log that the leader has at time `i + 1`
      rw [List.getElem?_append_right hge, List.getElem?_singleton] at hk
      split at hk
      · obtain rfl := Option.some.inj hk
        rw [List.take_of_length_le (by simp; omega), ← he, hte, ← ht]
        exact ⟨i + 1, Nat.le_refl _, v, hl, rfl, List.prefix_rfl⟩
      · exact absurd hk (by simp)
  | adopt j a m k hn hj hl ht hm hk hprev he =>
    rcases h.adopt_eq (by omega) (ih i (Nat.le_refl i) v) (ih j hj a) hj hm hk hprev with
      ⟨-, hs⟩ | ⟨-, hs⟩
    · rw [he, hs]; exact hold
    · rw [he, hs]; exact ((ih j hj a).of_isPrefix hm).mono (by omega)

/-- **Log matching**: every log of a history is matched. -/
theorem matched {i : ℕ} (hi : i ≤ h.length) (v : Node) : h.Matched i (h.log i v) := by
  have key : ∀ i, i ≤ h.length → ∀ j ≤ i, ∀ v, h.Matched j (h.log j v) := by
    intro i
    induction i with
    | zero =>
      intro _ j hj v
      obtain rfl : j = 0 := by omega
      intro k e he
      rw [h.log_zero v] at he
      simp at he
    | succ i ih =>
      intro hi j hj v
      rcases Nat.lt_or_ge i j with hij | hij
      · obtain rfl : j = i + 1 := by omega
        exact h.matched_succ hi (ih (by omega)) v
      · exact ih (by omega) j hij v
  exact key i hi i (Nat.le_refl i) v

theorem adopt_cases {i j k : ℕ} {v a : Node} {m : List Entry} (hi : i ≤ h.length) (hj : j ≤ i)
    (hm : m <+: h.log j a) (hk : k ≤ m.length)
    (hprev : ∀ p, k = p + 1 →
      ∃ e e', (h.log i v)[p]? = some e ∧ m[p]? = some e' ∧ tm e = tm e') :
    (m <+: h.log i v ∧ splice tm (h.log i v) k (m.drop k) = h.log i v) ∨
      (¬ m <+: h.log i v ∧ splice tm (h.log i v) k (m.drop k) = m) :=
  h.adopt_eq hi (h.matched hi v) (h.matched (hj.trans hi) a) hj hm hk hprev

/-! ## Terms of entries -/

/-- The terms in a log do not exceed the term of its node. -/
theorem entry_term_le {i : ℕ} (hi : i ≤ h.length) :
    ∀ v, ∀ e ∈ h.log i v, tm e ≤ h.term i v := by
  induction i using Nat.strong_induction_on with
  | _ i ih =>
    cases i with
    | zero => intro v e he; rw [h.log_zero v] at he; simp at he
    | succ i =>
      intro v e he
      have hmono := h.term_step i hi v
      have hold : ∀ e ∈ h.log i v, tm e ≤ h.term (i + 1) v :=
        fun e he => (ih i (Nat.lt_succ_self i) (by omega) v e he).trans hmono
      cases h.log_step i hi v with
      | same heq => rw [heq] at he; exact hold e he
      | append x _ ht hx heq =>
        rw [heq, List.mem_append, List.mem_singleton] at he
        rcases he with he | rfl
        · exact hold e he
        · omega
      | adopt j a m k _ hj _ ht hm hk hprev heq =>
        rcases h.adopt_cases (by omega) hj hm hk hprev with ⟨-, hs⟩ | ⟨-, hs⟩
        · rw [heq, hs] at he; exact hold e he
        · rw [heq, hs] at he
          rw [← ht]
          exact ih j (by omega) (by omega) a e (hm.subset he)

/-- The terms in a log never go down. -/
theorem terms_sorted {i : ℕ} (hi : i ≤ h.length) :
    ∀ v, (h.log i v).Pairwise (fun a b => tm a ≤ tm b) := by
  induction i using Nat.strong_induction_on with
  | _ i ih =>
    cases i with
    | zero => intro v; rw [h.log_zero v]; exact List.Pairwise.nil
    | succ i =>
      intro v
      have hold := ih i (Nat.lt_succ_self i) (by omega) v
      cases h.log_step i hi v with
      | same heq => rw [heq]; exact hold
      | append x _ _ hx heq =>
        rw [heq, List.pairwise_append]
        refine ⟨hold, List.pairwise_singleton _ _, fun a ha b hb => ?_⟩
        obtain rfl := List.mem_singleton.mp hb
        rw [hx]
        exact h.entry_term_le (by omega) v a ha
      | adopt j a m k _ hj _ _ hm hk hprev heq =>
        rcases h.adopt_cases (by omega) hj hm hk hprev with ⟨-, hs⟩ | ⟨-, hs⟩
        · rw [heq, hs]; exact hold
        · rw [heq, hs]; exact (ih j (by omega) (by omega) a).sublist hm.sublist

/-! ## What a log keeps -/

/-- A step keeps the front part `c` of a log when `c` does not conflict with any log that the
leader of the new term has had. -/
theorem keep_step {i : ℕ} (hi : i < h.length) {v : Node} {c : List Entry} (hc : c <+: h.log i v)
    (hl : ∀ j ≤ i, ∀ a, h.leads j a → h.term j a = h.term (i + 1) v →
      c <+: h.log j a ∨ h.log j a <+: c) : c <+: h.log (i + 1) v := by
  cases h.log_step i hi v with
  | same heq => rw [heq]; exact hc
  | append x _ _ _ heq => rw [heq]; exact hc.trans (List.prefix_append _ _)
  | adopt j a m k _ hj hla ht hm hk hprev heq =>
    have hcm : c <+: m ∨ m <+: c := by
      rcases hl j hj a hla ht with hca | hac
      · exact List.prefix_or_prefix_of_prefix hca hm
      · exact Or.inr (hm.trans hac)
    rcases h.adopt_cases (by omega) hj hm hk hprev with ⟨-, hs⟩ | ⟨hnot, hs⟩
    · rw [heq, hs]; exact hc
    · rw [heq, hs]
      exact hcm.resolve_right fun hmc => hnot (hmc.trans hc)

/-! ## Leader completeness -/

/-- The log `p` ends with an entry of term `T` and a majority held it while in term `T`. -/
structure Committed (T : ℕ) (p : List Entry) : Prop where
  last : ∃ e, p.getLast? = some e ∧ tm e = T
  quorum : ∃ Q : Finset Node, IsMajority Q ∧
    ∀ v ∈ Q, ∃ j ≤ h.length, h.term j v = T ∧ p <+: h.log j v

variable {h}

omit [DecidableEq Node] in
theorem Committed.ne_nil {T : ℕ} {p : List Entry} (hc : h.Committed T p) : p ≠ [] := by
  obtain ⟨e, he, -⟩ := hc.last
  rintro rfl
  simp at he

theorem Committed.authored {T : ℕ} {p : List Entry} (hc : h.Committed T p) :
    h.Authored h.length T p := by
  obtain ⟨Q, hQ, hv⟩ := hc.quorum
  obtain ⟨v, hvQ, -⟩ := hQ.exists_mem_both hQ
  obtain ⟨j, hj, -, hp⟩ := hv v hvQ
  obtain ⟨e, he, rfl⟩ := hc.last
  exact (((h.matched hj v).of_isPrefix hp).authored_self he).mono hj

/-- No entry of a committed log has a higher term than the last. -/
theorem Committed.term_le {T : ℕ} {p : List Entry} (hc : h.Committed T p) {e : Entry}
    (he : e ∈ p) : tm e ≤ T := by
  obtain ⟨j, hj, a, -, ht, hp⟩ := hc.authored
  obtain ⟨x, hx, rfl⟩ := hc.last
  have hsort : p.Pairwise (fun a b => tm a ≤ tm b) := (h.terms_sorted hj a).sublist hp.sublist
  obtain ⟨front, rfl⟩ := List.getLast?_eq_some_iff.mp hx
  rcases List.mem_append.mp he with hf | hl
  · exact (List.pairwise_append.mp hsort).2.2 e hf x (List.mem_singleton_self x)
  · rw [List.mem_singleton.mp hl]

omit [DecidableEq Node] in
/-- A log that starts with a committed log of term `T` has a last term of at least `T`. -/
theorem Committed.le_lastTerm {T : ℕ} {p l : List Entry} (hc : h.Committed T p)
    (hl : l.Pairwise (fun a b => tm a ≤ tm b)) (hp : p <+: l) : T ≤ lastTerm tm l := by
  obtain ⟨e, he, rfl⟩ := hc.last
  have hel : e ∈ l := hp.subset (List.mem_of_getLast? he)
  obtain ⟨x, hx⟩ : ∃ x, l.getLast? = some x :=
    Option.isSome_iff_exists.mp (List.getLast?_isSome.mpr (List.ne_nil_of_mem hel))
  obtain ⟨front, rfl⟩ := List.getLast?_eq_some_iff.mp hx
  rw [lastTerm, hx, Option.map_some, Option.getD_some]
  rcases List.mem_append.mp hel with hf | hf
  · exact (List.pairwise_append.mp hl).2.2 e hf x (List.mem_singleton_self x)
  · rw [List.mem_singleton.mp hf]

/-- What leader completeness says of the leaders of terms below `U`. -/
def CompleteBelow (h : LogHistory Node tm) (T U : ℕ) (p : List Entry) : Prop :=
  ∀ i ≤ h.length, ∀ a, h.leads i a → T < h.term i a → h.term i a < U → p <+: h.log i a

/-- A committed log that a node held in its term stays there as long as only leaders of terms
below `U` write to the node. -/
theorem Committed.kept {T U : ℕ} {p : List Entry} (hc : h.Committed T p)
    (hU : CompleteBelow h T U p) {v : Node} {i j : ℕ} (hij : i ≤ j) (hj : j ≤ h.length)
    (hti : h.term i v = T) (hp : p <+: h.log i v)
    (hlead : ∀ k < j, ∀ a, h.leads k a → h.term k a ≤ h.term j v → h.term k a < U) :
    p <+: h.log j v := by
  have key : ∀ k, i ≤ k → k ≤ j → p <+: h.log k v := by
    intro k hik
    induction k, hik using Nat.le_induction with
    | base => exact fun _ => hp
    | succ k hik ih =>
      intro hkj
      refine h.keep_step (by omega) (ih (by omega)) (fun m hm a hl ht => ?_)
      have hT : T ≤ h.term m a := by
        rw [ht, ← hti]; exact h.term_mono (by omega) (by omega) v
      rcases Nat.eq_or_lt_of_le hT with heq | hlt
      · -- the leader that wrote the committed log itself
        exact Authored.comparable (Nat.le_refl _) (by omega) hc.authored
          ⟨m, Nat.le_refl m, a, hl, heq.symm, List.prefix_rfl⟩
      · refine Or.inl (hU m (by omega) a hl hlt ?_)
        exact hlead m (by omega) a hl (ht ▸ h.term_mono hkj hj v)
  exact key j hij (Nat.le_refl j)

/-- The log of a candidate that is at least as up to date as a voter's log that starts with `p`
starts with `p` too. -/
theorem Committed.of_upToDate {T U t j : ℕ} {p : List Entry} (hc : h.Committed T p)
    (hU : CompleteBelow h T U p) {a v : Node} (ht : t ≤ h.length) (hj : j ≤ h.length)
    (hup : UpToDate tm (h.log t a) (h.log j v)) (hp : p <+: h.log j v)
    (hlast : ∀ e, (h.log t a).getLast? = some e → tm e < U) : p <+: h.log t a := by
  have hTv : T ≤ lastTerm tm (h.log j v) := hc.le_lastTerm (h.terms_sorted hj v) hp
  have hvlen : (h.log j v).length ≠ 0 := by
    intro h0
    rw [List.length_eq_zero_iff.mp h0] at hp
    exact hc.ne_nil (List.prefix_nil.mp hp)
  obtain ⟨y, hy⟩ : ∃ y, (h.log j v).getLast? = some y :=
    Option.isSome_iff_exists.mp
      (List.getLast?_isSome.mpr fun h0 => hvlen (List.length_eq_zero_iff.mpr h0))
  have hvt : lastTerm tm (h.log j v) = tm y := by
    rw [lastTerm, hy, Option.map_some, Option.getD_some]
  -- the candidate's log is not empty either
  have hane : (h.log t a) ≠ [] := by
    intro h0
    rw [h0] at hup
    rcases hup with hlt | ⟨-, hle⟩
    · exact absurd hlt (Nat.not_lt_zero _)
    · exact hvlen (by simpa using hle)
  obtain ⟨x, hx⟩ : ∃ x, (h.log t a).getLast? = some x :=
    Option.isSome_iff_exists.mp (List.getLast?_isSome.mpr hane)
  have hat : lastTerm tm (h.log t a) = tm x := by
    rw [lastTerm, hx, Option.map_some, Option.getD_some]
  have hAx : h.Authored t (tm x) (h.log t a) := (h.matched ht a).authored_self hx
  rcases hup with hlt | ⟨heq, hlen⟩
  · -- a higher last term: its leader has `p`, and the entry of that term comes after `p`
    obtain ⟨m, hm, b, hl, htm, hab⟩ := hAx
    have hpb : p <+: h.log m b :=
      hU m (by omega) b hl (by omega) (by rw [htm]; exact hlast x hx)
    refine (List.prefix_or_prefix_of_prefix hpb hab).resolve_right fun hap => ?_
    have : tm x ≤ T := hc.term_le (hap.subset (List.mem_of_getLast? hx))
    omega
  · -- the same last term: both logs are front parts of what one leader wrote
    have hAy : h.Authored j (tm y) (h.log j v) := (h.matched hj v).authored_self hy
    have hxy : tm y = tm x := by omega
    rcases Authored.comparable hj ht (hxy ▸ hAy) hAx with hva | hav
    · exact hp.trans hva
    · rw [hav.eq_of_length_le hlen]; exact hp

/-- **Leader completeness**: a committed log is at the front of the log of every leader of a later
term, at every time of its leadership. -/
theorem leader_complete {T : ℕ} {p : List Entry} (hc : h.Committed T p) {i : ℕ}
    (hi : i ≤ h.length) {a : Node} (hl : h.leads i a) (hT : T < h.term i a) :
    p <+: h.log i a := by
  -- strong induction on the term of the leader
  have key : ∀ U, CompleteBelow h T U p := by
    intro U
    induction U with
    | zero => intro i _ a _ _ h0; omega
    | succ U ih =>
      intro i hi a hl hT hU
      rcases Nat.lt_or_ge (h.term i a) U with hlt | hge
      · exact ih i hi a hl hT hlt
      have hUa : h.term i a = U := by omega
      obtain ⟨t, hti, he, hk⟩ := h.exists_elected hi hl
      obtain ⟨hlt, htt⟩ := hk (t + 1) (by omega) hti
      -- a voter of the election that also held `p`
      obtain ⟨Q, hQ, hvQ⟩ := he.quorum
      obtain ⟨R, hR, hvR⟩ := hc.quorum
      obtain ⟨v, hv1, hv2⟩ := hQ.exists_mem_both hR
      obtain ⟨j, hj, htj, -, hup⟩ := hvQ v hv1
      obtain ⟨k, hk', htk, hpk⟩ := hvR v hv2
      have hkj : k ≤ j := by
        by_contra hc'
        have := h.term_mono (i := j) (j := k) (by omega) hk' v
        omega
      -- no leader of term `U` writes to the voter before its vote
      have hno : ∀ m ≤ t, ∀ b, h.leads m b → h.term m b ≠ U := by
        intro m hm b hlb htb
        obtain rfl := h.leader_unique (i := m) (j := i) (by omega) hi hlb hl (by omega)
        exact he.fresh m hm hlb (by omega)
      have hpj : p <+: h.log j v := by
        refine hc.kept ih hkj (by omega) htk hpk (fun m hm b hlb htb => ?_)
        have := hno m (by omega) b hlb
        omega
      have hpt : p <+: h.log (t + 1) a := by
        refine hc.of_upToDate ih (by omega) (by omega) hup hpj (fun e he' => ?_)
        rw [he.log_eq] at he'
        obtain ⟨m, hm, b, hlb, htb, -⟩ := (h.matched (by omega) a).authored_self he'
        have hle : tm e ≤ h.term t a :=
          h.entry_term_le (by omega) a e (List.mem_of_getLast? he')
        have hta := h.term_step t (by omega) a
        have := hno m hm b hlb
        omega
      exact hpt.trans (h.leader_log_mono hti hi hlt hl htt)
  exact key (h.term i a + 1) i hi a hl hT (Nat.lt_succ_self _)

/-- **Two committed logs are front parts of one another.** -/
theorem committed_comparable {T U : ℕ} {p q : List Entry} (hp : h.Committed T p)
    (hq : h.Committed U q) : p <+: q ∨ q <+: p := by
  -- the leader of the higher term has both logs at the front of its own
  have key : ∀ {T U : ℕ} {p q : List Entry}, h.Committed T p → h.Committed U q → T < U →
      p <+: q ∨ q <+: p := by
    intro T U p q hp hq hlt
    obtain ⟨i, hi, a, hl, rfl, hqa⟩ := hq.authored
    exact List.prefix_or_prefix_of_prefix (leader_complete hp hi hl hlt) hqa
  rcases Nat.lt_trichotomy T U with hlt | rfl | hgt
  · exact key hp hq hlt
  · exact Authored.comparable (Nat.le_refl _) (Nat.le_refl _) hp.authored hq.authored
  · exact (key hq hp hgt).symm

/-- A front part `c` of a committed log of term `T` stays at the front of the log of a node whose
term is at least `T`. -/
theorem Committed.keep {T : ℕ} {p c : List Entry} (hp : h.Committed T p) (hcp : c <+: p) {i : ℕ}
    (hi : i < h.length) {v : Node} (hT : T ≤ h.term i v) (hc : c <+: h.log i v) :
    c <+: h.log (i + 1) v := by
  refine h.keep_step hi hc (fun j hj a hl ht => ?_)
  have hmono := h.term_step i hi v
  rcases Nat.eq_or_lt_of_le (show T ≤ h.term j a by omega) with heq | hlt
  · exact Authored.comparable (Nat.le_refl _) (by omega) (hp.authored.of_isPrefix hcp)
      ⟨j, Nat.le_refl j, a, hl, heq.symm, List.prefix_rfl⟩
  · exact Or.inl (hcp.trans (leader_complete hp (by omega) hl hlt))

end Matching

end LogHistory

end Infra
