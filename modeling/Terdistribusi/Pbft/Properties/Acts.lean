import Terdistribusi.Pbft.Cluster

/-!
# The branches of the PBFT handlers

`Acts` lists what a node can do with an input, one constructor for each branch of the source, with
the guards of that branch. `acts_act` says that the handlers do nothing else, and every proof about
a step goes by this list.

The lemmas after it say what can become of an entry (`Acts.grown`), where an entry and its votes
come from (`Acts.entry`), what is sent (`Acts.sends`) and what is applied (`Acts.applied`).
-/

namespace Pbft

open Infra

variable {NodeId Operation Digest : Type} [LinearOrder NodeId]

/-- The node with another entry under `seqNum`. -/
abbrev PBFTNode.withEntry (n : PBFTNode NodeId Operation Digest) (seqNum : ℤ)
    (e : PBFTLogEntry NodeId Operation Digest) : PBFTNode NodeId Operation Digest :=
  { n with log := n.log.set seqNum e }

/-- The checks at the start of the handlers reject the message. -/
def Ignores (cfg : Config NodeId Operation Digest)
    (n : PBFTNode NodeId Operation Digest) (m : Message NodeId (Payload Operation Digest)) : Prop :=
  match m.payload with
  | .prePrepare view _ digest request =>
    ¬ (view = n.view ∧ m.senderId = cfg.primary n.view ∧ digest = cfg.computeDigest request)
  | .prepare _ seqNum digest | .commit _ seqNum digest =>
    ∀ e, n.log.get? seqNum = some e → e.digest ≠ digest

/-- What node `cfg.nodeId` makes of an input: its new state and the messages it sends. -/
inductive Acts (cfg : Config NodeId Operation Digest) (n : PBFTNode NodeId Operation Digest) :
    Input NodeId (PBFTRequest Operation) Unit (Payload Operation Digest) →
      PBFTNode NodeId Operation Digest → List (Message NodeId (Payload Operation Digest)) → Prop
  | refused {request} (hprimary : cfg.primary n.view ≠ cfg.nodeId) :
      Acts cfg n (.call request) n []
  | ignored {env m} (hm : Ignores cfg n m) : Acts cfg n (.receive env m) n []
  | submitted {request} (hprimary : cfg.primary n.view = cfg.nodeId) :
      Acts cfg n (.call request)
        { n.withEntry (n.seqNum + 1)
            { seqNum := n.seqNum + 1, view := n.view, request := request,
              digest := cfg.computeDigest request, prePrepareReceived := true } with
          seqNum := n.seqNum + 1 }
        (Network.broadcast cfg.nodeId cfg.peers
          (.prePrepare n.view (n.seqNum + 1) (cfg.computeDigest request) request))
  | accepted {env m seqNum request}
      (hm : m.payload = .prePrepare n.view seqNum (cfg.computeDigest request) request)
      (hprimary : m.senderId = cfg.primary n.view) (hget : n.log.get? seqNum = none) :
      Acts cfg n (.receive env m)
        (n.withEntry seqNum
          { seqNum := seqNum, view := n.view, request := request,
            digest := cfg.computeDigest request, prePrepareReceived := true,
            prepares := {cfg.nodeId} })
        (Network.broadcast cfg.nodeId cfg.peers
          (.prepare n.view seqNum (cfg.computeDigest request)))
  | repeated {env m seqNum request e}
      (hm : m.payload = .prePrepare n.view seqNum (cfg.computeDigest request) request)
      (hprimary : m.senderId = cfg.primary n.view) (hget : n.log.get? seqNum = some e) :
      Acts cfg n (.receive env m)
        (n.withEntry seqNum
          { e with prePrepareReceived := true, prepares := insert cfg.nodeId e.prepares })
        (Network.broadcast cfg.nodeId cfg.peers
          (.prepare n.view seqNum (cfg.computeDigest request)))
  | prepared {env m view seqNum e} (hm : m.payload = .prepare view seqNum e.digest)
      (hget : n.log.get? seqNum = some e)
      (hwait : ¬ (e.prePrepareReceived = true ∧ 2 * cfg.f ≤ (insert m.senderId e.prepares).card ∧
        m.senderId ∉ e.commits)) :
      Acts cfg n (.receive env m)
        (n.withEntry seqNum { e with prepares := insert m.senderId e.prepares }) []
  | promised {env m view seqNum e} (hm : m.payload = .prepare view seqNum e.digest)
      (hget : n.log.get? seqNum = some e) (hreceived : e.prePrepareReceived = true)
      (hquorum : 2 * cfg.f ≤ (insert m.senderId e.prepares).card)
      (hsender : m.senderId ∉ e.commits) :
      Acts cfg n (.receive env m)
        (n.withEntry seqNum
          { e with
            prepares := insert m.senderId e.prepares
            commits := insert cfg.nodeId e.commits })
        (Network.broadcast cfg.nodeId cfg.peers (.commit n.view seqNum e.digest))
  | counted {env m view seqNum e} (hm : m.payload = .commit view seqNum e.digest)
      (hget : n.log.get? seqNum = some e)
      (hwait : ¬ (2 * cfg.f + 1 ≤ (insert m.senderId e.commits).card ∧ ¬ e.committed = true)) :
      Acts cfg n (.receive env m)
        (n.withEntry seqNum { e with commits := insert m.senderId e.commits }) []
  | executed {env m view seqNum e} (hm : m.payload = .commit view seqNum e.digest)
      (hget : n.log.get? seqNum = some e)
      (hquorum : 2 * cfg.f + 1 ≤ (insert m.senderId e.commits).card)
      (hopen : ¬ e.committed = true) :
      Acts cfg n (.receive env m)
        (PBFTNode.apply { e with commits := insert m.senderId e.commits, committed := true }
          (n.withEntry seqNum
            { e with commits := insert m.senderId e.commits, committed := true })) []

section

variable [DecidableEq Digest] (cfg : Config NodeId Operation Digest)
  (n : PBFTNode NodeId Operation Digest)

theorem acts_onPrePrepare (env : Unit) (m : Message NodeId (Payload Operation Digest)) {view : ℕ}
    {seqNum : ℤ} {digest : Digest} {request : PBFTRequest Operation}
    (hm : m.payload = .prePrepare view seqNum digest request) :
    Acts cfg n (.receive env m)
      (PBFTNode.onPrePrepare cfg m.senderId view seqNum digest request n).1
      (PBFTNode.onPrePrepare cfg m.senderId view seqNum digest request n).2 := by
  have hignores : ¬ (view = n.view ∧ m.senderId = cfg.primary n.view ∧
      digest = cfg.computeDigest request) → Ignores cfg n m := by
    intro h
    unfold Ignores
    rwa [hm]
  unfold PBFTNode.onPrePrepare
  by_cases hview : view = n.view
  · rw [if_neg (not_not.mpr hview)]
    by_cases hsender : m.senderId = cfg.primary n.view
    · rw [if_neg (not_not.mpr hsender)]
      by_cases hdigest : digest = cfg.computeDigest request
      · rw [if_neg (not_not.mpr hdigest)]
        subst hview hdigest
        cases hget : n.log.get? seqNum with
        | none => exact .accepted hm hsender hget
        | some e => exact .repeated hm hsender hget
      · rw [if_pos hdigest]
        exact .ignored (hignores fun h => hdigest h.2.2)
    · rw [if_pos hsender]
      exact .ignored (hignores fun h => hsender h.2.1)
  · rw [if_pos hview]
    exact .ignored (hignores fun h => hview h.1)

theorem acts_onPrepare (env : Unit) (m : Message NodeId (Payload Operation Digest)) {view : ℕ}
    {seqNum : ℤ} {digest : Digest} (hm : m.payload = .prepare view seqNum digest) :
    Acts cfg n (.receive env m) (PBFTNode.onPrepare cfg m.senderId seqNum digest n).1
      (PBFTNode.onPrepare cfg m.senderId seqNum digest n).2 := by
  have hignores : (∀ e, n.log.get? seqNum = some e → e.digest ≠ digest) → Ignores cfg n m := by
    intro h
    unfold Ignores
    rwa [hm]
  unfold PBFTNode.onPrepare
  cases hget : n.log.get? seqNum with
  | none => exact .ignored (hignores fun e he => by rw [hget] at he; cases he)
  | some e =>
    dsimp only
    by_cases hdigest : e.digest = digest
    · subst hdigest
      rw [if_neg (not_not.mpr rfl)]
      split
      · next h => exact .promised hm hget h.1 h.2.1 h.2.2
      · next h => exact .prepared hm hget h
    · rw [if_pos hdigest]
      refine .ignored (hignores fun e' he' => ?_)
      rwa [← Option.some.inj (hget.symm.trans he')]

theorem acts_onCommit (env : Unit) (m : Message NodeId (Payload Operation Digest)) {view : ℕ}
    {seqNum : ℤ} {digest : Digest} (hm : m.payload = .commit view seqNum digest) :
    Acts cfg n (.receive env m) (PBFTNode.onCommit cfg m.senderId seqNum digest n).1
      (PBFTNode.onCommit cfg m.senderId seqNum digest n).2 := by
  have hignores : (∀ e, n.log.get? seqNum = some e → e.digest ≠ digest) → Ignores cfg n m := by
    intro h
    unfold Ignores
    rwa [hm]
  unfold PBFTNode.onCommit
  cases hget : n.log.get? seqNum with
  | none => exact .ignored (hignores fun e he => by rw [hget] at he; cases he)
  | some e =>
    dsimp only
    by_cases hdigest : e.digest = digest
    · subst hdigest
      rw [if_neg (not_not.mpr rfl)]
      split
      · next h => exact .executed hm hget h.1 h.2
      · next h => exact .counted hm hget h
    · rw [if_pos hdigest]
      refine .ignored (hignores fun e' he' => ?_)
      rwa [← Option.some.inj (hget.symm.trans he')]

/-- **The handlers do nothing else.** -/
theorem acts_act (inp : Input NodeId (PBFTRequest Operation) Unit (Payload Operation Digest)) :
    Acts cfg n inp (PBFTNode.act cfg inp n).1 (PBFTNode.act cfg inp n).2 := by
  cases inp with
  | call request =>
    show Acts cfg n (.call request) (PBFTNode.submit cfg request n).2.1
      (PBFTNode.submit cfg request n).2.2
    unfold PBFTNode.submit
    split
    · next h => exact .refused h
    · next h => exact .submitted (not_not.mp h)
  | receive env m =>
    show Acts cfg n (.receive env m) (PBFTNode.handlePrePrepare cfg m n).1
      (PBFTNode.handlePrePrepare cfg m n).2
    unfold PBFTNode.handlePrePrepare
    cases hm : m.payload with
    | prePrepare view seqNum digest request => exact acts_onPrePrepare cfg n env m hm
    | prepare view seqNum digest => exact acts_onPrepare cfg n env m hm
    | commit view seqNum digest => exact acts_onCommit cfg n env m hm

end

/-! ## Applying -/

section Apply

variable (e : PBFTLogEntry NodeId Operation Digest) (n : PBFTNode NodeId Operation Digest)

omit [LinearOrder NodeId] in
@[simp] theorem apply_log : (PBFTNode.apply e n).log = n.log := by
  unfold PBFTNode.apply; split <;> rfl

omit [LinearOrder NodeId] in
@[simp] theorem apply_view : (PBFTNode.apply e n).view = n.view := by
  unfold PBFTNode.apply; split <;> rfl

omit [LinearOrder NodeId] in
@[simp] theorem apply_seqNum : (PBFTNode.apply e n).seqNum = n.seqNum := by
  unfold PBFTNode.apply; split <;> rfl

omit [LinearOrder NodeId] in
theorem mem_applied_apply : e.seqNum ∈ (PBFTNode.apply e n).applied.map Prod.fst := by
  unfold PBFTNode.apply
  split
  · assumption
  · simp

end Apply

/-! ## What a node has seen

A message is about a proposal, or a PREPARE or COMMIT of some node, under a number: its label. A
node has seen a label when its entry shows it. -/

/-- What a message is about, apart from its number. -/
inductive Kind (NodeId : Type)
  | proposal
  | prepare (x : NodeId)
  | commit (x : NodeId)

abbrev Label (NodeId : Type) := Kind NodeId × ℤ

/-- The label of a payload from node `x`. -/
def labelOf (x : NodeId) : Payload Operation Digest → Label NodeId
  | .prePrepare _ seqNum _ _ => (.proposal, seqNum)
  | .prepare _ seqNum _ => (.prepare x, seqNum)
  | .commit _ seqNum _ => (.commit x, seqNum)

def label (m : Message NodeId (Payload Operation Digest)) : Label NodeId :=
  labelOf m.senderId m.payload

/-- The entry shows a message of this kind. -/
def Shows (e : PBFTLogEntry NodeId Operation Digest) : Kind NodeId → Prop
  | .proposal => True
  | .prepare x => x ∈ e.prepares
  | .commit x => x ∈ e.commits

/-- The entry under the number of the label shows it. -/
def Seen (n : PBFTNode NodeId Operation Digest) (q : Label NodeId) : Prop :=
  ∃ e, n.log.get? q.2 = some e ∧ Shows e q.1

/-! ## What the branches have in common -/

/-- Entry `e` has become `e'`: the same request, and votes were only added. -/
structure Grown (e e' : PBFTLogEntry NodeId Operation Digest) : Prop where
  seqNum : e'.seqNum = e.seqNum
  request : e'.request = e.request
  digest : e'.digest = e.digest
  received : e.prePrepareReceived = true → e'.prePrepareReceived = true
  prepares : e.prepares ⊆ e'.prepares
  commits : e.commits ⊆ e'.commits
  committed : e.committed = true → e'.committed = true

omit [LinearOrder NodeId] in
theorem Grown.refl (e : PBFTLogEntry NodeId Operation Digest) : Grown e e :=
  ⟨rfl, rfl, rfl, id, fun _ h => h, fun _ h => h, id⟩

omit [LinearOrder NodeId] in
theorem Grown.trans {e₁ e₂ e₃ : PBFTLogEntry NodeId Operation Digest} (h : Grown e₁ e₂)
    (h' : Grown e₂ e₃) : Grown e₁ e₃ :=
  ⟨h'.seqNum.trans h.seqNum, h'.request.trans h.request, h'.digest.trans h.digest,
    fun hr => h'.received (h.received hr), h.prepares.trans h'.prepares,
    h.commits.trans h'.commits, fun hc => h'.committed (h.committed hc)⟩

namespace Acts

variable {cfg : Config NodeId Operation Digest} {n n' : PBFTNode NodeId Operation Digest}
  {inp : Input NodeId (PBFTRequest Operation) Unit (Payload Operation Digest)}
  {outs : List (Message NodeId (Payload Operation Digest))}

theorem view (h : Acts cfg n inp n' outs) : n'.view = n.view := by
  cases h <;> simp

/-- Only `submit` counts up, and makes an entry for its request. -/
theorem seqNum_cases (h : Acts cfg n inp n' outs) :
    n'.seqNum = n.seqNum ∧ (∀ request, inp = .call request → cfg.primary n.view ≠ cfg.nodeId) ∨
      n'.seqNum = n.seqNum + 1 ∧ ∃ request, inp = .call request ∧ cfg.primary n.view = cfg.nodeId ∧
        ∃ e, n'.log.get? n'.seqNum = some e ∧ e.request = request := by
  cases h with
  | refused hprimary => exact Or.inl ⟨rfl, fun _ _ => hprimary⟩
  | submitted hprimary =>
    exact Or.inr ⟨rfl, _, rfl, hprimary, _, Dict.get?_set_self _ _ _, rfl⟩
  | executed => exact Or.inl ⟨by simp, by simp⟩
  | _ => exact Or.inl ⟨rfl, by simp⟩

omit [LinearOrder NodeId] in
/-- An entry that is changed at one place of the log. -/
theorem grown_set {e e₁ : PBFTLogEntry NodeId Operation Digest} {k k' : ℤ}
    {log : Dict ℤ (PBFTLogEntry NodeId Operation Digest)} (hget : log.get? k = some e)
    (hgrown : Grown e e₁) {e' : PBFTLogEntry NodeId Operation Digest} (h : log.get? k' = some e') :
    ∃ e'', (log.set k e₁).get? k' = some e'' ∧ Grown e' e'' := by
  rw [Dict.get?_set]
  by_cases hk : k = k'
  · subst hk
    obtain rfl := Option.some.inj (hget.symm.trans h)
    exact ⟨e₁, if_pos rfl, hgrown⟩
  · exact ⟨e', by rw [if_neg hk, h], Grown.refl e'⟩

omit [LinearOrder NodeId] in
/-- An entry that is added under a free number. -/
theorem grown_of_free {e₁ : PBFTLogEntry NodeId Operation Digest} {k k' : ℤ}
    {log : Dict ℤ (PBFTLogEntry NodeId Operation Digest)} (hget : log.get? k = none)
    {e' : PBFTLogEntry NodeId Operation Digest} (h : log.get? k' = some e') :
    ∃ e'', (log.set k e₁).get? k' = some e'' ∧ Grown e' e'' := by
  have hk : k ≠ k' := by
    rintro rfl
    rw [h] at hget
    cases hget
  exact ⟨e', (Dict.get?_set_ne _ _ hk).trans h, Grown.refl e'⟩

/-- Entries stay and grow, unless a `submit` uses a number again. -/
theorem grown (h : Acts cfg n inp n' outs)
    (hfresh : ∀ request, inp = .call request → cfg.primary n.view = cfg.nodeId →
      n.log.get? (n.seqNum + 1) = none)
    {k : ℤ} {e : PBFTLogEntry NodeId Operation Digest} (he : n.log.get? k = some e) :
    ∃ e', n'.log.get? k = some e' ∧ Grown e e' := by
  cases h with
  | refused | ignored => exact ⟨e, he, Grown.refl e⟩
  | submitted hprimary => exact grown_of_free (hfresh _ rfl hprimary) he
  | accepted hm hprimary hget => exact grown_of_free hget he
  | repeated hm hprimary hget =>
    refine grown_set hget ?_ he
    exact ⟨rfl, rfl, rfl, fun _ => rfl, Finset.subset_insert _ _, fun _ hx => hx, id⟩
  | prepared hm hget hwait =>
    refine grown_set hget ?_ he
    exact ⟨rfl, rfl, rfl, id, Finset.subset_insert _ _, fun _ hx => hx, id⟩
  | promised hm hget hreceived hquorum hsender =>
    refine grown_set hget ?_ he
    exact ⟨rfl, rfl, rfl, id, Finset.subset_insert _ _, Finset.subset_insert _ _, id⟩
  | counted hm hget hwait =>
    refine grown_set hget ?_ he
    exact ⟨rfl, rfl, rfl, id, fun _ hx => hx, Finset.subset_insert _ _, id⟩
  | executed hm hget hquorum hopen =>
    rw [apply_log]
    refine grown_set hget ?_ he
    exact ⟨rfl, rfl, rfl, id, fun _ hx => hx, Finset.subset_insert _ _, fun _ => rfl⟩

end Acts

/-! ## Where entries, votes and messages come from -/

/-- What an entry under `k` is after a step that changed it, with the guards of the branch. -/
inductive Rewrites (cfg : Config NodeId Operation Digest) (n : PBFTNode NodeId Operation Digest)
    (inp : Input NodeId (PBFTRequest Operation) Unit (Payload Operation Digest))
    (n' : PBFTNode NodeId Operation Digest) (k : ℤ) :
    PBFTLogEntry NodeId Operation Digest → Prop
  | submitted {request} (hinp : inp = .call request) (hprimary : cfg.primary n.view = cfg.nodeId)
      (hk : k = n.seqNum + 1) :
      Rewrites cfg n inp n' k
        { seqNum := k, view := n.view, request := request, digest := cfg.computeDigest request,
          prePrepareReceived := true }
  | accepted {env m request} (hinp : inp = .receive env m)
      (hm : m.payload = .prePrepare n.view k (cfg.computeDigest request) request)
      (hprimary : m.senderId = cfg.primary n.view) (hget : n.log.get? k = none) :
      Rewrites cfg n inp n' k
        { seqNum := k, view := n.view, request := request, digest := cfg.computeDigest request,
          prePrepareReceived := true, prepares := {cfg.nodeId} }
  | repeated {env m request e} (hinp : inp = .receive env m)
      (hm : m.payload = .prePrepare n.view k (cfg.computeDigest request) request)
      (hprimary : m.senderId = cfg.primary n.view) (hget : n.log.get? k = some e) :
      Rewrites cfg n inp n' k
        { e with prePrepareReceived := true, prepares := insert cfg.nodeId e.prepares }
  | prepared {env m view e} (hinp : inp = .receive env m)
      (hm : m.payload = .prepare view k e.digest)
      (hget : n.log.get? k = some e)
      (hwait : ¬ (e.prePrepareReceived = true ∧ 2 * cfg.f ≤ (insert m.senderId e.prepares).card ∧
        m.senderId ∉ e.commits)) :
      Rewrites cfg n inp n' k { e with prepares := insert m.senderId e.prepares }
  | promised {env m view e} (hinp : inp = .receive env m)
      (hm : m.payload = .prepare view k e.digest)
      (hget : n.log.get? k = some e) :
      Rewrites cfg n inp n' k
        { e with
          prepares := insert m.senderId e.prepares
          commits := insert cfg.nodeId e.commits }
  | counted {env m view e} (hinp : inp = .receive env m) (hm : m.payload = .commit view k e.digest)
      (hget : n.log.get? k = some e)
      (hwait : ¬ (2 * cfg.f + 1 ≤ (insert m.senderId e.commits).card ∧ ¬ e.committed = true)) :
      Rewrites cfg n inp n' k { e with commits := insert m.senderId e.commits }
  | executed {env m view e} (hinp : inp = .receive env m) (hm : m.payload = .commit view k e.digest)
      (hget : n.log.get? k = some e) (happlied : e.seqNum ∈ n'.applied.map Prod.fst) :
      Rewrites cfg n inp n' k { e with commits := insert m.senderId e.commits, committed := true }

/-- The input is a message from `x` with payload `p`. -/
def Receives (inp : Input NodeId (PBFTRequest Operation) Unit (Payload Operation Digest))
    (x : NodeId)
    (p : Payload Operation Digest) : Prop :=
  ∃ env m, inp = .receive env m ∧ m.senderId = x ∧ m.payload = p

/-- Entry `e` under `k` has become `e'`: a new vote was received, or it is the node's own. -/
structure Changed (cfg : Config NodeId Operation Digest) (n : PBFTNode NodeId Operation Digest)
    (inp : Input NodeId (PBFTRequest Operation) Unit (Payload Operation Digest)) (k : ℤ)
    (e e' : PBFTLogEntry NodeId Operation Digest) : Prop extends Grown e e' where
  newPrepares : ∀ x ∈ e'.prepares, x ∈ e.prepares ∨
    (∃ v, Receives inp x (.prepare v k e.digest)) ∨
    x = cfg.nodeId ∧ ∃ d r, Receives inp (cfg.primary n.view) (.prePrepare n.view k d r)
  newCommits : ∀ x ∈ e'.commits, x ∈ e.commits ∨ x = cfg.nodeId ∨
    ∃ v, Receives inp x (.commit v k e.digest)

/-- Entry `e'` under `k` is new: it is the node's own submission or what the primary has sent. -/
structure Fresh (cfg : Config NodeId Operation Digest) (n : PBFTNode NodeId Operation Digest)
    (inp : Input NodeId (PBFTRequest Operation) Unit (Payload Operation Digest)) (k : ℤ)
    (e' : PBFTLogEntry NodeId Operation Digest) : Prop where
  seqNum : e'.seqNum = k
  digest : e'.digest = cfg.computeDigest e'.request
  received : e'.prePrepareReceived = true
  commits : e'.commits = ∅
  committed : e'.committed = false
  origin : (∃ request, inp = .call request ∧ cfg.primary n.view = cfg.nodeId ∧
      k = n.seqNum + 1 ∧ e'.prepares = ∅) ∨
    Receives inp (cfg.primary n.view) (.prePrepare n.view k e'.digest e'.request) ∧
      n.log.get? k = none ∧ e'.prepares = {cfg.nodeId}

/-- The only PREPARE of a new entry is the node's own, for what the primary has sent. -/
theorem Fresh.mem_prepares {cfg : Config NodeId Operation Digest}
    {n : PBFTNode NodeId Operation Digest}
    {inp : Input NodeId (PBFTRequest Operation) Unit (Payload Operation Digest)} {k : ℤ}
    {e' : PBFTLogEntry NodeId Operation Digest} (h : Fresh cfg n inp k e') {x : NodeId}
    (hx : x ∈ e'.prepares) : x = cfg.nodeId ∧
      Receives inp (cfg.primary n.view) (.prePrepare n.view k e'.digest e'.request) := by
  rcases h.origin with ⟨-, -, -, -, hnone⟩ | ⟨hr, -, hself⟩
  · rw [hnone] at hx
    exact absurd hx (Finset.notMem_empty x)
  · rw [hself, Finset.mem_singleton] at hx
    exact ⟨hx, hr⟩

/-- What stands behind a payload that node `cfg.nodeId` sends, once it has become `n'`. -/
def Behind (cfg : Config NodeId Operation Digest) (n : PBFTNode NodeId Operation Digest)
    (inp : Input NodeId (PBFTRequest Operation) Unit (Payload Operation Digest))
    (n' : PBFTNode NodeId Operation Digest) : Payload Operation Digest → Prop
  | .prePrepare v k d r => v = n.view ∧ cfg.primary v = cfg.nodeId ∧ inp = .call r ∧
      k = n.seqNum + 1 ∧ ∃ e, n'.log.get? k = some e ∧ e.digest = d ∧ e.request = r
  | .prepare v k d => v = n.view ∧ ∃ r, d = cfg.computeDigest r ∧
      Receives inp (cfg.primary v) (.prePrepare v k d r) ∧
      ∃ e, n'.log.get? k = some e ∧ cfg.nodeId ∈ e.prepares ∧
        (e.digest = d ∨ ∃ e₀, n.log.get? k = some e₀ ∧ e₀.digest = e.digest)
  | .commit v k d => v = n.view ∧ ∃ e, n'.log.get? k = some e ∧ e.digest = d ∧
      2 * cfg.f ≤ e.prepares.card ∧ cfg.nodeId ∈ e.commits ∧
      ∃ x v', Receives inp x (.prepare v' k d)

namespace Acts

variable {cfg : Config NodeId Operation Digest} {n n' : PBFTNode NodeId Operation Digest}
  {inp : Input NodeId (PBFTRequest Operation) Unit (Payload Operation Digest)}
  {outs : List (Message NodeId (Payload Operation Digest))}

/-- Every entry was there before, or the step has made it. -/
theorem rewrites (h : Acts cfg n inp n' outs) {k : ℤ} {e' : PBFTLogEntry NodeId Operation Digest}
    (he' : n'.log.get? k = some e') : n.log.get? k = some e' ∨ Rewrites cfg n inp n' k e' := by
  -- every step changes one entry at most
  have hset : ∀ {k₁ e₁}, (n.log.set k₁ e₁).get? k = some e' →
      n.log.get? k = some e' ∨ k₁ = k ∧ e₁ = e' := by
    intro k₁ e₁ h
    rw [Dict.get?_set] at h
    split at h
    · next hk => exact Or.inr ⟨hk, Option.some.inj h⟩
    · exact Or.inl h
  cases h with
  | refused | ignored => exact Or.inl he'
  | submitted hprimary =>
    rcases hset he' with he | ⟨rfl, rfl⟩
    · exact Or.inl he
    · exact Or.inr (.submitted rfl hprimary rfl)
  | accepted hm hprimary hget =>
    rcases hset he' with he | ⟨rfl, rfl⟩
    · exact Or.inl he
    · exact Or.inr (.accepted rfl hm hprimary hget)
  | repeated hm hprimary hget =>
    rcases hset he' with he | ⟨rfl, rfl⟩
    · exact Or.inl he
    · exact Or.inr (.repeated rfl hm hprimary hget)
  | prepared hm hget hwait =>
    rcases hset he' with he | ⟨rfl, rfl⟩
    · exact Or.inl he
    · exact Or.inr (.prepared rfl hm hget hwait)
  | promised hm hget =>
    rcases hset he' with he | ⟨rfl, rfl⟩
    · exact Or.inl he
    · exact Or.inr (.promised rfl hm hget)
  | counted hm hget hwait =>
    rcases hset he' with he | ⟨rfl, rfl⟩
    · exact Or.inl he
    · exact Or.inr (.counted rfl hm hget hwait)
  | executed hm hget =>
    rw [apply_log] at he'
    rcases hset he' with he | ⟨rfl, rfl⟩
    · exact Or.inl he
    · exact Or.inr (.executed rfl hm hget (mem_applied_apply _ _))

theorem changed_refl (k : ℤ) (e : PBFTLogEntry NodeId Operation Digest) :
    Changed cfg n inp k e e :=
  { Grown.refl e with newPrepares := fun _ h => Or.inl h, newCommits := fun _ h => Or.inl h }

/-- A voter after a vote of `x` has voted before, or is `x`. -/
theorem mem_vote {votes : Finset NodeId} {x : NodeId} {P : NodeId → Prop} (hx : P x) :
    ∀ y ∈ insert x votes, y ∈ votes ∨ P y := by
  intro y hy
  rcases Finset.mem_insert.mp hy with rfl | hy
  · exact Or.inr hx
  · exact Or.inl hy

/-- Every entry was there before or is new. -/
theorem entry (h : Acts cfg n inp n' outs) {k : ℤ} {e' : PBFTLogEntry NodeId Operation Digest}
    (he' : n'.log.get? k = some e') :
    (∃ e, n.log.get? k = some e ∧ Changed cfg n inp k e e') ∨ Fresh cfg n inp k e' := by
  rcases h.rewrites he' with he | hrewrites
  · exact Or.inl ⟨e', he, changed_refl k e'⟩
  · cases hrewrites with
    | @submitted request hinp hprimary hk =>
      exact Or.inr ⟨rfl, rfl, rfl, rfl, rfl, Or.inl ⟨request, hinp, hprimary, hk, rfl⟩⟩
    | @accepted env m request hinp hm hprimary hget =>
      exact Or.inr ⟨rfl, rfl, rfl, rfl, rfl, Or.inr ⟨⟨env, m, hinp, hprimary, hm⟩, hget, rfl⟩⟩
    | @repeated env m request e hinp hm hprimary hget =>
      refine Or.inl ⟨e, hget, ⟨rfl, rfl, rfl, fun _ => rfl, Finset.subset_insert _ _,
        fun _ hx => hx, id⟩, ?_, fun x hx => Or.inl hx⟩
      exact mem_vote (Or.inr ⟨rfl, _, _, env, m, hinp, hprimary, hm⟩)
    | @prepared env m view e hinp hm hget hwait =>
      refine Or.inl ⟨e, hget, ⟨rfl, rfl, rfl, id, Finset.subset_insert _ _, fun _ hx => hx, id⟩,
        ?_, fun x hx => Or.inl hx⟩
      exact mem_vote (Or.inl ⟨view, env, m, hinp, rfl, hm⟩)
    | @promised env m view e hinp hm hget =>
      refine Or.inl ⟨e, hget, ⟨rfl, rfl, rfl, id, Finset.subset_insert _ _,
        Finset.subset_insert _ _, id⟩, ?_, ?_⟩
      · exact mem_vote (Or.inl ⟨view, env, m, hinp, rfl, hm⟩)
      · exact mem_vote (Or.inl rfl)
    | @counted env m view e hinp hm hget hwait =>
      refine Or.inl ⟨e, hget, ⟨rfl, rfl, rfl, id, fun _ hx => hx, Finset.subset_insert _ _, id⟩,
        fun x hx => Or.inl hx, ?_⟩
      exact mem_vote (Or.inr ⟨view, env, m, hinp, rfl, hm⟩)
    | @executed env m view e hinp hm hget happlied =>
      refine Or.inl ⟨e, hget, ⟨rfl, rfl, rfl, id, fun _ hx => hx, Finset.subset_insert _ _,
        fun _ => rfl⟩, fun x hx => Or.inl hx, ?_⟩
      exact mem_vote (Or.inr ⟨view, env, m, hinp, rfl, hm⟩)

omit [LinearOrder NodeId] in
/-- What a changed entry shows, or another entry. -/
theorem seen_withEntry {e : PBFTLogEntry NodeId Operation Digest} {k k' : ℤ} {kind : Kind NodeId}
    (h : ∃ e', (n.log.set k e).get? k' = some e' ∧ Shows e' kind) :
    k = k' ∧ Shows e kind ∨ Seen n (kind, k') := by
  obtain ⟨e', he', hshows⟩ := h
  rw [Dict.get?_set] at he'
  split at he'
  · next hk =>
    obtain rfl := Option.some.inj he'
    exact Or.inl ⟨hk, hshows⟩
  · exact Or.inr ⟨e', he', hshows⟩

omit [LinearOrder NodeId] in
/-- A changed entry shows what it showed before, and its new votes. -/
theorem seen_voted {e e' : PBFTLogEntry NodeId Operation Digest} {k : ℤ} {q : Label NodeId}
    {New : Label NodeId → Prop} (hget : n.log.get? k = some e) (h : Seen (n.withEntry k e') q)
    (hprepares : ∀ y ∈ e'.prepares, y ∈ e.prepares ∨ New (.prepare y, k))
    (hcommits : ∀ y ∈ e'.commits, y ∈ e.commits ∨ New (.commit y, k)) :
    Seen n q ∨ New q := by
  obtain ⟨kind, k'⟩ := q
  rcases seen_withEntry h with ⟨rfl, hshows⟩ | h
  · cases kind with
    | proposal => exact Or.inl ⟨e, hget, trivial⟩
    | prepare y => exact (hprepares y hshows).imp (fun hy => ⟨e, hget, hy⟩) id
    | commit y => exact (hcommits y hshows).imp (fun hy => ⟨e, hget, hy⟩) id
  · exact Or.inl h

/-- What a node newly sees it has received, or it broadcasts it; everything that it broadcasts has
something behind it. -/
theorem broadcasts (h : Acts cfg n inp n' outs) :
    (outs = [] ∧ ∀ q, Seen n' q → Seen n q ∨ ∃ env m, inp = .receive env m ∧ label m = q) ∨
      ∃ payload, outs = Network.broadcast cfg.nodeId cfg.peers payload ∧
        Behind cfg n inp n' payload ∧
        ∀ q, Seen n' q → Seen n q ∨ (∃ env m, inp = .receive env m ∧ label m = q) ∨
          labelOf cfg.nodeId payload = q := by
  cases h with
  | refused | ignored => exact Or.inl ⟨rfl, fun q hq => Or.inl hq⟩
  | submitted hprimary =>
    -- a new entry shows its proposal and no votes
    refine Or.inr ⟨_, rfl, ⟨rfl, hprimary, rfl, rfl, _, Dict.get?_set_self _ _ _, rfl, rfl⟩, ?_⟩
    rintro ⟨kind, k⟩ hq
    rcases seen_withEntry hq with ⟨rfl, hshows⟩ | hq
    · cases kind with
      | proposal => exact Or.inr (Or.inr rfl)
      | prepare x => exact absurd hshows (Finset.notMem_empty x)
      | commit x => exact absurd hshows (Finset.notMem_empty x)
    · exact Or.inl hq
  | @accepted env x seqNum request hx hprimary hget =>
    refine Or.inr ⟨_, rfl, ⟨rfl, request, rfl, ⟨env, x, rfl, hprimary, hx⟩, _,
      Dict.get?_set_self _ _ _, Finset.mem_singleton_self _, Or.inl rfl⟩, ?_⟩
    rintro ⟨kind, k⟩ hq
    rcases seen_withEntry hq with ⟨rfl, hshows⟩ | hq
    · cases kind with
      | proposal => exact Or.inr (Or.inl ⟨env, x, rfl, by rw [label, hx]; rfl⟩)
      | prepare y =>
        obtain rfl := Finset.mem_singleton.mp hshows
        exact Or.inr (Or.inr rfl)
      | commit y => exact absurd hshows (Finset.notMem_empty y)
    · exact Or.inl hq
  | @repeated env x seqNum request e hx hprimary hget =>
    refine Or.inr ⟨_, rfl, ⟨rfl, request, rfl, ⟨env, x, rfl, hprimary, hx⟩, _,
      Dict.get?_set_self _ _ _, Finset.mem_insert_self _ _, Or.inr ⟨e, hget, rfl⟩⟩, fun q hq => ?_⟩
    apply seen_voted hget hq
    · exact mem_vote (Or.inr rfl)
    · exact fun _ => Or.inl
  | @prepared env x view seqNum e hx hget hwait =>
    have hlabel : label x = (.prepare x.senderId, seqNum) := by rw [label, hx]; rfl
    refine Or.inl ⟨rfl, fun q hq => ?_⟩
    apply seen_voted hget hq
    · exact mem_vote ⟨env, x, rfl, hlabel⟩
    · exact fun _ => Or.inl
  | @promised env x view seqNum e hx hget hreceived hquorum hsender =>
    have hlabel : label x = (.prepare x.senderId, seqNum) := by rw [label, hx]; rfl
    -- the COMMIT has the quorum of PREPAREs behind it
    refine Or.inr ⟨_, rfl, ⟨rfl, _, Dict.get?_set_self _ _ _, rfl, hquorum,
      Finset.mem_insert_self _ _, x.senderId, view, env, x, rfl, rfl, hx⟩, fun q hq => ?_⟩
    apply seen_voted hget hq
    · exact mem_vote (Or.inl ⟨env, x, rfl, hlabel⟩)
    · exact mem_vote (Or.inr rfl)
  | @counted env x view seqNum e hx hget hwait =>
    have hlabel : label x = (.commit x.senderId, seqNum) := by rw [label, hx]; rfl
    refine Or.inl ⟨rfl, fun q hq => ?_⟩
    apply seen_voted hget hq
    · exact fun _ => Or.inl
    · exact mem_vote ⟨env, x, rfl, hlabel⟩
  | @executed env x view seqNum e hx hget hquorum hopen =>
    have hlabel : label x = (.commit x.senderId, seqNum) := by rw [label, hx]; rfl
    refine Or.inl ⟨rfl, fun q hq => ?_⟩
    rw [Seen, apply_log] at hq
    apply seen_voted hget hq
    · exact fun _ => Or.inl
    · exact mem_vote ⟨env, x, rfl, hlabel⟩

/-- Everything that a node sends goes to its peers under its own id, and has something behind it. -/
theorem sends (h : Acts cfg n inp n' outs) {m : Message NodeId (Payload Operation Digest)}
    (hm : m ∈ outs) :
    m.senderId = cfg.nodeId ∧ m.receiverId ∈ cfg.peers ∧ Behind cfg n inp n' m.payload := by
  rcases h.broadcasts with ⟨rfl, -⟩ | ⟨payload, rfl, hbehind, -⟩
  · cases hm
  · obtain ⟨hsender, hpayload, hpeer⟩ := Network.mem_broadcast.mp hm
    rw [hpayload]
    exact ⟨hsender, hpeer, hbehind⟩

/-! ## What is applied -/

/-- A node applies at most one entry in a step: one that is committed then, with `2f + 1` votes. -/
theorem applied (h : Acts cfg n inp n' outs) : n'.applied = n.applied ∨
    ∃ k e, n'.log.get? k = some e ∧ e.committed = true ∧ 2 * cfg.f + 1 ≤ e.commits.card ∧
      e.seqNum ∉ n.applied.map Prod.fst ∧ n'.applied = n.applied ++ [(e.seqNum, e.request)] := by
  cases h with
  | executed hm hget hquorum hopen =>
    unfold PBFTNode.apply
    split
    · exact Or.inl rfl
    · next hnot => exact Or.inr ⟨_, _, Dict.get?_set_self _ _ _, rfl, hquorum, hnot, rfl⟩
  | _ => exact Or.inl rfl

theorem applied_call {request : PBFTRequest Operation}
    (h : Acts cfg n (.call request) n' outs) : n'.applied = n.applied := by
  cases h <;> rfl

end Acts

end Pbft
