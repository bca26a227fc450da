import Terdistribusi.Locks.Manager

/-!
# What the lock table is for

The lock manager without clocks, leases and request ids: for each resource who holds it in which
mode and who waits for it in which order (`Cell`), and for each client whom the deadlock detector
believes it waits for (`Table`).

A command acts on every resource by itself: `releaseAll` is a release at every resource, and a
release at a resource that the client does not hold does nothing. What is proved of a cell under
`acquire` and `release` is therefore proved of every resource of the table.
-/

namespace Locks

open Infra

/-- The command is an `acquire` of resource `r` by client `c`. -/
def Command.acquires {Client Resource : Type} [DecidableEq Client] [DecidableEq Resource]
    (c : Client) (r : Resource) : Command Client Resource → Bool
  | .acquire c' r' _ _ => c' = c && r' = r
  | _ => false

/-- The command releases resource `r` for client `c`. -/
def Command.releases {Client Resource : Type} [DecidableEq Client] [DecidableEq Resource]
    (c : Client) (r : Resource) : Command Client Resource → Bool
  | .acquire _ _ _ _ => false
  | .release c' r' => c' = c && r' = r
  | .releaseAll c' | .abort c' => c' = c

/-- Two requests of these modes can be held at the same time. -/
def compatible (a b : LockMode) : Bool := a = .shared && b = .shared

structure Cell (Client : Type) where
  holders : Dict Client LockMode := Dict.empty
  queue : List (Client × LockMode) := []

variable {Client Resource : Type} [DecidableEq Client] [DecidableEq Resource]

namespace Cell

/-- The mode is compatible with every holder. -/
def admits (holders : Dict Client LockMode) (m : LockMode) : Bool :=
  holders.values.all (compatible m)

/-- Grants the queue from its head on, up to the first request that a holder blocks. -/
def promote : List (Client × LockMode) → Dict Client LockMode → Cell Client
  | [], hs => { holders := hs, queue := [] }
  | x :: q, hs =>
    if admits hs x.2 then promote q (hs.set x.1 x.2) else { holders := hs, queue := x :: q }

/-- The client has a queued request. -/
def Waiting (k : Cell Client) (c : Client) : Prop := c ∈ k.queue.map Prod.fst

instance (k : Cell Client) (c : Client) : Decidable (k.Waiting c) :=
  inferInstanceAs (Decidable (c ∈ k.queue.map Prod.fst))

/-- The client holds the resource. -/
def Holding (k : Cell Client) (c : Client) : Prop := c ∈ k.holders.keys

instance (k : Cell Client) (c : Client) : Decidable (k.Holding c) :=
  inferInstanceAs (Decidable (c ∈ k.holders.keys))

def acquire (c : Client) (m : LockMode) (k : Cell Client) : Cell Client :=
  if admits k.holders m then { k with holders := k.holders.set c m }
  else if k.Waiting c then k
  else { k with queue := k.queue ++ [(c, m)] }

def release (c : Client) (k : Cell Client) : Cell Client :=
  if k.Holding c then promote k.queue (k.holders.erase c) else k

/-- The client is the only holder. -/
def SoleHolder (k : Cell Client) (c : Client) : Prop := k.holders.keys = [c]

instance (k : Cell Client) (c : Client) : Decidable (k.SoleHolder c) :=
  inferInstanceAs (Decidable (k.holders.keys = [c]))

end Cell

/-- All resources, and the graph of the deadlock detector. -/
@[ext]
structure Table (Client Resource : Type) where
  cell : Resource → Cell Client
  waitFor : Client → Finset Client

/-- The graph without the client. -/
def dropClient (c : Client) (g : Client → Finset Client) : Client → Finset Client :=
  fun u => if u = c then ∅ else (g u).erase c

namespace Table

/-- What a command does to the cell of resource `r`. -/
def actOn (r : Resource) (cmd : Command Client Resource) (k : Cell Client) : Cell Client :=
  match cmd with
  | .acquire c r' m _ => if r = r' then k.acquire c m else k
  | .release c r' => if r = r' then k.release c else k
  | .releaseAll c | .abort c => k.release c

/-- What a command does to the graph. -/
def graph (t : Table Client Resource) (cmd : Command Client Resource) : Client → Finset Client :=
  match cmd with
  | .acquire c r m _ =>
    if Cell.admits (t.cell r).holders m then t.waitFor
    else Function.update t.waitFor c (t.waitFor c ∪ (t.cell r).holders.keys.toFinset.erase c)
  | .release c r => if (t.cell r).SoleHolder c then dropClient c t.waitFor else t.waitFor
  | .releaseAll c | .abort c => dropClient c t.waitFor

def apply (cmd : Command Client Resource) (t : Table Client Resource) : Table Client Resource where
  cell := fun r => actOn r cmd (t.cell r)
  waitFor := t.graph cmd

/-- The table as a system whose events are the commands. -/
def step (t : Table Client Resource) (cmd : Command Client Resource) :
    Option (Table Client Resource) :=
  some (t.apply cmd)

end Table

theorem dropClient_dropClient (c : Client) (g : Client → Finset Client) :
    dropClient c (dropClient c g) = dropClient c g := by
  funext u
  unfold dropClient
  split
  · rfl
  · rw [Finset.erase_idem]

/-- A release by a client that does not hold the resource does nothing. -/
theorem Table.apply_release_of_not_holding {t : Table Client Resource} {c : Client} {r : Resource}
    (h : ¬ (t.cell r).Holding c) : t.apply (.release c r) = t := by
  ext1
  · funext r'
    simp only [apply, actOn]
    split
    · next hr =>
      subst hr
      exact if_neg h
    · rfl
  · refine if_neg fun hs : (t.cell r).SoleHolder c => h ?_
    unfold Cell.Holding
    rw [hs]
    exact List.mem_singleton_self c

/-! ## Granting the queue -/

namespace Cell

omit [DecidableEq Client] in
theorem admits_eq_true {hs : Dict Client LockMode} {m : LockMode} :
    admits hs m = true ↔ ∀ v ∈ hs.values, m = .shared ∧ v = .shared := by
  simp [admits, compatible]

omit [DecidableEq Client] in
theorem admits_of_keys_eq_nil {hs : Dict Client LockMode} (h : hs.keys = []) (m : LockMode) :
    admits hs m = true := by
  have hv : hs.values = [] := by
    rw [← List.length_eq_zero_iff, Dict.length_values, h]
    rfl
  simp [admits, hv]

/-- The client holds the resource or waits for it. -/
def Present (k : Cell Client) (c : Client) : Prop := k.Holding c ∨ k.Waiting c

/-- Being granted turns a waiter into a holder and changes nothing else about who is present. -/
theorem present_promote {c : Client} : ∀ (q : List (Client × LockMode)) (hs : Dict Client LockMode),
    (promote q hs).Present c ↔ c ∈ hs.keys ∨ c ∈ q.map Prod.fst
  | [], hs => Iff.rfl
  | x :: q, hs => by
    rw [promote]
    split
    · rw [present_promote q, Dict.mem_keys_set, List.map_cons, List.mem_cons]
      tauto
    · exact Iff.rfl

theorem present_acquire (c : Client) (m : LockMode) (k : Cell Client) (c' : Client) :
    (k.acquire c m).Present c' ↔ c' = c ∨ k.Present c' := by
  unfold acquire
  by_cases ha : admits k.holders m = true
  · rw [if_pos ha]
    show c' ∈ (k.holders.set c m).keys ∨ k.Waiting c' ↔ c' = c ∨ k.Holding c' ∨ k.Waiting c'
    rw [Dict.mem_keys_set]
    exact or_assoc
  · rw [if_neg ha]
    by_cases hw : k.Waiting c
    · rw [if_pos hw]
      refine ⟨Or.inr, ?_⟩
      rintro (rfl | h)
      · exact Or.inr hw
      · exact h
    · rw [if_neg hw]
      show k.Holding c' ∨ c' ∈ (k.queue ++ [(c, m)]).map Prod.fst ↔
        c' = c ∨ k.Holding c' ∨ c' ∈ k.queue.map Prod.fst
      rw [List.map_append, List.mem_append, List.map_singleton, List.mem_singleton]
      tauto

/-- After a release only the queued request of the client is left of it. -/
theorem present_release (c : Client) (k : Cell Client) :
    (k.release c).Present c ↔ k.Waiting c := by
  unfold release
  split
  · rw [present_promote, Dict.mem_keys_erase]
    unfold Waiting
    tauto
  · next hc => exact or_iff_right hc

theorem present_release_of_ne {c c' : Client} (k : Cell Client) (h : c' ≠ c) :
    (k.release c).Present c' ↔ k.Present c' := by
  unfold release
  split
  · rw [present_promote, Dict.mem_keys_erase]
    unfold Present Holding Waiting
    tauto
  · exact Iff.rfl

/-- A client becomes present by its own `acquire`, and absent by a release of its lock while it has
no queued request. -/
theorem present_actOn (c : Client) (r : Resource) (cmd : Command Client Resource)
    (k : Cell Client) :
    (Table.actOn r cmd k).Present c ↔ cmd.acquires c r = true ∨
      k.Present c ∧ ¬ (cmd.releases c r = true ∧ k.Holding c ∧ ¬ k.Waiting c) := by
  have hrelease : ∀ c', (k.release c').Present c ↔
      k.Present c ∧ ¬ (c' = c ∧ k.Holding c ∧ ¬ k.Waiting c) := by
    intro c'
    by_cases hc : c' = c
    · subst hc
      rw [present_release]
      unfold Present
      tauto
    · rw [present_release_of_ne k (Ne.symm hc)]
      simp [hc]
  cases cmd with
  | acquire c' r' m lease =>
    simp only [Table.actOn, Command.acquires, Command.releases]
    by_cases hr : r = r'
    · subst hr
      rw [if_pos rfl, present_acquire]
      simp [eq_comm]
    · rw [if_neg hr]
      simp [Ne.symm hr]
  | release c' r' =>
    simp only [Table.actOn, Command.acquires, Command.releases]
    by_cases hr : r = r'
    · subst hr
      rw [if_pos rfl, hrelease]
      simp
    · rw [if_neg hr]
      simp [Ne.symm hr]
  | releaseAll c' => simpa [Table.actOn, Command.acquires, Command.releases] using hrelease c'
  | abort c' => simpa [Table.actOn, Command.acquires, Command.releases] using hrelease c'

end Cell

/-! ## The invariant of one resource -/

namespace Cell

/-- All holders are shared, or there is exactly one. -/
def Exclusion (hs : Dict Client LockMode) : Prop :=
  (∀ m ∈ hs.values, m = .shared) ∨ hs.keys.length = 1

/-- The invariant of a resource. -/
structure Ok (k : Cell Client) : Prop where
  exclusion : Exclusion k.holders
  /-- No client waits twice. -/
  distinct : (k.queue.map Prod.fst).Nodup
  /-- The head of the queue cannot be granted. -/
  blocked : ∀ x ∈ k.queue.head?, admits k.holders x.2 = false

omit [DecidableEq Client] in
theorem ok_empty : ({} : Cell Client).Ok :=
  ⟨Or.inl (by simp), List.nodup_nil, by simp⟩

/-- A compatible grant keeps mutual exclusion. -/
theorem exclusion_set {hs : Dict Client LockMode} {m : LockMode} (c : Client)
    (ha : admits hs m = true) : Exclusion (hs.set c m) := by
  rw [admits_eq_true] at ha
  cases m with
  | shared =>
    refine Or.inl fun v hv => ?_
    rcases Dict.mem_values_set hv with rfl | hold
    · rfl
    · exact (ha v hold).2
  | exclusive =>
    -- nobody holds the resource
    have hnil : hs.keys = [] := by
      rw [← List.length_eq_zero_iff, ← Dict.length_values, List.length_eq_zero_iff,
        List.eq_nil_iff_forall_not_mem]
      intro v hv
      cases (ha v hv).1
    exact Or.inr (by simp [Dict.keys_set, hnil])

theorem exclusion_erase {hs : Dict Client LockMode} (c : Client) (h : Exclusion hs) :
    Exclusion (hs.erase c) := by
  rcases h with hall | hone
  · exact Or.inl fun m hm => hall m (Dict.mem_values_erase hm)
  · have hle : (hs.erase c).keys.length ≤ 1 := by
      rw [← hone]
      exact (List.filter_sublist.map _).length_le
    rcases Nat.lt_or_ge 0 (hs.erase c).keys.length with hpos | hzero
    · exact Or.inr (by omega)
    · refine Or.inl fun m hm => absurd (List.length_pos_of_mem hm) ?_
      rw [Dict.length_values]
      omega

theorem ok_promote : ∀ (q : List (Client × LockMode)) (hs : Dict Client LockMode),
    Exclusion hs → (q.map Prod.fst).Nodup → (promote q hs).Ok
  | [], _, he, _ => ⟨he, List.nodup_nil, by simp [promote]⟩
  | x :: q, hs, he, hd => by
    rw [promote]
    split
    · next ha => exact ok_promote q _ (exclusion_set x.1 ha) (List.nodup_cons.mp hd).2
    · next ha => exact ⟨he, hd, by simpa using ha⟩

theorem Ok.acquire {k : Cell Client} (h : k.Ok) (c : Client) (m : LockMode) :
    (k.acquire c m).Ok := by
  unfold Cell.acquire
  split
  · next ha =>
    refine ⟨exclusion_set c ha, h.distinct, fun x hx => ?_⟩
    -- the head stays blocked: it was blocked by a holder although the new request was not
    have hb := h.blocked x hx
    rw [← Bool.not_eq_true, admits_eq_true] at hb ⊢
    intro hall
    refine hb fun v hv => ?_
    have hself : m ∈ (k.holders.set c m).values :=
      Dict.mem_values_of_get? (Dict.get?_set_self _ c m)
    exact ⟨(hall m hself).1, ((admits_eq_true.mp ha) v hv).2⟩
  · next ha =>
    split
    · exact h
    · next hw =>
      refine ⟨h.exclusion, ?_, fun x hx => ?_⟩
      · rw [List.map_append, List.nodup_append']
        exact ⟨h.distinct, List.nodup_singleton _, by simpa [Waiting] using hw⟩
      · cases hq : k.queue with
        | nil =>
          rw [hq] at hx
          simp only [List.nil_append, List.head?_cons, Option.mem_some_iff] at hx
          subst hx
          simpa using ha
        | cons y q =>
          rw [hq] at hx
          exact h.blocked x (by rw [hq]; exact hx)

theorem Ok.release {k : Cell Client} (h : k.Ok) (c : Client) : (k.release c).Ok := by
  unfold Cell.release
  split
  · exact ok_promote k.queue _ (exclusion_erase c h.exclusion) h.distinct
  · exact h

omit [DecidableEq Client] in
/-- Where there is more than one holder, all are shared. -/
theorem Ok.shared {k : Cell Client} (h : k.Ok) {c d : Client} (hc : k.Holding c) (hd : k.Holding d)
    (hne : c ≠ d) : ∀ m ∈ k.holders.values, m = .shared := by
  refine h.exclusion.resolve_right fun hone => ?_
  obtain ⟨x, hx⟩ := List.length_eq_one_iff.mp hone
  unfold Holding at hc hd
  rw [hx, List.mem_singleton] at hc hd
  exact hne (hc.trans hd.symm)

/-- Where one holder is shared, all are. -/
theorem Ok.shared_of_get? {k : Cell Client} (h : k.Ok) {c : Client}
    (hc : k.holders.get? c = some .shared) : ∀ m ∈ k.holders.values, m = .shared := by
  rcases h.exclusion with hall | hone
  · exact hall
  · rw [← Dict.length_values, List.length_eq_one_iff] at hone
    obtain ⟨v, hv⟩ := hone
    have hmem := Dict.mem_values_of_get? hc
    rw [hv, List.mem_singleton] at hmem
    simp [hv, hmem]

omit [DecidableEq Client] in
/-- The head of the queue of a shared lock is exclusive. -/
theorem Ok.head_exclusive {k : Cell Client} (h : k.Ok) (hs : ∀ m ∈ k.holders.values, m = .shared)
    {x : Client × LockMode} (hx : x ∈ k.queue.head?) : x.2 = .exclusive := by
  have hb := h.blocked x hx
  rw [← Bool.not_eq_true, admits_eq_true] at hb
  cases hm : x.2 with
  | exclusive => rfl
  | shared => exact absurd (fun v hv => ⟨hm, hs v hv⟩) hb

/-- Where a release leaves other holders, they block the head of the queue. -/
theorem Ok.head_refused {k : Cell Client} (h : k.Ok) {c d : Client} (hc : k.Holding c)
    (hd : d ∈ (k.holders.erase c).keys) (x : Client × LockMode) (hx : x ∈ k.queue.head?) :
    admits (k.holders.erase c) x.2 = false := by
  obtain ⟨hne, hdk⟩ := Dict.mem_keys_erase.mp hd
  have hex : x.2 = .exclusive := h.head_exclusive (h.shared hc hdk (Ne.symm hne)) hx
  rw [← Bool.not_eq_true, admits_eq_true]
  intro hall
  obtain ⟨v, hv⟩ := Dict.exists_get?_of_mem_keys hd
  have := (hall v (Dict.mem_values_of_get? hv)).1
  rw [hex] at this
  cases this

/-- A release that leaves other holders grants nothing. -/
theorem Ok.release_of_shared {k : Cell Client} (h : k.Ok) {c d : Client} (hc : k.Holding c)
    (hd : d ∈ (k.holders.erase c).keys) :
    k.release c = { k with holders := k.holders.erase c } := by
  rw [Cell.release, if_pos hc]
  cases hq : k.queue with
  | nil => rfl
  | cons x q =>
    have hno := h.head_refused hc hd x (by rw [hq]; rfl)
    exact if_neg (by rw [hno]; exact Bool.false_ne_true)

/-- A release that does not free the resource takes its client out of the holders. -/
theorem Ok.release_of_not_sole {k : Cell Client} (h : k.Ok) {c : Client}
    (hsole : ¬ k.SoleHolder c) : k.release c = { k with holders := k.holders.erase c } := by
  by_cases hc : k.Holding c
  · have hne : (k.holders.erase c).keys ≠ [] :=
      fun hnil => hsole ((Dict.keys_erase_eq_nil_iff hc).mp hnil)
    obtain ⟨d, hd⟩ := List.exists_mem_of_ne_nil _ hne
    exact h.release_of_shared hc hd
  · rw [Cell.release, if_neg hc, Dict.erase_of_get?_none (Dict.get?_eq_none_iff.mpr hc)]

theorem Ok.actOn {k : Cell Client} (h : k.Ok) (r : Resource) (cmd : Command Client Resource) :
    (Table.actOn r cmd k).Ok := by
  cases cmd with
  | acquire c r' m lease =>
    simp only [Table.actOn]
    split
    · exact h.acquire c m
    · exact h
  | release c r' =>
    simp only [Table.actOn]
    split
    · exact h.release c
    · exact h
  | releaseAll c => exact h.release c
  | abort c => exact h.release c

end Cell

/-- Every resource satisfies its invariant. -/
def Table.Ok (t : Table Client Resource) : Prop := ∀ r, (t.cell r).Ok

theorem Table.Ok.step {t t' : Table Client Resource} {cmd : Command Client Resource} (h : t.Ok)
    (hs : t.step cmd = some t') : t'.Ok := by
  obtain rfl := Option.some.inj hs
  exact fun r => (h r).actOn r cmd

end Locks
