import Terdistribusi.Queue.Ring

/-!
# Preference lists

A ring is determined by its set of nodes: it is sorted, and holds each position of each node as
often as `add_node` inserts it (`Canonical`). So the order of the calls does not matter
(`Canonical.ring_eq`), and a node that is added and removed again leaves the ring as it was.

What `get_n_nodes` returns is the first `n` of the distinct owners on one round of the ring
(`preference`). The loop follows the round position by position (`walk_eq`); it has seen every node
when the round is complete, whichever of its three exits it takes.
-/

namespace Queue

open Infra

namespace ConsistentHashRing

variable {hash : String → ℕ} {r r' : ConsistentHashRing}

/-! ## Rings are canonical -/

/-- The positions that `add_node` inserts for a node. -/
def positions (hash : String → ℕ) (virtualNodes : ℕ) (nodeId : String) : List (ℕ ×ₗ String) :=
  (List.range virtualNodes).map (position hash nodeId)

theorem owner_of_mem_positions {virtualNodes : ℕ} {nodeId : String} {e : ℕ ×ₗ String}
    (h : e ∈ positions hash virtualNodes nodeId) : owner e = nodeId := by
  obtain ⟨i, _, rfl⟩ := List.mem_map.mp h
  rfl

structure Canonical (hash : String → ℕ) (r : ConsistentHashRing) : Prop where
  sorted : r.ring.Pairwise (· ≤ ·)
  count : ∀ e, r.ring.count e =
    if owner e ∈ r.nodes then (positions hash r.virtualNodes (owner e)).count e else 0

/-- The loop of `add_node`. -/
theorem foldl_insort (hash : String → ℕ) (nodeId : String) :
    ∀ (is : List ℕ) {ring : List (ℕ ×ₗ String)}, ring.Pairwise (· ≤ ·) →
    (is.foldl (fun ring i => insort ring (position hash nodeId i)) ring).Pairwise (· ≤ ·) ∧
      (is.foldl (fun ring i => insort ring (position hash nodeId i)) ring).Perm
        (is.map (position hash nodeId) ++ ring)
  | [], _, h => ⟨h, List.Perm.refl _⟩
  | i :: is, ring, h => by
    obtain ⟨hsorted, hperm⟩ :=
      foldl_insort hash nodeId is (insort_sorted h (position hash nodeId i))
    refine ⟨hsorted, hperm.trans ?_⟩
    exact ((insort_perm h _).append_left _).trans List.perm_middle

theorem canonical_empty (hash : String → ℕ) (virtualNodes : ℕ) :
    Canonical hash { virtualNodes := virtualNodes } :=
  ⟨List.Pairwise.nil, fun e => by simp⟩

theorem Canonical.addNode (h : Canonical hash r) (nodeId : String) :
    Canonical hash (r.addNode hash nodeId) := by
  rw [ConsistentHashRing.addNode]
  split
  · exact h
  · next hnew =>
    obtain ⟨hsorted, hperm⟩ := foldl_insort hash nodeId (List.range r.virtualNodes) h.sorted
    refine ⟨hsorted, fun e => ?_⟩
    rw [hperm.count_eq, List.count_append, h.count e]
    by_cases he : owner e = nodeId
    · simp [he, hnew, positions]
    · have hnot : e ∉ positions hash r.virtualNodes nodeId :=
        fun hmem => he (owner_of_mem_positions hmem)
      have hzero : ((List.range r.virtualNodes).map (position hash nodeId)).count e = 0 :=
        List.count_eq_zero.mpr hnot
      simp [he, hzero]

theorem Canonical.removeNode (h : Canonical hash r) (nodeId : String) :
    Canonical hash (r.removeNode nodeId) := by
  rw [ConsistentHashRing.removeNode]
  split
  · exact h
  · refine ⟨h.sorted.filter _, fun e => ?_⟩
    by_cases he : owner e = nodeId
    · have hnot : e ∉ r.ring.filter fun e => owner e ≠ nodeId := fun hmem => by
        simpa [he] using List.of_mem_filter hmem
      rw [List.count_eq_zero.mpr hnot, if_neg (by simp [he])]
    · rw [List.count_filter (by simpa using he), h.count e]
      simp [he]

theorem Canonical.act (h : Canonical hash r) : ∀ call, Canonical hash (act hash r call)
  | .addNode nodeId => h.addNode nodeId
  | .removeNode nodeId => h.removeNode nodeId

@[simp] theorem virtualNodes_addNode (nodeId : String) :
    (r.addNode hash nodeId).virtualNodes = r.virtualNodes := by
  rw [addNode]
  split <;> rfl

@[simp] theorem virtualNodes_removeNode (nodeId : String) :
    (r.removeNode nodeId).virtualNodes = r.virtualNodes := by
  rw [removeNode]
  split <;> rfl

@[simp] theorem nodes_addNode (nodeId : String) :
    (r.addNode hash nodeId).nodes = insert nodeId r.nodes := by
  rw [addNode]
  split
  · next h => rw [Finset.insert_eq_of_mem h]
  · rfl

@[simp] theorem nodes_removeNode (nodeId : String) :
    (r.removeNode nodeId).nodes = r.nodes.erase nodeId := by
  rw [removeNode]
  split
  · next h => rw [Finset.erase_eq_of_notMem h]
  · rfl

theorem virtualNodes_act (call : Call) : (act hash r call).virtualNodes = r.virtualNodes := by
  cases call with
  | addNode nodeId => exact virtualNodes_addNode nodeId
  | removeNode nodeId => exact virtualNodes_removeNode nodeId

/-- Calls keep the invariant and the number of virtual nodes. -/
theorem canonical_foldl : ∀ (calls : List Call) {r : ConsistentHashRing}, Canonical hash r →
    Canonical hash (calls.foldl (act hash) r) ∧
      (calls.foldl (act hash) r).virtualNodes = r.virtualNodes
  | [], _, h => ⟨h, rfl⟩
  | call :: calls, r, h => by
    obtain ⟨hcanonical, hvn⟩ := canonical_foldl calls (h.act call)
    exact ⟨hcanonical, hvn.trans (virtualNodes_act call)⟩

theorem canonical_after (virtualNodes : ℕ) (calls : List Call) :
    Canonical hash (after hash virtualNodes calls) :=
  (canonical_foldl calls (canonical_empty hash virtualNodes)).1

theorem virtualNodes_after (virtualNodes : ℕ) (calls : List Call) :
    (after hash virtualNodes calls).virtualNodes = virtualNodes :=
  (canonical_foldl calls (canonical_empty hash virtualNodes)).2

/-- Rings with the same nodes are the same list. -/
theorem Canonical.ring_eq (h : Canonical hash r) (h' : Canonical hash r')
    (hvn : r.virtualNodes = r'.virtualNodes) (hnodes : r.nodes = r'.nodes) : r = r' := by
  have hperm : r.ring.Perm r'.ring := List.perm_iff_count.mpr fun e => by
    rw [h.count, h'.count, hvn, hnodes]
  have hring : r.ring = r'.ring := hperm.eq_of_pairwise' h.sorted h'.sorted
  cases r
  cases r'
  simp_all

/-- What a node has on the ring. -/
theorem Canonical.filter_owner_perm (h : Canonical hash r) {a : String} (ha : a ∈ r.nodes) :
    (r.ring.filter fun e => owner e = a).Perm (positions hash r.virtualNodes a) := by
  refine List.perm_iff_count.mpr fun e => ?_
  by_cases he : owner e = a
  · rw [List.count_filter (by simpa using he), h.count e, he, if_pos ha]
  · have hnot : e ∉ positions hash r.virtualNodes a := fun hmem => he (owner_of_mem_positions hmem)
    have hnot' : e ∉ r.ring.filter fun e => owner e = a := fun hmem => he (by
      simpa using List.of_mem_filter hmem)
    rw [List.count_eq_zero.mpr hnot, List.count_eq_zero.mpr hnot']

theorem Canonical.owner_mem (h : Canonical hash r) {e : ℕ ×ₗ String} (he : e ∈ r.ring) :
    owner e ∈ r.nodes := by
  by_contra hnot
  have hcount := h.count e
  rw [if_neg hnot] at hcount
  exact List.count_eq_zero.mp hcount he

theorem Canonical.exists_mem (h : Canonical hash r) (hvn : 1 ≤ r.virtualNodes) {a : String}
    (ha : a ∈ r.nodes) : ∃ e ∈ r.ring, owner e = a := by
  have hmem : position hash a 0 ∈ positions hash r.virtualNodes a :=
    List.mem_map_of_mem (List.mem_range.mpr hvn)
  have hmem' := (h.filter_owner_perm ha).mem_iff.mpr hmem
  exact ⟨_, (List.mem_filter.mp hmem').1, rfl⟩

/-! ## One round of the ring -/

/-- The owners of the positions, from the first position above the hash of the key and around. -/
def round (hash : String → ℕ) (key : String) (r : ConsistentHashRing) : List String :=
  (clockwise r.ring (probe hash key)).map owner

/-- Every node, in the order of its first position on the round. -/
def preference (hash : String → ℕ) (key : String) (r : ConsistentHashRing) : List String :=
  (r.round hash key).eraseDups

@[simp] theorem length_round (key : String) : (r.round hash key).length = r.ring.length := by
  simp [round]

theorem Canonical.mem_round_iff (h : Canonical hash r) (hvn : 1 ≤ r.virtualNodes) {key a : String} :
    a ∈ r.round hash key ↔ a ∈ r.nodes := by
  rw [round, List.mem_map]
  constructor
  · rintro ⟨e, he, rfl⟩
    exact h.owner_mem ((clockwise_perm _ _).mem_iff.mp he)
  · intro ha
    obtain ⟨e, he, hea⟩ := h.exists_mem hvn ha
    exact ⟨e, (clockwise_perm _ _).mem_iff.mpr he, hea⟩

theorem Canonical.toFinset_round (h : Canonical hash r) (hvn : 1 ≤ r.virtualNodes) (key : String) :
    (r.round hash key).toFinset = r.nodes := by
  ext a
  rw [List.mem_toFinset, h.mem_round_iff hvn]

theorem Canonical.mem_preference_iff (h : Canonical hash r) (hvn : 1 ≤ r.virtualNodes)
    {key a : String} : a ∈ r.preference hash key ↔ a ∈ r.nodes := by
  rw [preference, List.mem_eraseDups, h.mem_round_iff hvn]

theorem nodup_preference (key : String) : (r.preference hash key).Nodup := nodup_eraseDups _

theorem Canonical.length_preference (h : Canonical hash r) (hvn : 1 ≤ r.virtualNodes)
    (key : String) : (r.preference hash key).length = r.nodes.card := by
  rw [preference, length_eraseDups, h.toFinset_round hvn]

/-! ## The loop -/

/-- Where the round begins. -/
def start (hash : String → ℕ) (key : String) (r : ConsistentHashRing) : ℕ :=
  bisectRight r.ring (probe hash key)

/-- Where the loop stands after `j` rounds from `idx`. -/
def place (length idx j : ℕ) : ℕ := if idx + j ≤ length then idx + j else idx + j - length

theorem Canonical.start_le (h : Canonical hash r) (key : String) :
    r.start hash key ≤ r.ring.length :=
  bisectRight_le h.sorted _

/-- A round of the loop notes the next owner if it is new. -/
theorem note_eq (l : List String) (a : String) :
    (if a ∉ l.toFinset then (insert a l.toFinset, l.eraseDups ++ [a])
      else (l.toFinset, l.eraseDups)) = ((l ++ [a]).toFinset, (l ++ [a]).eraseDups) := by
  rw [eraseDups_concat, List.toFinset_append]
  by_cases h : a ∈ l <;> simp [h]

/-- What the loop has is the beginning of the list. -/
theorem take_eraseDups {l : List String} {j n : ℕ} (h : n ≤ (l.take j).eraseDups.length) :
    (l.take j).eraseDups.take n = l.eraseDups.take n := by
  have hprefix := eraseDups_prefix (l.take j) (l.drop j)
  rw [List.take_append_drop] at hprefix
  obtain ⟨rest, hrest⟩ := hprefix
  rw [← hrest, List.take_append_of_le_length h]

/-- Place `i` of the ring is place `j` of the round. -/
theorem Canonical.exists_position (h : Canonical hash r) (key : String) {i j : ℕ}
    (hi : i < r.ring.length) (hj : j < r.ring.length)
    (hij : r.start hash key + j = i ∨ r.start hash key + j = i + r.ring.length) :
    ∃ e, r.ring[i]? = some e ∧ (r.round hash key)[j]? = some (owner e) := by
  have he := List.getElem?_eq_getElem hi
  refine ⟨r.ring[i], he, ?_⟩
  rw [round, List.getElem?_map, getElem?_clockwise (h.start_le key) hi hj hij, he]
  rfl

/-- When the loop has `n` owners or those of all nodes, they are the first `n` of all. -/
theorem Canonical.eraseDups_take_eq (h : Canonical hash r) (hvn : 1 ≤ r.virtualNodes)
    (key : String) {n j : ℕ} (hn : ((r.round hash key).take j).eraseDups.length ≤ n)
    (hstop : ¬ (((r.round hash key).take j).eraseDups.length < n ∧
      ((r.round hash key).take j).eraseDups.length < r.nodes.card)) :
    ((r.round hash key).take j).eraseDups = (r.preference hash key).take n := by
  rcases Nat.lt_or_ge ((r.round hash key).take j).eraseDups.length n with hlt | hge
  · have hall : (r.preference hash key).length ≤
        ((r.round hash key).take j).eraseDups.length := by
      rw [h.length_preference hvn]
      exact Nat.le_of_not_lt fun hcard => hstop ⟨hlt, hcard⟩
    have htake := take_eraseDups (l := r.round hash key) (j := j) le_rfl
    rw [List.take_length, ← preference, List.take_of_length_le hall] at htake
    rw [← htake, List.take_of_length_le hn]
  · rw [preference, ← take_eraseDups hge, List.take_of_length_le hn]

/-- After `j` rounds the loop has the distinct owners of the first `j` positions; it ends with the
first `n` of all. -/
theorem Canonical.walk_eq (h : Canonical hash r) (hvn : 1 ≤ r.virtualNodes) (key : String) {n : ℕ} :
    ∀ {k j : ℕ}, j ≤ r.ring.length → r.ring.length < k + j →
      ((r.round hash key).take j).eraseDups.length ≤ n →
      walk n (r.start hash key) r k (place r.ring.length (r.start hash key) j)
        ((r.round hash key).take j).toFinset ((r.round hash key).take j).eraseDups =
      some ((r.preference hash key).take n)
  | 0, j, hj, hk, _ => by omega
  | k + 1, j, hj, hk, hn => by
    have hidx := h.start_le key
    rw [walk]
    split
    · next hgo =>
      -- not every node is seen, so the round is not complete
      have hlt : j < r.ring.length := by
        rcases Nat.lt_or_eq_of_le hj with hlt | rfl
        · exact hlt
        · rw [List.take_of_length_le (by simp), h.toFinset_round hvn] at hgo
          omega
      generalize hi : (if r.ring.length ≤ place r.ring.length (r.start hash key) j then 0
        else place r.ring.length (r.start hash key) j) = i
      rw [place] at hi
      obtain ⟨e, he, hround⟩ := h.exists_position key (i := i)
        (by split_ifs at hi <;> omega) hlt (by split_ifs at hi <;> omega)
      have htake : (r.round hash key).take j ++ [owner e] = (r.round hash key).take (j + 1) := by
        rw [List.take_add_one, hround]
        rfl
      have hn' : ((r.round hash key).take (j + 1)).eraseDups.length ≤ n := by
        rw [← htake, eraseDups_concat]
        split
        · exact hn
        · rw [List.length_append]
          exact hgo.1
      have hne : ((r.round hash key).take (j + 1)).eraseDups ≠ [] := by
        have hmem : owner e ∈ (r.round hash key).take (j + 1) := by simp [← htake]
        exact List.ne_nil_of_mem (List.mem_eraseDups.mpr hmem)
      simp only [he, note_eq, htake]
      split
      · next hend =>
        have hfull : j + 1 = r.ring.length := by
          have heq := hend.1
          split_ifs at hi <;> omega
        rw [List.take_of_length_le (by simp [hfull])] at hn' ⊢
        rw [preference, List.take_of_length_le hn']
      · next hmore =>
        have hnext : i + 1 = place r.ring.length (r.start hash key) (j + 1) := by
          have hplace : i + 1 ≠ r.start hash key := fun heq => hmore ⟨heq, hne⟩
          rw [place]
          split_ifs at hi ⊢ <;> omega
        rw [hnext]
        exact h.walk_eq hvn key hlt (by omega) hn'
    · next hstop =>
      rw [← length_eraseDups] at hstop
      rw [h.eraseDups_take_eq hvn key hn hstop]

/-- `get_n_nodes` ends within one round of its loop for each position and one more. -/
theorem Canonical.getNNodes_eq (h : Canonical hash r) (hvn : 1 ≤ r.virtualNodes) {bound : ℕ}
    (hbound : r.ring.length < bound) (key : String) (n : ℕ) :
    r.getNNodes hash bound key n = some ((r.preference hash key).take n) := by
  rw [getNNodes]
  split
  · next hnil => simp [preference, round, clockwise, hnil]
  · have hplace : place r.ring.length (r.start hash key) 0 = r.start hash key := by
      rw [place]
      have hidx := h.start_le key
      split_ifs <;> omega
    have hwalk := h.walk_eq hvn key (n := n) (Nat.zero_le _) (Nat.lt_add_right 0 hbound) (by simp)
    rw [hplace] at hwalk
    exact hwalk

/-- Without virtual nodes the ring is empty, and the loop does not start. -/
theorem Canonical.exists_getNNodes (h : Canonical hash r) (key : String) (n : ℕ) :
    ∃ l, ∀ bound, r.ring.length < bound → r.getNNodes hash bound key n = some l := by
  rcases Nat.eq_zero_or_pos r.virtualNodes with hvn | hvn
  · have hnil : r.ring = [] := List.eq_nil_iff_forall_not_mem.mpr fun e he => by
      have hcount := h.count e
      simp only [hvn, positions, List.range_zero, List.map_nil, List.count_nil, ite_self] at hcount
      exact List.count_eq_zero.mp hcount he
    exact ⟨[], fun bound _ => by rw [getNNodes, if_pos hnil]⟩
  · exact ⟨_, fun bound hbound => h.getNNodes_eq hvn hbound key n⟩

/-- `get_node` is the owner of the first position of the round. -/
theorem Canonical.getNode_eq (h : Canonical hash r) (key : String) :
    r.getNode hash key = (r.preference hash key).head? := by
  have hhead : (r.preference hash key).head? = (r.round hash key).head? := by
    rw [preference]
    cases r.round hash key with
    | nil => rfl
    | cons a l => simp [List.eraseDups_cons]
  rw [hhead, getNode]
  split
  · next hnil => simp [round, clockwise, hnil]
  · next hne =>
    have hidx := h.start_le key
    have hpos : 0 < r.ring.length := List.length_pos_iff.mpr hne
    generalize hi : (if bisectRight r.ring (probe hash key) = r.ring.length then 0
      else bisectRight r.ring (probe hash key)) = i
    rw [start] at hidx
    obtain ⟨e, he, hround⟩ := h.exists_position key (i := i)
      (by split_ifs at hi <;> omega) hpos (by rw [start]; split_ifs at hi <;> omega)
    simp only [hi, he, Option.map_some]
    rw [List.head?_eq_getElem?, hround]

/-! ## What `get_n_nodes` returns -/

/-- The ring is cut above the hash of the key; the list is the first distinct nodes of the part
after the cut and then of the part before it. -/
theorem getNNodes_first_seen (hash : String → ℕ) {virtualNodes : ℕ} (hvn : 1 ≤ virtualNodes)
    (calls : List Call) (key : String) (n : ℕ) :
    let r := after hash virtualNodes calls
    ∃ low high l, r.ring = low ++ high ∧ (∀ e ∈ low, e ≤ probe hash key) ∧
      (∀ e ∈ high, probe hash key < e) ∧ l = ((high ++ low).map owner).eraseDups.take n ∧
      (∀ bound, r.ring.length < bound → r.getNNodes hash bound key n = some l) ∧
      l.length = min n r.nodes.card ∧ l.Nodup ∧ (∀ a ∈ l, a ∈ r.nodes) ∧
      (1 ≤ n → l.head? = r.getNode hash key) := by
  intro r
  have h : Canonical hash r := canonical_after virtualNodes calls
  have hvn' : 1 ≤ r.virtualNodes := by rwa [virtualNodes_after]
  refine ⟨r.ring.filter (· ≤ probe hash key), r.ring.filter (probe hash key < ·),
    (r.preference hash key).take n, (filter_le_append_filter_lt h.sorted).symm,
    fun e he => by simpa using List.of_mem_filter he,
    fun e he => by simpa using List.of_mem_filter he, ?_,
    fun bound hbound => h.getNNodes_eq hvn' hbound key n, ?_,
    (nodup_preference key).sublist (List.take_sublist _ _),
    fun a ha => (h.mem_preference_iff hvn').mp (List.mem_of_mem_take ha), fun hn => ?_⟩
  · rw [preference, round, clockwise_eq h.sorted]
  · rw [List.length_take, h.length_preference hvn']
  · rw [h.getNode_eq, List.head?_take, if_neg (by omega)]

/-- Every position hashes to `5`, as does the key: the search ends behind the ring. -/
def crowded : List Call := [.addNode "c", .addNode "a", .addNode "b", .removeNode "c", .addNode "d"]

theorem getNNodes_first_seen_crowded :
    (after String.length 2 crowded).getNNodes String.length 7 "order" 2 = some ["a", "b"] ∧
      (["a", "b"] : List String).head? =
        (after String.length 2 crowded).getNode String.length "order" := by
  obtain ⟨low, high, l, _, _, _, _, hl, _, _, _, hhead⟩ :=
    getNNodes_first_seen String.length (by decide : 1 ≤ 2) crowded "order" 2
  have hab : some l = some ["a", "b"] := (hl 7 (by decide +kernel)).symm.trans (by decide +kernel)
  obtain rfl := Option.some.inj hab
  exact ⟨hl 7 (by decide +kernel), hhead (by decide)⟩

/-! ## Changes of the ring -/

/-- The full list of a key. -/
def FullList (hash : String → ℕ) (key : String) (r : ConsistentHashRing) (l : List String) : Prop :=
  ∀ bound, r.ring.length < bound → r.getNNodes hash bound key r.nodes.card = some l

theorem Canonical.fullList (h : Canonical hash r) (hvn : 1 ≤ r.virtualNodes) (key : String) :
    FullList hash key r (r.preference hash key) := by
  intro bound hbound
  rw [h.getNNodes_eq hvn hbound, List.take_of_length_le (h.length_preference hvn key).le]

/-- A node that leaves is deleted from every list. -/
theorem Canonical.preference_removeNode (h : Canonical hash r) {b : String} (hb : b ∈ r.nodes)
    (key : String) :
    (r.removeNode b).preference hash key = (r.preference hash key).filter (· ≠ b) := by
  have hring : (r.removeNode b).ring = r.ring.filter fun e => owner e ≠ b := by
    rw [ConsistentHashRing.removeNode, if_neg (not_not.mpr hb)]
  rw [preference, round, hring, clockwise_filter h.sorted, preference, round, ← eraseDups_filter,
    List.filter_map]
  rfl

/-- A node that comes and leaves again leaves the ring as it was. -/
theorem Canonical.removeNode_addNode (h : Canonical hash r) {x : String} (hx : x ∉ r.nodes) :
    (r.addNode hash x).removeNode x = r :=
  ((h.addNode x).removeNode x).ring_eq h (by simp) (by simp [hx])

theorem head?_filter_ne {l : List String} {b : String} (h : l.head? ≠ some b) :
    (l.filter (· ≠ b)).head? = l.head? := by
  cases l with
  | nil => rfl
  | cons a l =>
    have hne : a ≠ b := fun hab => h (by rw [hab]; rfl)
    rw [List.filter_cons_of_pos (by simpa using hne)]
    rfl

/-- A node that leaves or comes is all that changes in the full list of a key. -/
theorem fullList_changes (hash : String → ℕ) {virtualNodes : ℕ} (hvn : 1 ≤ virtualNodes)
    (calls : List Call) (key : String) :
    let r := after hash virtualNodes calls
    ∃ l, FullList hash key r l ∧
      (∀ b ∈ r.nodes, FullList hash key (r.removeNode b) (l.filter (· ≠ b)) ∧
        (r.getNode hash key ≠ some b →
          (r.removeNode b).getNode hash key = r.getNode hash key)) ∧
      (∀ x ∉ r.nodes, ∃ l', FullList hash key (r.addNode hash x) l' ∧ l'.filter (· ≠ x) = l ∧
        ((r.addNode hash x).getNode hash key ≠ some x →
          (r.addNode hash x).getNode hash key = r.getNode hash key)) := by
  intro r
  have h : Canonical hash r := canonical_after virtualNodes calls
  have hvn' : 1 ≤ r.virtualNodes := by rwa [virtualNodes_after]
  refine ⟨r.preference hash key, h.fullList hvn' key, fun b hb => ⟨?_, fun hprimary => ?_⟩,
    fun x hx => ⟨(r.addNode hash x).preference hash key, ?_, ?_, fun hprimary => ?_⟩⟩
  · rw [← h.preference_removeNode hb]
    exact (h.removeNode b).fullList (by simpa using hvn') key
  · rw [h.getNode_eq] at hprimary
    rw [h.getNode_eq, (h.removeNode b).getNode_eq, h.preference_removeNode hb,
      head?_filter_ne hprimary]
  · exact (h.addNode x).fullList (by simpa using hvn') key
  · rw [← (h.addNode x).preference_removeNode (by simp), h.removeNode_addNode hx]
  · rw [(h.addNode x).getNode_eq] at hprimary
    rw [(h.addNode x).getNode_eq, ← head?_filter_ne hprimary,
      ← (h.addNode x).preference_removeNode (by simp), h.removeNode_addNode hx, ← h.getNode_eq]

theorem fullList_changes_crowded :
    ∃ l, FullList String.length "order" (after String.length 2 crowded) l ∧
      FullList String.length "order" ((after String.length 2 crowded).removeNode "b")
        (l.filter (· ≠ "b")) := by
  obtain ⟨l, hl, hremove, _⟩ := fullList_changes String.length (by decide : 1 ≤ 2) crowded "order"
  exact ⟨l, hl, (hremove "b" (by decide +kernel)).1⟩

/-! ## Rings that agree -/

theorem queueNode_ring_eq (virtualNodes : ℕ) (nodeId : String) (peers : List String) :
    QueueNode.ring hash virtualNodes nodeId peers =
      after hash virtualNodes ((peers ++ [nodeId]).map Call.addNode) := by
  simp [QueueNode.ring, after, List.foldl_map, act]

theorem nodes_foldl_addNode : ∀ (nodeIds : List String) (r : ConsistentHashRing),
    ((nodeIds.map Call.addNode).foldl (act hash) r).nodes = nodeIds.toFinset ∪ r.nodes
  | [], r => by simp
  | a :: nodeIds, r => by
    have ih := nodes_foldl_addNode nodeIds (act hash r (.addNode a))
    rw [List.map_cons, List.foldl_cons, ih, act, nodes_addNode, List.toFinset_cons,
      Finset.union_insert, Finset.insert_union]

/-- Calls that end with the same nodes end with the same ring. -/
theorem after_eq_of_nodes {virtualNodes : ℕ} {calls calls' : List Call}
    (h : (after hash virtualNodes calls).nodes = (after hash virtualNodes calls').nodes) :
    after hash virtualNodes calls = after hash virtualNodes calls' :=
  (canonical_after virtualNodes calls).ring_eq (canonical_after virtualNodes calls')
    (by rw [virtualNodes_after, virtualNodes_after]) h

/-- A node is on the ring when it has been added and not removed since. -/
theorem mem_nodes_after (virtualNodes : ℕ) {a : String} (calls : List Call) :
    a ∈ (after hash virtualNodes calls).nodes ↔
      ∃ l l', calls = l ++ .addNode a :: l' ∧ .removeNode a ∉ l' := by
  induction calls using List.reverseRecOn with
  | nil => simp [after]
  | append_singleton calls c ih =>
    have hlast : after hash virtualNodes (calls ++ [c]) =
        act hash (after hash virtualNodes calls) c := by
      rw [after, List.foldl_append]
      rfl
    rw [hlast]
    constructor
    · intro ha
      cases c with
      | addNode b =>
        rw [act, nodes_addNode, Finset.mem_insert] at ha
        rcases ha with rfl | ha
        · exact ⟨calls, [], rfl, List.not_mem_nil⟩
        · obtain ⟨l, l', rfl, hl'⟩ := ih.mp ha
          exact ⟨l, l' ++ [.addNode b], by simp, by simpa using hl'⟩
      | removeNode b =>
        rw [act, nodes_removeNode, Finset.mem_erase] at ha
        obtain ⟨l, l', rfl, hl'⟩ := ih.mp ha.2
        exact ⟨l, l' ++ [.removeNode b], by simp, by simp [hl', ha.1]⟩
    · rintro ⟨l, l', heq, hl'⟩
      rcases List.eq_nil_or_concat l' with rfl | ⟨l'', d, rfl⟩
      · -- the last call adds it
        obtain ⟨-, hc⟩ := List.append_inj' heq rfl
        rw [List.singleton_inj.mp hc, act, nodes_addNode]
        exact Finset.mem_insert_self _ _
      · -- an earlier call adds it, and the last one does not remove it
        rw [List.concat_eq_append, ← List.cons_append, ← List.append_assoc] at heq
        obtain ⟨hcalls, hc⟩ := List.append_inj' heq rfl
        obtain rfl := List.singleton_inj.mp hc
        rw [List.concat_eq_append, List.mem_append, not_or] at hl'
        have ha := ih.mpr ⟨l, l'', hcalls, hl'.1⟩
        cases c with
        | addNode b =>
          rw [act, nodes_addNode]
          exact Finset.mem_insert_of_mem ha
        | removeNode b =>
          rw [act, nodes_removeNode]
          refine Finset.mem_erase.mpr ⟨?_, ha⟩
          rintro rfl
          exact hl'.2 List.mem_cons_self

/-- The node set after calls determines the ring. In particular two nodes that know the same nodes,
themselves included, choose the same primaries and replicas. -/
theorem same_nodes_same_ring (hash : String → ℕ) (virtualNodes : ℕ) :
    (∀ calls calls' : List Call,
      let r := after hash virtualNodes calls
      let r' := after hash virtualNodes calls'
      r.nodes = r'.nodes →
        r.ring = r'.ring ∧ r.ring.Pairwise (· ≤ ·) ∧ (∀ e ∈ r.ring, owner e ∈ r.nodes) ∧
        (∀ a ∈ r.nodes, (r.ring.filter fun e => owner e = a).length = virtualNodes) ∧
        (∀ key n, ∃ l, ∀ bound, r.ring.length < bound →
          r.getNNodes hash bound key n = some l ∧ r'.getNNodes hash bound key n = some l)) ∧
    (∀ (nodeId nodeId' : String) (peers peers' : List String) (replicationFactor : ℕ)
      (visibilityTimeout : Time), insert nodeId peers.toFinset = insert nodeId' peers'.toFinset →
        (Config.ofRing hash virtualNodes nodeId peers replicationFactor
          visibilityTimeout).getNNodes =
        (Config.ofRing hash virtualNodes nodeId' peers' replicationFactor
          visibilityTimeout).getNNodes) ∧
    ∀ (calls : List Call) (a : String), a ∈ (after hash virtualNodes calls).nodes ↔
      ∃ l l', calls = l ++ .addNode a :: l' ∧ .removeNode a ∉ l' := by
  refine ⟨?_, ?_, fun calls a => mem_nodes_after virtualNodes calls⟩
  · intro calls calls' r r' hnodes
    have h : Canonical hash r := canonical_after virtualNodes calls
    have hvn : r.virtualNodes = virtualNodes := virtualNodes_after virtualNodes calls
    have heq : r = r' := after_eq_of_nodes hnodes
    refine ⟨by rw [heq], h.sorted, fun e he => h.owner_mem he, fun a ha => ?_, fun key n => ?_⟩
    · rw [(h.filter_owner_perm ha).length_eq, hvn, positions, List.length_map, List.length_range]
    · obtain ⟨l, hl⟩ := h.exists_getNNodes key n
      exact ⟨l, fun bound hbound => ⟨hl bound hbound, heq ▸ hl bound hbound⟩⟩
  · intro nodeId nodeId' peers peers' replicationFactor visibilityTimeout hnodes
    have heq : QueueNode.ring hash virtualNodes nodeId peers =
        QueueNode.ring hash virtualNodes nodeId' peers' := by
      rw [queueNode_ring_eq, queueNode_ring_eq]
      refine after_eq_of_nodes ?_
      rw [after, after, nodes_foldl_addNode, nodes_foldl_addNode]
      simpa [Finset.union_comm] using hnodes
    funext key n
    simp only [Config.ofRing, heq]

theorem same_nodes_same_ring_crowded :
    (after String.length 2 crowded).ring =
      (after String.length 2 [.addNode "d", .addNode "b", .addNode "a", .addNode "b"]).ring :=
  ((same_nodes_same_ring String.length 2).1 crowded
    [.addNode "d", .addNode "b", .addNode "a", .addNode "b"] (by decide +kernel)).1

end ConsistentHashRing

end Queue
