import Terdistribusi.Infra.Dict
import Mathlib.Data.List.MinMax

/-!
# Eviction policies

`LRUPolicy` and `LFUPolicy` (`src/nodes/cache_node.py`). An `OrderedDict` whose values are `None` is
a `Dict` of units.
-/

namespace Cache

open Infra

inductive EvictionPolicy (Key : Type)
  | lru (od : Dict Key Unit)
  | lfu (counts : Dict Key ℕ)

namespace EvictionPolicy

variable {Key : Type}

/-- The keys that the policy tracks. -/
def keys : EvictionPolicy Key → List Key
  | lru od => od.keys
  | lfu counts => counts.keys

variable [DecidableEq Key]

/-- `self._od.move_to_end(key)` for a key that is there, and `self._od[key] = None` before it. -/
def moveToEnd (od : Dict Key Unit) (key : Key) : Dict Key Unit := (od.erase key).set key ()

def access (key : Key) : EvictionPolicy Key → EvictionPolicy Key
  | lru od => lru (if od.contains key then moveToEnd od key else od)
  | lfu counts => lfu (counts.set key ((counts.get? key).getD 0 + 1))

def insert (key : Key) : EvictionPolicy Key → EvictionPolicy Key
  | lru od => lru (moveToEnd od key)
  | lfu counts => lfu (if counts.contains key then counts else counts.set key 1)

def remove (key : Key) : EvictionPolicy Key → EvictionPolicy Key
  | lru od => lru (od.erase key)
  | lfu counts => lfu (counts.erase key)

/-- The key that `evict` pops: the first one, or the first one with the fewest uses. -/
def victim? : EvictionPolicy Key → Option Key
  | lru od => od.keys.head?
  | lfu counts => (counts.entries.argmin Prod.snd).map Prod.fst

/-- `evict`, with the policy afterwards. -/
def evict (p : EvictionPolicy Key) : Option (Key × EvictionPolicy Key) :=
  p.victim?.map fun key => (key, p.remove key)

/-! ## The keys -/

theorem keys_remove (key : Key) (p : EvictionPolicy Key) :
    (p.remove key).keys = p.keys.filter (· ≠ key) := by
  cases p with
  | lru od => exact Dict.keys_erase od key
  | lfu counts => exact Dict.keys_erase counts key

theorem keys_moveToEnd (od : Dict Key Unit) (key : Key) :
    (moveToEnd od key).keys = od.keys.filter (· ≠ key) ++ [key] := by
  have hnot : key ∉ (od.erase key).keys := fun h => (Dict.mem_keys_erase.mp h).1 rfl
  rw [moveToEnd, Dict.keys_set, if_neg hnot, Dict.keys_erase]

theorem mem_keys_moveToEnd {od : Dict Key Unit} {key key' : Key} :
    key' ∈ (moveToEnd od key).keys ↔ key' = key ∨ key' ∈ od.keys := by
  rw [keys_moveToEnd]
  by_cases h : key' = key <;> simp [h]

theorem mem_keys_remove {key key' : Key} {p : EvictionPolicy Key} :
    key' ∈ (p.remove key).keys ↔ key' ≠ key ∧ key' ∈ p.keys := by
  rw [keys_remove]
  simp [and_comm]

theorem mem_keys_insert {key key' : Key} {p : EvictionPolicy Key} :
    key' ∈ (p.insert key).keys ↔ key' = key ∨ key' ∈ p.keys := by
  cases p with
  | lru od => exact mem_keys_moveToEnd
  | lfu counts =>
    show key' ∈ (if counts.contains key then counts else counts.set key 1).keys ↔ _
    split
    · next hc =>
      have hmem : key ∈ counts.keys := Dict.mem_keys_iff.mpr hc
      exact ⟨Or.inr, fun h => h.elim (fun he => he ▸ hmem) id⟩
    · exact Dict.mem_keys_set

/-- An access to a key that is tracked. -/
theorem mem_keys_access {key key' : Key} {p : EvictionPolicy Key} (h : key ∈ p.keys) :
    key' ∈ (p.access key).keys ↔ key' ∈ p.keys := by
  have hsame : key' = key ∨ key' ∈ p.keys ↔ key' ∈ p.keys :=
    ⟨fun h' => h'.elim (fun he => he ▸ h) id, Or.inr⟩
  cases p with
  | lru od =>
    have hc : od.contains key = true := Dict.mem_keys_iff.mp h
    rw [access, if_pos hc, ← hsame]
    exact mem_keys_moveToEnd
  | lfu counts =>
    rw [← hsame]
    exact Dict.mem_keys_set

omit [DecidableEq Key] in
/-- A policy that tracks a key has one to evict. -/
theorem exists_victim {p : EvictionPolicy Key} {key : Key} (h : key ∈ p.keys) :
    ∃ victim, p.victim? = some victim := by
  cases p with
  | lru od =>
    have h' : key ∈ od.keys := h
    cases hk : od.keys with
    | nil => rw [hk] at h'; cases h'
    | cons victim ks => exact ⟨victim, by rw [victim?, hk]; rfl⟩
  | lfu counts =>
    obtain ⟨e, he, _⟩ := List.mem_map.mp h
    cases hmin : counts.entries.argmin Prod.snd with
    | none => rw [List.argmin_eq_none.mp hmin] at he; cases he
    | some e' => exact ⟨e'.1, by rw [victim?, hmin]; rfl⟩

omit [DecidableEq Key] in
theorem victim?_mem {p : EvictionPolicy Key} {key : Key} (h : p.victim? = some key) :
    key ∈ p.keys := by
  cases p with
  | lru od => exact List.mem_of_mem_head? h
  | lfu counts =>
    obtain ⟨e, he, rfl⟩ := Option.map_eq_some_iff.mp h
    exact List.mem_map_of_mem (List.argmin_mem he)

/-- What is evicted is no longer tracked. -/
theorem length_keys_of_evict {p q : EvictionPolicy Key} {key : Key} (h : p.evict = some (key, q)) :
    q.keys.length < p.keys.length := by
  obtain ⟨key', hv, heq⟩ := Option.map_eq_some_iff.mp h
  cases heq
  rw [keys_remove]
  refine List.length_filter_lt_length_iff_exists.mpr ⟨key, victim?_mem hv, ?_⟩
  simp

theorem evict_eq_none_of_keys {p : EvictionPolicy Key} (h : p.keys = []) : p.evict = none := by
  unfold evict
  cases hv : p.victim? with
  | none => rfl
  | some key =>
    have hmem := victim?_mem hv
    rw [h] at hmem
    cases hmem

/-! ## The history of a policy -/

/-- The order of an LRU policy is that of the times of the keys, and the numbers of an LFU policy
are one above the counts of the keys. -/
def Tracks (lfu : Bool) (time count : Key → ℕ) : EvictionPolicy Key → Prop
  | .lru od => lfu = false ∧ od.keys.Pairwise fun a b => time a < time b
  | .lfu counts => lfu = true ∧ ∀ key n, counts.get? key = some n → n = count key + 1

namespace Tracks

variable {lfu : Bool} {time count time' count' : Key → ℕ} {p : EvictionPolicy Key} {key : Key}

theorem empty : Tracks lfu time count
    (if lfu then EvictionPolicy.lfu Dict.empty else lru Dict.empty : EvictionPolicy Key) := by
  cases lfu with
  | false => exact ⟨rfl, List.Pairwise.nil⟩
  | true => exact ⟨rfl, fun key n h => by cases h⟩

theorem remove (h : Tracks lfu time count p) (key : Key) :
    Tracks lfu time count (p.remove key) := by
  cases p with
  | lru od =>
    refine ⟨h.1, ?_⟩
    rw [Dict.keys_erase]
    exact h.2.filter _
  | lfu counts => exact ⟨h.1, fun key' n hn => h.2 key' n (Dict.get?_of_get?_erase hn)⟩

/-- A key goes to the end when its time is the latest. -/
theorem pairwise_moveToEnd {od : Dict Key Unit} (h : od.keys.Pairwise fun a b => time a < time b)
    (htime : ∀ a, time a < time' key) (hsame : ∀ a, a ≠ key → time' a = time a) :
    (moveToEnd od key).keys.Pairwise fun a b => time' a < time' b := by
  rw [keys_moveToEnd, List.pairwise_append]
  refine ⟨(h.filter _).imp_of_mem fun {a b} ha hb hab => ?_, List.pairwise_singleton _ _,
    fun a ha b hb => ?_⟩
  · rw [hsame a (by simpa using List.of_mem_filter ha),
      hsame b (by simpa using List.of_mem_filter hb)]
    exact hab
  · rw [List.mem_singleton.mp hb, hsame a (by simpa using List.of_mem_filter ha)]
    exact htime a

theorem access (h : Tracks lfu time count p) (hmem : key ∈ p.keys)
    (htime : ∀ a, time a < time' key) (hcount : count' key = count key + 1)
    (hsame : ∀ a, a ≠ key → time' a = time a ∧ count' a = count a) :
    Tracks lfu time' count' (p.access key) := by
  cases p with
  | lru od =>
    have hc : od.contains key = true := Dict.mem_keys_iff.mp hmem
    refine ⟨h.1, ?_⟩
    rw [if_pos hc]
    exact pairwise_moveToEnd h.2 htime fun a ha => (hsame a ha).1
  | lfu counts =>
    refine ⟨h.1, fun a n hn => ?_⟩
    rw [Dict.get?_set] at hn
    split at hn
    · next hk =>
      obtain ⟨n₀, hn₀⟩ := Dict.exists_get?_of_mem_keys hmem
      rw [hn₀] at hn
      rw [← Option.some.inj hn, ← hk, hcount, h.2 key n₀ hn₀, Option.getD_some]
    · next hk => rw [(hsame a (Ne.symm hk)).2, h.2 a n hn]

theorem insert (h : Tracks lfu time count p) (htime : ∀ a, time a < time' key)
    (hcount : count' key = if key ∈ p.keys then count key else 0)
    (hsame : ∀ a, a ≠ key → time' a = time a ∧ count' a = count a) :
    Tracks lfu time' count' (p.insert key) := by
  cases p with
  | lru od => exact ⟨h.1, pairwise_moveToEnd h.2 htime fun a ha => (hsame a ha).1⟩
  | lfu counts =>
    refine ⟨h.1, fun a n hn => ?_⟩
    have hcount : count' key = if key ∈ counts.keys then count key else 0 := hcount
    by_cases hmem : key ∈ counts.keys
    · have hc : counts.contains key = true := Dict.mem_keys_iff.mp hmem
      rw [if_pos hc] at hn
      rw [if_pos hmem] at hcount
      by_cases hk : a = key
      · rw [h.2 a n hn, hk, hcount]
      · rw [h.2 a n hn, (hsame a hk).2]
    · have hc : ¬ counts.contains key = true := fun hc => hmem (Dict.mem_keys_iff.mpr hc)
      rw [if_neg hc, Dict.get?_set] at hn
      rw [if_neg hmem] at hcount
      split at hn
      · next hk => rw [← Option.some.inj hn, ← hk, hcount]
      · next hk => rw [h.2 a n hn, (hsame a (Ne.symm hk)).2]

/-- The victim has the earliest time, or the least count. -/
theorem victim (h : Tracks lfu time count p) {v a : Key} (hv : p.victim? = some v)
    (ha : a ∈ p.keys) (hne : a ≠ v) :
    if lfu then count v ≤ count a else time v < time a := by
  cases p with
  | lru od =>
    obtain ⟨hlfu, hsorted⟩ := h
    have hhead : od.keys.head? = some v := hv
    have ha : a ∈ od.keys := ha
    rw [if_neg (by simp [hlfu])]
    cases hkeys : od.keys with
    | nil => rw [hkeys] at ha; cases ha
    | cons b bs =>
      rw [hkeys] at hsorted ha hhead
      obtain rfl : b = v := Option.some.inj hhead
      rcases List.mem_cons.mp ha with rfl | ha
      · exact absurd rfl hne
      · exact (List.pairwise_cons.mp hsorted).1 a ha
  | lfu counts =>
    obtain ⟨hlfu, hcounts⟩ := h
    rw [if_pos hlfu]
    obtain ⟨e, hmin, rfl⟩ := Option.map_eq_some_iff.mp hv
    obtain ⟨n, hn⟩ := Dict.exists_get?_of_mem_keys (show a ∈ counts.keys from ha)
    have hle : e.2 ≤ n := List.le_of_mem_argmin (Dict.get?_eq_some_iff.mp hn) hmin
    have he := hcounts e.1 e.2 (Dict.get?_eq_some_iff.mpr (List.argmin_mem hmin))
    have ha := hcounts a n hn
    omega

end Tracks

end EvictionPolicy

end Cache
