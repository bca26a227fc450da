import Mathlib.Data.List.Nodup
import Mathlib.Data.List.Lookmap
import Mathlib.Data.Finset.Basic

/-!
# Insertion-ordered dictionaries

A Python `dict` as a list of entries with distinct keys.

Mathlib's `AList` is not used because its `insert` moves the key to the front. In Python an
assignment to a key that is present keeps the key's place and a new key goes to the end, and the
iteration order of the programs modelled here depends on it.

* `set` — `d[k] = v`
* `erase` — `del d[k]` and `d.pop(k, None)`
* `get?` — `d.get(k)`
-/

namespace Infra

/-- A `dict`: entries in insertion order, no key twice. -/
structure Dict (κ ν : Type*) where
  entries : List (κ × ν)
  nodup : (entries.map Prod.fst).Nodup

namespace Dict

variable {κ ν : Type*}

/-- The empty dictionary `{}`. -/
def empty : Dict κ ν := ⟨[], List.nodup_nil⟩

/-- The keys in iteration order. -/
def keys (d : Dict κ ν) : List κ := d.entries.map Prod.fst

/-- The values in iteration order. -/
def values (d : Dict κ ν) : List ν := d.entries.map Prod.snd

theorem keys_nodup (d : Dict κ ν) : d.keys.Nodup := d.nodup

@[simp] theorem keys_empty : (empty : Dict κ ν).keys = [] := rfl

@[simp] theorem values_empty : (empty : Dict κ ν).values = [] := rfl

variable [DecidableEq κ]

/-! ## Reading -/

/-- The value stored under `k` in a list of entries. -/
def lookup (k : κ) : List (κ × ν) → Option ν
  | [] => none
  | e :: es => if e.1 = k then some e.2 else lookup k es

/-- `d.get(k)`. -/
def get? (d : Dict κ ν) (k : κ) : Option ν := lookup k d.entries

/-- `k in d`. -/
def contains (d : Dict κ ν) (k : κ) : Bool := (d.get? k).isSome

theorem lookup_isSome_iff (k : κ) : ∀ es : List (κ × ν),
    (lookup k es).isSome ↔ k ∈ es.map Prod.fst
  | [] => by simp [lookup]
  | e :: es => by
    by_cases h : e.1 = k
    · simp [lookup, h]
    · simp [lookup, h, lookup_isSome_iff k es, Ne.symm h]

theorem lookup_eq_some_iff {k : κ} {v : ν} : ∀ {es : List (κ × ν)},
    (es.map Prod.fst).Nodup → (lookup k es = some v ↔ (k, v) ∈ es)
  | [], _ => by simp [lookup]
  | e :: es, hn => by
    have hn' := List.nodup_cons.mp hn
    by_cases h : e.1 = k
    · have hk : (k, v) ∉ es := fun hm => hn'.1 (h ▸ List.mem_map_of_mem hm)
      simp [lookup, h, hk, Prod.ext_iff, eq_comm]
    · simp [lookup, h, lookup_eq_some_iff hn'.2, Prod.ext_iff, Ne.symm h]

@[simp] theorem get?_empty (k : κ) : (empty : Dict κ ν).get? k = none := rfl

theorem get?_eq_some_iff {d : Dict κ ν} {k : κ} {v : ν} :
    d.get? k = some v ↔ (k, v) ∈ d.entries :=
  lookup_eq_some_iff d.nodup

theorem mem_keys_iff {d : Dict κ ν} {k : κ} : k ∈ d.keys ↔ (d.get? k).isSome :=
  (lookup_isSome_iff k d.entries).symm

theorem get?_eq_none_iff {d : Dict κ ν} {k : κ} : d.get? k = none ↔ k ∉ d.keys := by
  rw [mem_keys_iff]; simp

theorem mem_keys_of_get? {d : Dict κ ν} {k : κ} {v : ν} (h : d.get? k = some v) :
    k ∈ d.keys := by
  rw [mem_keys_iff, h]; rfl

theorem exists_get?_of_mem_keys {d : Dict κ ν} {k : κ} (h : k ∈ d.keys) :
    ∃ v, d.get? k = some v :=
  Option.isSome_iff_exists.mp (mem_keys_iff.mp h)

/-! ## Assignment -/

/-- `d[k] = v` on the list of entries: in place when `k` is there, at the end otherwise. -/
def setEntries (k : κ) (v : ν) : List (κ × ν) → List (κ × ν)
  | [] => [(k, v)]
  | e :: es => if e.1 = k then (k, v) :: es else e :: setEntries k v es

theorem map_fst_setEntries (k : κ) (v : ν) : ∀ es : List (κ × ν),
    (setEntries k v es).map Prod.fst =
      if k ∈ es.map Prod.fst then es.map Prod.fst else es.map Prod.fst ++ [k]
  | [] => by simp [setEntries]
  | e :: es => by
    by_cases h : e.1 = k
    · simp [setEntries, h]
    · have ih := map_fst_setEntries k v es
      by_cases hk : k ∈ es.map Prod.fst
      · rw [if_pos hk] at ih
        simp only [setEntries, h, if_false, List.map_cons, ih]
        rw [if_pos (List.mem_cons_of_mem _ hk)]
      · rw [if_neg hk] at ih
        simp only [setEntries, h, if_false, List.map_cons, ih, List.cons_append]
        rw [if_neg (by simpa [Ne.symm h] using hk)]

theorem nodup_setEntries {k : κ} {v : ν} {es : List (κ × ν)} (h : (es.map Prod.fst).Nodup) :
    ((setEntries k v es).map Prod.fst).Nodup := by
  rw [map_fst_setEntries]
  split
  · exact h
  · next hk => exact List.nodup_append'.mpr ⟨h, List.nodup_singleton k, by simpa using hk⟩

/-- `d[k] = v`. -/
def set (d : Dict κ ν) (k : κ) (v : ν) : Dict κ ν :=
  ⟨setEntries k v d.entries, nodup_setEntries d.nodup⟩

theorem lookup_setEntries (k k' : κ) (v : ν) : ∀ es : List (κ × ν),
    lookup k' (setEntries k v es) = if k = k' then some v else lookup k' es
  | [] => by simp [setEntries, lookup]
  | e :: es => by
    by_cases h : e.1 = k
    · by_cases hk : k = k'
      · simp [setEntries, lookup, h, hk]
      · simp [setEntries, lookup, h, hk]
    · rw [setEntries, if_neg h, lookup, lookup]
      by_cases hk : e.1 = k'
      · rw [if_pos hk, if_pos hk, if_neg (fun he => h (hk.trans he.symm))]
      · rw [if_neg hk, if_neg hk, lookup_setEntries k k' v es]

theorem get?_set (d : Dict κ ν) (k k' : κ) (v : ν) :
    (d.set k v).get? k' = if k = k' then some v else d.get? k' :=
  lookup_setEntries k k' v d.entries

@[simp] theorem get?_set_self (d : Dict κ ν) (k : κ) (v : ν) :
    (d.set k v).get? k = some v := by
  simp [get?_set]

theorem get?_set_ne (d : Dict κ ν) {k k' : κ} (v : ν) (h : k ≠ k') :
    (d.set k v).get? k' = d.get? k' := by
  simp [get?_set, h]

theorem keys_set (d : Dict κ ν) (k : κ) (v : ν) :
    (d.set k v).keys = if k ∈ d.keys then d.keys else d.keys ++ [k] :=
  map_fst_setEntries k v d.entries

theorem keys_set_of_get? {d : Dict κ ν} {k : κ} {v v' : ν} (h : d.get? k = some v) :
    (d.set k v').keys = d.keys := by
  rw [keys_set, if_pos (mem_keys_of_get? h)]

theorem mem_keys_set {d : Dict κ ν} {k k' : κ} {v : ν} :
    k' ∈ (d.set k v).keys ↔ k' = k ∨ k' ∈ d.keys := by
  rw [mem_keys_iff, mem_keys_iff, get?_set]
  by_cases h : k = k'
  · simp [h]
  · simp [h, Ne.symm h]

/-- A new key goes to the end. -/
theorem entries_set_of_not_mem {d : Dict κ ν} {k : κ} (h : k ∉ d.keys) (v : ν) :
    (d.set k v).entries = d.entries ++ [(k, v)] := by
  have hset : ∀ es : List (κ × ν), k ∉ es.map Prod.fst → setEntries k v es = es ++ [(k, v)] := by
    intro es
    induction es with
    | nil => exact fun _ => rfl
    | cons e es ih =>
      intro hk
      obtain ⟨hne, hk'⟩ := not_or.mp (mt List.mem_cons.mpr hk)
      rw [setEntries, if_neg (Ne.symm hne), ih hk', List.cons_append]
  exact hset d.entries h

/-- Looking up values that are stored under their own keys. -/
theorem lookup_map_self (key : ν → κ) (k : κ) : ∀ vs : List ν,
    lookup k (vs.map fun v => (key v, v)) = vs.find? fun v => key v = k
  | [] => rfl
  | v :: vs => by
    by_cases h : key v = k
    · simp [lookup, h]
    · simp [lookup, h, lookup_map_self key k vs]

/-! ## Removal -/

/-- `del d[k]`, and `d.pop(k, None)` where `k` may be missing. -/
def erase (d : Dict κ ν) (k : κ) : Dict κ ν :=
  ⟨d.entries.filter (fun e => e.1 ≠ k), d.nodup.sublist (List.filter_sublist.map _)⟩

theorem lookup_filter_ne (k k' : κ) : ∀ es : List (κ × ν),
    lookup k' (es.filter (fun e => e.1 ≠ k)) = if k = k' then none else lookup k' es
  | [] => by simp [lookup]
  | e :: es => by
    have ih := lookup_filter_ne k k' es
    by_cases h : e.1 = k
    · rw [List.filter_cons_of_neg (by simpa using h), ih]
      by_cases hk : k = k'
      · simp [hk]
      · simp [lookup, h, hk]
    · rw [List.filter_cons_of_pos (by simpa using h), lookup, lookup]
      by_cases hk : e.1 = k'
      · rw [if_pos hk, if_pos hk, if_neg (fun he => h (hk.trans he.symm))]
      · rw [if_neg hk, if_neg hk, ih]

theorem get?_erase (d : Dict κ ν) (k k' : κ) :
    (d.erase k).get? k' = if k = k' then none else d.get? k' :=
  lookup_filter_ne k k' d.entries

theorem get?_of_get?_erase {d : Dict κ ν} {k k' : κ} {v : ν} (h : (d.erase k).get? k' = some v) :
    d.get? k' = some v := by
  rw [get?_erase] at h
  split at h
  · cases h
  · exact h

theorem mem_keys_erase {d : Dict κ ν} {k k' : κ} :
    k' ∈ (d.erase k).keys ↔ k' ≠ k ∧ k' ∈ d.keys := by
  rw [mem_keys_iff, mem_keys_iff, get?_erase]
  by_cases h : k = k'
  · simp [h]
  · simp [h, Ne.symm h]

theorem keys_erase (d : Dict κ ν) (k : κ) : (d.erase k).keys = d.keys.filter (· ≠ k) := by
  simp only [keys, erase, List.filter_map]
  rfl

theorem length_keys_erase_lt {d : Dict κ ν} {k : κ} (h : k ∈ d.keys) :
    (d.erase k).keys.length < d.keys.length := by
  rw [keys_erase]
  exact List.length_filter_lt_length_iff_exists.mpr ⟨k, h, by simp⟩

omit [DecidableEq κ] in
theorem keys_eq_singleton_iff {d : Dict κ ν} {k : κ} :
    d.keys = [k] ↔ k ∈ d.keys ∧ ∀ x ∈ d.keys, x = k := by
  constructor
  · intro h
    simp [h]
  · rintro ⟨hk, hall⟩
    have hn := d.keys_nodup
    cases hd : d.keys with
    | nil => rw [hd] at hk; cases hk
    | cons a as =>
      rw [hd] at hall hn
      obtain rfl : a = k := hall a List.mem_cons_self
      cases as with
      | nil => rfl
      | cons b bs =>
        have hb : b = a := hall b (by simp)
        simp [hb] at hn

omit [DecidableEq κ] in
/-- A dict that has keys, and not just `k`, has a key other than `k`. -/
theorem exists_mem_keys_ne {d : Dict κ ν} {k k' : κ} (hk' : k' ∈ d.keys) (hne : d.keys ≠ [k]) :
    ∃ x ∈ d.keys, x ≠ k := by
  by_contra hall
  have hall' : ∀ x ∈ d.keys, x = k := fun x hx => by_contra fun hxk => hall ⟨x, hx, hxk⟩
  exact hne (keys_eq_singleton_iff.mpr ⟨hall' k' hk' ▸ hk', hall'⟩)

/-- Removing the key leaves nothing exactly when it was the only one. -/
theorem keys_erase_eq_nil_iff {d : Dict κ ν} {k : κ} (hk : k ∈ d.keys) :
    (d.erase k).keys = [] ↔ d.keys = [k] := by
  rw [keys_erase, List.filter_eq_nil_iff, keys_eq_singleton_iff]
  simp [hk]

/-! ## Values -/

omit [DecidableEq κ] in
theorem length_values (d : Dict κ ν) : d.values.length = d.keys.length := by
  simp [values, keys]

theorem mem_values_iff {d : Dict κ ν} {v : ν} : v ∈ d.values ↔ ∃ k, d.get? k = some v := by
  simp [values, get?_eq_some_iff]

theorem mem_values_of_get? {d : Dict κ ν} {k : κ} {v : ν} (h : d.get? k = some v) :
    v ∈ d.values :=
  mem_values_iff.mpr ⟨k, h⟩

theorem mem_values_set {d : Dict κ ν} {k : κ} {v x : ν} (h : x ∈ (d.set k v).values) :
    x = v ∨ x ∈ d.values := by
  obtain ⟨k', hk'⟩ := mem_values_iff.mp h
  rw [get?_set] at hk'
  split at hk'
  · exact Or.inl (Option.some.inj hk').symm
  · exact Or.inr (mem_values_of_get? hk')

theorem mem_values_erase {d : Dict κ ν} {k : κ} {x : ν} (h : x ∈ (d.erase k).values) :
    x ∈ d.values := by
  obtain ⟨k', hk'⟩ := mem_values_iff.mp h
  rw [get?_erase] at hk'
  split at hk'
  · cases hk'
  · exact mem_values_of_get? hk'

omit [DecidableEq κ] in
@[ext] theorem ext {d d' : Dict κ ν} (h : d.entries = d'.entries) : d = d' := by
  cases d
  cases d'
  subst h
  rfl

/-- A key that is missing can be removed. -/
theorem erase_of_get?_none {d : Dict κ ν} {k : κ} (h : d.get? k = none) : d.erase k = d := by
  refine ext (List.filter_eq_self.mpr fun e he => ?_)
  have hk : e.1 ∈ d.keys := List.mem_map_of_mem he
  have hne : e.1 ≠ k := fun heq => get?_eq_none_iff.mp h (heq ▸ hk)
  simpa using hne

theorem perm_filter_ne {k : κ} {v : ν} : ∀ {es : List (κ × ν)}, (es.map Prod.fst).Nodup →
    (k, v) ∈ es → es.Perm ((k, v) :: es.filter fun e => e.1 ≠ k)
  | e :: es, hn, h => by
    obtain ⟨hk, hn'⟩ := List.nodup_cons.mp hn
    rcases List.mem_cons.mp h with rfl | h
    · rw [List.filter_cons_of_neg (by simp), List.filter_eq_self.mpr]
      intro x hx
      have hx' : x.1 ∈ es.map Prod.fst := List.mem_map_of_mem hx
      have hne : x.1 ≠ k := fun heq => hk (heq ▸ hx')
      simpa using hne
    · have h' : k ∈ es.map Prod.fst := List.mem_map_of_mem h
      have hne : e.1 ≠ k := fun heq => hk (heq ▸ h')
      rw [List.filter_cons_of_pos (by simpa using hne)]
      exact ((perm_filter_ne hn' h).cons e).trans (List.Perm.swap _ _ _)

/-- The value under a key, and the other values. -/
theorem values_perm {d : Dict κ ν} {k : κ} {v : ν} (h : d.get? k = some v) :
    d.values.Perm (v :: (d.erase k).values) :=
  (perm_filter_ne d.nodup (get?_eq_some_iff.mp h)).map Prod.snd

theorem filter_setEntries (k : κ) (v : ν) : ∀ es : List (κ × ν),
    (setEntries k v es).filter (fun e => e.1 ≠ k) = es.filter fun e => e.1 ≠ k
  | [] => by simp [setEntries]
  | e :: es => by
    by_cases h : e.1 = k
    · simp [setEntries, h]
    · have ih := filter_setEntries k v es
      simp only [setEntries, h, if_false]
      rw [List.filter_cons_of_pos (by simpa using h), List.filter_cons_of_pos (by simpa using h),
        ih]

@[simp] theorem erase_set (d : Dict κ ν) (k : κ) (v : ν) : (d.set k v).erase k = d.erase k :=
  ext (filter_setEntries k v d.entries)

/-- An assignment replaces the value under its key. -/
theorem values_set_perm (d : Dict κ ν) (k : κ) (v : ν) :
    (d.set k v).values.Perm (v :: (d.erase k).values) := by
  have h := values_perm (get?_set_self d k v)
  rwa [erase_set] at h

/-! ## Loops of assignments -/

/-- `for k in ks: d[k] = v`. -/
def setAll (d : Dict κ ν) (ks : List κ) (v : ν) : Dict κ ν := ks.foldl (fun d k => d.set k v) d

theorem get?_setAll (k' : κ) (v : ν) : ∀ (ks : List κ) (d : Dict κ ν),
    (d.setAll ks v).get? k' = if k' ∈ ks then some v else d.get? k'
  | [], d => by simp [setAll]
  | k :: ks, d => by
    have ih := get?_setAll k' v ks (d.set k v)
    rw [show d.setAll (k :: ks) v = (d.set k v).setAll ks v from rfl, ih, get?_set]
    by_cases h : k' ∈ ks
    · simp [h]
    · by_cases hk : k = k'
      · simp [hk]
      · simp [h, hk, Ne.symm hk]

/-- `for k in ks: d[k] = f(k)`. -/
theorem get?_foldl_set (f : κ → ν) (k' : κ) : ∀ (ks : List κ) (d : Dict κ ν),
    (ks.foldl (fun d k => d.set k (f k)) d).get? k' = if k' ∈ ks then some (f k') else d.get? k'
  | [], d => by simp
  | k :: ks, d => by
    rw [List.foldl_cons, get?_foldl_set f k' ks, get?_set]
    by_cases h : k' ∈ ks
    · simp [h]
    · by_cases hk : k = k'
      · simp [hk]
      · simp [h, hk, Ne.symm hk]

/-! ## Mapping the values -/

section MapValues

variable {μ : Type*} (f : ν → μ)

/-- The same keys in the same order, with `f` applied to the values. -/
def mapValues (d : Dict κ ν) : Dict κ μ :=
  ⟨d.entries.map fun e => (e.1, f e.2), by
    rw [List.map_map]
    exact d.nodup⟩

omit [DecidableEq κ] in
@[simp] theorem keys_mapValues (d : Dict κ ν) : (d.mapValues f).keys = d.keys := by
  simp [keys, mapValues]

omit [DecidableEq κ] in
@[simp] theorem values_mapValues (d : Dict κ ν) : (d.mapValues f).values = d.values.map f := by
  simp [values, mapValues]

theorem lookup_map (k : κ) : ∀ es : List (κ × ν),
    lookup k (es.map fun e => (e.1, f e.2)) = (lookup k es).map f
  | [] => rfl
  | e :: es => by
    by_cases h : e.1 = k
    · simp [lookup, h]
    · simp [lookup, h, lookup_map k es]

@[simp] theorem get?_mapValues (d : Dict κ ν) (k : κ) :
    (d.mapValues f).get? k = (d.get? k).map f :=
  lookup_map f k d.entries

theorem map_setEntries (k : κ) (v : ν) : ∀ es : List (κ × ν),
    (setEntries k v es).map (fun e => (e.1, f e.2)) =
      setEntries k (f v) (es.map fun e => (e.1, f e.2))
  | [] => rfl
  | e :: es => by
    by_cases h : e.1 = k
    · simp [setEntries, h]
    · simp [setEntries, h, map_setEntries k v es]

@[simp] theorem mapValues_set (d : Dict κ ν) (k : κ) (v : ν) :
    (d.set k v).mapValues f = (d.mapValues f).set k (f v) := by
  unfold mapValues set
  congr 1
  exact map_setEntries f k v d.entries

@[simp] theorem mapValues_erase (d : Dict κ ν) (k : κ) :
    (d.erase k).mapValues f = (d.mapValues f).erase k := by
  unfold mapValues erase
  congr 1
  rw [List.filter_map]
  rfl

end MapValues

end Dict

end Infra
