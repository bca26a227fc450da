import Terdistribusi.Infra.Dict

/-!
# Dictionaries of values under their own keys

A dictionary in which every value is stored under the key it has itself, as `d[v.id] = v` leaves it.

* `put` — `d[v.id] = v`
* `pop` — `d.pop(k, None)`
* `values_perm` — the value under a key, and the others
* `foldl_values`, `get?_foldl_values` — the loop over the items, with rounds that remove them
-/

namespace Infra

/-- A dictionary whose values have the keys they are stored under. -/
structure Keyed {κ ν : Type*} [DecidableEq κ] (key : ν → κ) where
  dict : Dict κ ν
  keyed : ∀ k v, dict.get? k = some v → key v = k

namespace Keyed

variable {κ ν : Type*} [DecidableEq κ] {key : ν → κ}

def empty : Keyed key := ⟨Dict.empty, fun _ _ h => by cases h⟩

/-- `d.get(k)`. -/
def get? (t : Keyed key) (k : κ) : Option ν := t.dict.get? k

def keys (t : Keyed key) : List κ := t.dict.keys

def values (t : Keyed key) : List ν := t.dict.values

/-- `d[v.id] = v`. -/
def put (t : Keyed key) (v : ν) : Keyed key where
  dict := t.dict.set (key v) v
  keyed := fun k v' h => by
    rw [Dict.get?_set] at h
    split at h
    · next hk =>
      cases h
      exact hk
    · exact t.keyed k v' h

/-- `d.pop(k, None)`. -/
def pop (t : Keyed key) (k : κ) : Keyed key where
  dict := t.dict.erase k
  keyed := fun k' v h => by
    rw [Dict.get?_erase] at h
    split at h
    · cases h
    · exact t.keyed k' v h

@[ext] theorem ext {t t' : Keyed key} (h : t.dict = t'.dict) : t = t' := by
  cases t
  cases t'
  subst h
  rfl

theorem key_of_get? {t : Keyed key} {k : κ} {v : ν} (h : t.get? k = some v) : key v = k :=
  t.keyed k v h

@[simp] theorem values_empty : (empty : Keyed key).values = [] := rfl

@[simp] theorem get?_empty (k : κ) : (empty : Keyed key).get? k = none := rfl

theorem get?_put (t : Keyed key) (v : ν) (k : κ) :
    (t.put v).get? k = if key v = k then some v else t.get? k :=
  t.dict.get?_set (key v) k v

@[simp] theorem get?_put_self (t : Keyed key) (v : ν) : (t.put v).get? (key v) = some v := by
  simp [get?_put]

theorem get?_pop (t : Keyed key) (k k' : κ) :
    (t.pop k).get? k' = if k = k' then none else t.get? k' :=
  t.dict.get?_erase k k'

@[simp] theorem get?_pop_self (t : Keyed key) (k : κ) : (t.pop k).get? k = none := by
  simp [get?_pop]

theorem get?_of_get?_pop {t : Keyed key} {k k' : κ} {v : ν} (h : (t.pop k).get? k' = some v) :
    t.get? k' = some v :=
  Dict.get?_of_get?_erase h

theorem pop_of_get?_none {t : Keyed key} {k : κ} (h : t.get? k = none) : t.pop k = t :=
  ext (Dict.erase_of_get?_none h)

theorem mem_values_iff {t : Keyed key} {v : ν} : v ∈ t.values ↔ t.get? (key v) = some v := by
  refine Dict.mem_values_iff.trans ⟨?_, fun h => ⟨key v, h⟩⟩
  rintro ⟨k, hk⟩
  obtain rfl := t.keyed k v hk
  exact hk

theorem mem_values_of_get? {t : Keyed key} {k : κ} {v : ν} (h : t.get? k = some v) :
    v ∈ t.values :=
  Dict.mem_values_of_get? h

theorem mem_values_put {t : Keyed key} {v x : ν} (h : x ∈ (t.put v).values) :
    x = v ∨ x ∈ t.values :=
  Dict.mem_values_set h

theorem mem_values_pop {t : Keyed key} {k : κ} {x : ν} :
    x ∈ (t.pop k).values ↔ x ∈ t.values ∧ key x ≠ k := by
  rw [mem_values_iff, mem_values_iff, get?_pop]
  by_cases h : k = key x
  · simp [h]
  · simp [h, Ne.symm h]

/-- The value under a key, and the other values. -/
theorem values_perm {t : Keyed key} {k : κ} {v : ν} (h : t.get? k = some v) :
    t.values.Perm (v :: (t.pop k).values) :=
  Dict.values_perm h

theorem values_put_perm (t : Keyed key) (v : ν) :
    (t.put v).values.Perm (v :: (t.pop (key v)).values) :=
  t.dict.values_set_perm (key v) v

theorem values_pop_sublist (t : Keyed key) (k : κ) : (t.pop k).values.Sublist t.values :=
  List.filter_sublist.map Prod.snd

/-- Every key has one value at most. -/
theorem nodup_keys (t : Keyed key) : (t.values.map key).Nodup := by
  have h : t.values.map key = t.keys := by
    unfold values keys Dict.values Dict.keys
    rw [List.map_map]
    refine List.map_congr_left fun e he => ?_
    exact t.keyed e.1 e.2 (Dict.get?_eq_some_iff.mpr he)
  rw [h]
  exact t.dict.keys_nodup

/-! ## Loops over the items -/

section Loop

variable {σ : Type*} {table : σ → Keyed key} {f : σ → ν → σ} {R : σ → σ → Prop}

theorem foldl_induction (hrefl : ∀ s, R s s) (htrans : ∀ a b c, R a b → R b c → R a c)
    (hf : ∀ s v k, key v ≠ k → (table (f s v)).get? k = (table s).get? k)
    (hstep : ∀ s v, (table s).get? (key v) = some v → R s (f s v)) :
    ∀ (vs : List ν) (s : σ), (vs.map key).Nodup →
      (∀ v ∈ vs, (table s).get? (key v) = some v) → R s (vs.foldl f s)
  | [], s, _, _ => hrefl s
  | v :: vs, s, hn, hvs => by
    obtain ⟨hv, hn'⟩ := List.nodup_cons.mp hn
    have hrest : ∀ w ∈ vs, (table (f s v)).get? (key w) = some w := by
      intro w hw
      have hne : key v ≠ key w := fun h => hv (h ▸ List.mem_map_of_mem hw)
      rw [hf s v (key w) hne]
      exact hvs w (List.mem_cons_of_mem v hw)
    exact htrans _ _ _ (hstep s v (hvs v List.mem_cons_self))
      (foldl_induction hrefl htrans hf hstep vs (f s v) hn' hrest)

/-- **The loop over the items.** A round touches the table at the key of its own item only, so every
item is still there when its turn comes. -/
theorem foldl_values (hrefl : ∀ s, R s s) (htrans : ∀ a b c, R a b → R b c → R a c)
    (hf : ∀ s v k, key v ≠ k → (table (f s v)).get? k = (table s).get? k)
    (hstep : ∀ s v, (table s).get? (key v) = some v → R s (f s v)) (s : σ) :
    R s ((table s).values.foldl f s) :=
  foldl_induction hrefl htrans hf hstep _ s (table s).nodup_keys
    (fun _ hv => mem_values_iff.mp hv)

theorem get?_foldl_of_not_mem (hf : ∀ s v k, key v ≠ k → (table (f s v)).get? k = (table s).get? k)
    {k : κ} : ∀ (vs : List ν) (s : σ), k ∉ vs.map key →
      (table (vs.foldl f s)).get? k = (table s).get? k
  | [], _, _ => rfl
  | v :: vs, s, hk => by
    obtain ⟨hv, hvs⟩ := not_or.mp (mt List.mem_cons.mpr hk)
    rw [List.foldl_cons, get?_foldl_of_not_mem hf vs (f s v) hvs, hf s v k (Ne.symm hv)]

variable (table f) in
/-- After the loop, the table has what the rounds make of their own items. -/
theorem get?_foldl_values (g : ν → Option ν)
    (hf : ∀ s v k, key v ≠ k → (table (f s v)).get? k = (table s).get? k)
    (hown : ∀ s v, (table s).get? (key v) = some v → (table (f s v)).get? (key v) = g v)
    (s : σ) (k : κ) : (table ((table s).values.foldl f s)).get? k = ((table s).get? k).bind g := by
  have key' : ∀ (vs : List ν) (s : σ), (vs.map key).Nodup →
      (∀ v ∈ vs, (table s).get? (key v) = some v) → ∀ v ∈ vs,
        (table (vs.foldl f s)).get? (key v) = g v := by
    intro vs
    induction vs with
    | nil => simp
    | cons w vs ih =>
      intro s hn hvs v hv
      obtain ⟨hw, hn'⟩ := List.nodup_cons.mp hn
      rcases List.mem_cons.mp hv with rfl | hv
      · rw [List.foldl_cons, get?_foldl_of_not_mem hf vs (f s v) hw]
        exact hown s v (hvs v List.mem_cons_self)
      · refine ih (f s w) hn' (fun x hx => ?_) v hv
        have hne : key w ≠ key x := fun h => hw (h ▸ List.mem_map_of_mem hx)
        rw [hf s w (key x) hne]
        exact hvs x (List.mem_cons_of_mem w hx)
  cases hget : (table s).get? k with
  | none =>
    have hk : k ∉ (table s).values.map key := by
      intro hmem
      obtain ⟨v, hv, rfl⟩ := List.mem_map.mp hmem
      rw [mem_values_iff.mp hv] at hget
      cases hget
    rw [get?_foldl_of_not_mem hf _ s hk, hget]
    rfl
  | some v =>
    obtain rfl := key_of_get? hget
    exact key' _ s (table s).nodup_keys (fun _ hv => mem_values_iff.mp hv) v
      (mem_values_iff.mpr hget)

end Loop

end Keyed

end Infra
