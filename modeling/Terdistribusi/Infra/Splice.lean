import Mathlib.Data.List.Infix
import Mathlib.Data.List.TakeDrop

/-!
# Splicing a batch of entries into a log

A follower writes a batch of entries into its log one by one. An entry whose term equals the term
already stored at its position is skipped, a differing term cuts the log off there, and past the
end the entry is appended.

When equal terms at one position mean equal logs up to that position, the whole loop has a simple
result: the log stays as it is if it already extends what the batch describes, and becomes exactly
that otherwise (`splice_eq`).

Without any assumption, the loop keeps the log up to the first differing term (`take_splice`).
-/

namespace Infra

variable {Entry : Type*} (tm : Entry → ℕ)

/-- Writes the entry `e` at position `pos`. -/
def put (l : List Entry) (pos : ℕ) (e : Entry) : List Entry :=
  match l[pos]? with
  | some old => if tm old ≠ tm e then l.take pos ++ [e] else l
  | none => l ++ [e]

/-- Writes a batch of entries from position `pos` on. -/
def splice : List Entry → ℕ → List Entry → List Entry
  | l, _, [] => l
  | l, pos, e :: es => splice (put tm l pos e) (pos + 1) es

/-- The first position at which the batch differs in its term from what is stored there. -/
def firstConflict (l : List Entry) : ℕ → List Entry → Option ℕ
  | _, [] => none
  | pos, e :: es =>
    match l[pos]? with
    | some old => if tm old ≠ tm e then some pos else firstConflict l (pos + 1) es
    | none => firstConflict l (pos + 1) es

/-- Equal terms at one position mean equal logs up to that position. -/
def Matching (l m : List Entry) : Prop :=
  ∀ (i : ℕ) (a b : Entry), l[i]? = some a → m[i]? = some b → tm a = tm b →
    l.take (i + 1) = m.take (i + 1)

theorem getElem?_of_isPrefix {l m : List Entry} (h : l <+: m) {i : ℕ} {e : Entry}
    (hi : l[i]? = some e) : m[i]? = some e := by
  obtain ⟨hlt, rfl⟩ := List.getElem?_eq_some_iff.mp hi
  exact List.prefix_iff_getElem?.mp h i hlt

variable {tm}

theorem matching_of_forall_lt {l m : List Entry} (h : ∀ i < l.length,
    (l[i]?).map tm = (m[i]?).map tm → l.take (i + 1) = m.take (i + 1)) : Matching tm l m := by
  intro i a b ha hb hterm
  refine h i (List.getElem?_eq_some_iff.mp ha).1 ?_
  rw [ha, hb, Option.map_some, Option.map_some, hterm]

theorem matching_take (l : List Entry) (n : ℕ) : Matching tm l (l.take n) := by
  intro i a b _ hb _
  obtain ⟨hlt, -⟩ := List.getElem?_eq_some_iff.mp hb
  rw [List.length_take] at hlt
  rw [List.take_take, Nat.min_eq_left (by omega)]

theorem Matching.take {l m : List Entry} (h : Matching tm l m) (n : ℕ) :
    Matching tm m (l.take n) := by
  intro i a b ha hb hterm
  obtain ⟨hlt, -⟩ := List.getElem?_eq_some_iff.mp hb
  rw [List.length_take] at hlt
  rw [List.getElem?_take_of_lt (by omega)] at hb
  rw [List.take_take, Nat.min_eq_left (by omega)]
  exact (h i b a hb ha hterm.symm).symm

theorem put_eq_self {l : List Entry} {pos : ℕ} {a e : Entry} (ha : l[pos]? = some a)
    (h : tm a = tm e) : put tm l pos e = l := by
  simp [put, ha, h]

theorem put_of_conflict {l : List Entry} {pos : ℕ} {a e : Entry} (ha : l[pos]? = some a)
    (h : tm a ≠ tm e) : put tm l pos e = l.take pos ++ [e] := by
  simp [put, ha, h]

theorem put_of_end {l : List Entry} {pos : ℕ} {e : Entry} (ha : l[pos]? = none) :
    put tm l pos e = l ++ [e] := by
  simp [put, ha]

/-- A log that is itself a front part of `m` is completed to `m`. -/
theorem splice_take (m : List Entry) : ∀ (n k : ℕ), m.length - k = n → k ≤ m.length →
    splice tm (m.take k) k (m.drop k) = m := by
  intro n
  induction n with
  | zero =>
    intro k hn hk
    have hkm : m.length = k := by omega
    rw [← hkm, List.drop_length, List.take_length, splice]
  | succ n ih =>
    intro k hn hk
    have hlt : k < m.length := by omega
    rw [List.drop_eq_getElem_cons hlt, splice,
      put_of_end (List.getElem?_eq_none (List.length_take_le k m)),
      List.take_append_getElem hlt]
    exact ih (k + 1) (by omega) hlt

/-- **The result of a splice**: `l` when it already extends `m`, and `m` otherwise. -/
theorem splice_eq {l m : List Entry} (hm : Matching tm l m) : ∀ (n k : ℕ), m.length - k = n →
    k ≤ m.length → l.take k = m.take k →
    (m <+: l ∧ splice tm l k (m.drop k) = l) ∨ (¬ m <+: l ∧ splice tm l k (m.drop k) = m) := by
  intro n
  induction n with
  | zero =>
    intro k hn hk hl
    have hkm : m.length = k := by omega
    rw [← hkm, List.take_length] at hl
    refine Or.inl ⟨hl ▸ List.take_prefix _ _, ?_⟩
    rw [← hkm, List.drop_length, splice]
  | succ n ih =>
    intro k hn hk hl
    have hlt : k < m.length := by omega
    have hmk : m[k]? = some m[k] := List.getElem?_eq_getElem hlt
    rw [List.drop_eq_getElem_cons hlt, splice]
    cases hlk : l[k]? with
    | none =>
      -- the log ends here: everything left is appended
      have hlen : l.length ≤ k := List.getElem?_eq_none_iff.mp hlk
      rw [List.take_of_length_le hlen] at hl
      refine Or.inr ⟨fun hp => absurd hp.length_le (by omega), ?_⟩
      rw [put_of_end hlk, hl, List.take_append_getElem hlt]
      exact splice_take m n (k + 1) (by omega) hlt
    | some a =>
      by_cases hterm : tm a = tm m[k]
      · rw [put_eq_self hlk hterm]
        exact ih (k + 1) (by omega) hlt (hm k a m[k] hlk hmk hterm)
      · -- a conflict: the log is cut off and the rest of the batch appended
        refine Or.inr ⟨fun hp => ?_, ?_⟩
        · have hla : l[k]? = some m[k] := getElem?_of_isPrefix hp hmk
          rw [hlk] at hla
          exact hterm (by rw [Option.some.inj hla])
        · rw [put_of_conflict hlk hterm, hl, List.take_append_getElem hlt]
          exact splice_take m n (k + 1) (by omega) hlt

/-! ## What a splice keeps -/

theorem splice_of_length_le : ∀ (es : List Entry) {l : List Entry} {pos : ℕ}, l.length ≤ pos →
    splice tm l pos es = l ++ es
  | [], l, _, _ => (List.append_nil l).symm
  | e :: es, l, pos, h => by
    rw [splice, put_of_end (List.getElem?_eq_none h),
      splice_of_length_le es (by simpa using h), List.append_assoc, List.singleton_append]

/-- The log up to the first conflict is kept. -/
theorem take_splice {l : List Entry} {q : ℕ} : ∀ (es : List Entry) (pos : ℕ),
    (∀ p, firstConflict tm l pos es = some p → q ≤ p) → l.take q <+: splice tm l pos es
  | [], _, _ => List.take_prefix q l
  | e :: es, pos, h => by
    cases hl : l[pos]? with
    | none =>
      rw [splice_of_length_le (e :: es) (List.getElem?_eq_none_iff.mp hl)]
      have htake : l.take q <+: l := List.take_prefix q l
      exact htake.trans (List.prefix_append l _)
    | some old =>
      have hlt : pos < l.length := (List.getElem?_eq_some_iff.mp hl).1
      by_cases hterm : tm old = tm e
      · rw [splice, put_eq_self hl hterm]
        refine take_splice es (pos + 1) fun p hp => h p ?_
        simpa [firstConflict, hl, hterm] using hp
      · -- the log is cut off here, behind the part that is asked for
        have hq : q ≤ pos := h pos (by simp [firstConflict, hl, hterm])
        have hlen : (l.take pos ++ [e]).length ≤ pos + 1 := by
          rw [List.length_append, List.length_take, List.length_singleton]
          omega
        rw [splice, put_of_conflict hl hterm, splice_of_length_le es hlen, List.append_assoc]
        exact (List.take_prefix_take_left hq).trans (List.prefix_append _ _)

/-- A batch that is already in the log has no conflict with it. -/
theorem firstConflict_eq_none {l : List Entry} : ∀ (es : List Entry) (pos : ℕ),
    (∀ i e, es[i]? = some e → l[pos + i]? = some e) → firstConflict tm l pos es = none
  | [], _, _ => rfl
  | e :: es, pos, h => by
    have hl : l[pos]? = some e := h 0 e rfl
    rw [firstConflict, hl]
    simp only [ne_eq, not_true_eq_false, if_false]
    refine firstConflict_eq_none es (pos + 1) fun i x hx => ?_
    rw [Nat.add_assoc, Nat.add_comm 1 i]
    exact h (i + 1) x hx

/-- A splice brings in no other entries than those of the batch. -/
theorem mem_splice {x : Entry} : ∀ (es : List Entry) {l : List Entry} {pos : ℕ},
    x ∈ splice tm l pos es → x ∈ l ∨ x ∈ es
  | [], _, _, h => Or.inl h
  | e :: es, l, pos, h => by
    rw [splice] at h
    rcases mem_splice es h with hput | hes
    · unfold put at hput
      split at hput
      · split at hput
        · rcases List.mem_append.mp hput with hl | he
          · exact Or.inl (List.mem_of_mem_take hl)
          · exact Or.inr (List.mem_singleton.mp he ▸ List.mem_cons_self)
        · exact Or.inl hput
      · rcases List.mem_append.mp hput with hl | he
        · exact Or.inl hl
        · exact Or.inr (List.mem_singleton.mp he ▸ List.mem_cons_self)
    · exact Or.inr (List.mem_cons_of_mem e hes)

end Infra
