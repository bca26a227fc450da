import Mathlib.Data.Finset.Card
import Mathlib.Data.List.Chain
import Mathlib.Logic.Function.Basic
import Mathlib.Logic.Relation

/-!
# Depth-first search for a cycle

The three-colour search: a vertex is white before its visit, gray during it and black after it. An
edge to a gray vertex closes a cycle, which is read back along the `parent` entries.

Visits may be nested `bound` deep, and a search that would go deeper ends as `tooDeep`. It does so
only where a path of the graph is longer than the bound (`findCycle_tooDeep`), and for each such
path there are orders of the successors for which it does (`findCycle_of_first`); a larger bound
changes nothing for the other searches (`findCycle_bound`). A search without a cycle leaves every
root black with no cycle through a black vertex (`findCycle_done`), and what a search finds is a
cycle that visits no vertex twice (`findCycle_simple`).
-/

namespace Infra.Dfs

inductive Color
  | white
  | gray
  | black
  deriving DecidableEq, Repr

/-- The two dictionaries of the search. -/
structure Search (V : Type*) where
  color : V → Color := fun _ => .white
  parent : V → Option V := fun _ => none

/-- What a visit ends with. -/
inductive Outcome (V : Type*)
  /-- The visits have been nested deeper than the bound. -/
  | tooDeep
  | found (cycle : List V)
  | done (s : Search V)

variable {V : Type*} [DecidableEq V]

namespace Search

def paint (s : Search V) (u : V) (c : Color) : Search V :=
  { s with color := Function.update s.color u c }

def setParent (s : Search V) (v u : V) : Search V :=
  { s with parent := Function.update s.parent v (some u) }

@[simp] theorem setParent_color (s : Search V) (v u : V) : (s.setParent v u).color = s.color := rfl

@[simp] theorem paint_self (s : Search V) (u : V) (c : Color) : (s.paint u c).color u = c :=
  Function.update_self _ _ _

theorem paint_ne (s : Search V) {u x : V} (c : Color) (h : x ≠ u) :
    (s.paint u c).color x = s.color x :=
  Function.update_of_ne h _ _

end Search

/-! ## The search -/

/-- The vertices from `cur` up to `v`, exclusive, along the parents. -/
def climb (parent : V → Option V) (v : V) : ℕ → Option V → List V
  | 0, _ => []
  | _ + 1, none => []
  | n + 1, some cur => if cur = v then [] else cur :: climb parent v n (parent cur)

/-- The cycle that the edge from `u` to the gray vertex `v` closes. -/
def cycleOf (bound : ℕ) (s : Search V) (u v : V) : List V :=
  ((v :: climb s.parent v bound (some u)) ++ [v]).reverse

/-- The loop over the successors of `u`. -/
def visitAll (bound : ℕ) (visit : V → Search V → Outcome V) (u : V) :
    List V → Search V → Outcome V
  | [], s => .done s
  | v :: vs, s =>
    match s.color v with
    | .gray => .found (cycleOf bound s u v)
    | .white =>
      match visit v (s.setParent v u) with
      | .done s' => visitAll bound visit u vs s'
      | r => r
    | .black => visitAll bound visit u vs s

/-- The visit of a white vertex. -/
def visit (adj : V → List V) (bound : ℕ) : ℕ → V → Search V → Outcome V
  | 0, _, _ => .tooDeep
  | n + 1, u, s =>
    match visitAll bound (visit adj bound n) u (adj u) (s.paint u .gray) with
    | .done s' => .done (s'.paint u .black)
    | r => r

/-- The loop over the roots. -/
def search (adj : V → List V) (bound : ℕ) : List V → Search V → Outcome V
  | [], s => .done s
  | u :: us, s =>
    if s.color u = .white then
      match visit adj bound bound u s with
      | .done s' => search adj bound us s'
      | r => r
    else search adj bound us s

def findCycle (adj : V → List V) (bound : ℕ) (roots : List V) : Outcome V :=
  search adj bound roots {}

/-! ## How a search goes on -/

section

variable {adj : V → List V} {bound n : ℕ} {u v : V} {s : Search V} {r : Outcome V}

/-- The loop ends at its first successor, or it goes on behind it. -/
theorem visitAll_cons_cases {visit : V → Search V → Outcome V} {vs : List V}
    (h : visitAll bound visit u (v :: vs) s = r) :
    (s.color v = .gray ∧ r = .found (cycleOf bound s u v)) ∨
    (s.color v = .white ∧ visit v (s.setParent v u) = r ∧ ∀ s', r ≠ .done s') ∨
    (s.color v = .black ∧ visitAll bound visit u vs s = r) ∨
    (s.color v = .white ∧ ∃ s₁, visit v (s.setParent v u) = .done s₁ ∧
      visitAll bound visit u vs s₁ = r) := by
  rw [visitAll] at h
  cases hc : s.color v with
  | gray =>
    rw [hc] at h
    exact Or.inl ⟨rfl, h.symm⟩
  | black =>
    rw [hc] at h
    exact Or.inr (Or.inr (Or.inl ⟨rfl, h⟩))
  | white =>
    rw [hc] at h
    dsimp only at h
    cases hvis : visit v (s.setParent v u) with
    | done s₁ =>
      rw [hvis] at h
      exact Or.inr (Or.inr (Or.inr ⟨rfl, s₁, rfl, h⟩))
    | tooDeep =>
      rw [hvis] at h
      subst h
      exact Or.inr (Or.inl ⟨rfl, rfl, fun _ hr => by cases hr⟩)
    | found c =>
      rw [hvis] at h
      subst h
      exact Or.inr (Or.inl ⟨rfl, rfl, fun _ hr => by cases hr⟩)

/-- A visit ends as its loop does, and paints its vertex black after the last successor. -/
theorem visit_succ_cases (h : visit adj bound (n + 1) u s = r) :
    (visitAll bound (visit adj bound n) u (adj u) (s.paint u .gray) = r ∧ ∀ s', r ≠ .done s') ∨
    ∃ s₁, visitAll bound (visit adj bound n) u (adj u) (s.paint u .gray) = .done s₁ ∧
      r = .done (s₁.paint u .black) := by
  rw [visit] at h
  cases hloop : visitAll bound (visit adj bound n) u (adj u) (s.paint u .gray) with
  | done s₁ =>
    rw [hloop] at h
    exact Or.inr ⟨s₁, rfl, h.symm⟩
  | tooDeep =>
    rw [hloop] at h
    subst h
    exact Or.inl ⟨rfl, fun _ hr => by cases hr⟩
  | found c =>
    rw [hloop] at h
    subst h
    exact Or.inl ⟨rfl, fun _ hr => by cases hr⟩

/-- The loop over the roots ends in the visit of the first, or it goes on behind it. -/
theorem search_cons_cases {us : List V} (h : search adj bound (u :: us) s = r) :
    (s.color u = .white ∧ visit adj bound bound u s = r ∧ ∀ s', r ≠ .done s') ∨
    (s.color u ≠ .white ∧ search adj bound us s = r) ∨
    (s.color u = .white ∧ ∃ s₁, visit adj bound bound u s = .done s₁ ∧
      search adj bound us s₁ = r) := by
  rw [search] at h
  split at h
  · next hu =>
    cases hvis : visit adj bound bound u s with
    | done s₁ =>
      rw [hvis] at h
      exact Or.inr (Or.inr ⟨hu, s₁, rfl, h⟩)
    | tooDeep =>
      rw [hvis] at h
      subst h
      exact Or.inl ⟨hu, rfl, fun _ hr => by cases hr⟩
    | found c =>
      rw [hvis] at h
      subst h
      exact Or.inl ⟨hu, rfl, fun _ hr => by cases hr⟩
  · next hu => exact Or.inr (Or.inl ⟨hu, h⟩)

end

/-! ## What a search without a cycle leaves behind -/

/-- The black vertices are closed under successors, and no cycle goes through one. -/
structure Explored (adj : V → List V) (color : V → Color) : Prop where
  closed : ∀ u, color u = .black → ∀ v ∈ adj u, color v = .black
  acyclic : ∀ u, color u = .black → ¬ Relation.TransGen (fun a b => b ∈ adj a) u u

/-- Gray vertices stay gray, black ones stay black, and both keep their parents. -/
structure Extends (s s' : Search V) : Prop where
  gray : ∀ x, s'.color x = .gray ↔ s.color x = .gray
  black : ∀ x, s.color x = .black → s'.color x = .black
  parent : ∀ x, s.color x ≠ .white → s'.parent x = s.parent x

omit [DecidableEq V] in
theorem Extends.refl (s : Search V) : Extends s s :=
  ⟨fun _ => Iff.rfl, fun _ h => h, fun _ _ => rfl⟩

omit [DecidableEq V] in
theorem Extends.white {a b : Search V} (h : Extends a b) {x : V} (hx : b.color x = .white) :
    a.color x = .white := by
  cases ha : a.color x with
  | white => rfl
  | gray =>
    have := (h.gray x).mpr ha
    rw [hx] at this
    cases this
  | black =>
    have := h.black x ha
    rw [hx] at this
    cases this

omit [DecidableEq V] in
theorem Extends.trans {a b c : Search V} (h : Extends a b) (h' : Extends b c) : Extends a c :=
  ⟨fun x => (h'.gray x).trans (h.gray x), fun x hx => h'.black x (h.black x hx),
    fun x hx => (h'.parent x fun hb => hx (h.white hb)).trans (h.parent x hx)⟩

theorem Extends.setParent {s : Search V} {v : V} (hv : s.color v = .white) (u : V) :
    Extends s (s.setParent v u) := by
  refine ⟨fun _ => Iff.rfl, fun _ h => h, fun x hx => Function.update_of_ne ?_ _ _⟩
  rintro rfl
  exact hx hv

omit [DecidableEq V] in
theorem Explored.closed_of_reachable {adj : V → List V} {color : V → Color}
    (h : Explored adj color) {u v : V} (hu : color u = .black)
    (hr : Relation.ReflTransGen (fun a b => b ∈ adj a) u v) : color v = .black := by
  induction hr with
  | refl => exact hu
  | tail _ hbc ih => exact h.closed _ ih _ hbc

theorem paint_gray_eq_black {s : Search V} {u x : V} (hu : s.color u = .white) :
    (s.paint u .gray).color x = .black ↔ s.color x = .black := by
  by_cases hx : x = u
  · rw [hx, Search.paint_self, hu]
    simp
  · rw [Search.paint_ne s _ hx]

theorem Explored.paint_gray {adj : V → List V} {s : Search V} (h : Explored adj s.color) {u : V}
    (hu : s.color u = .white) : Explored adj (s.paint u .gray).color :=
  ⟨fun x hx v hv =>
    (paint_gray_eq_black hu).mpr (h.closed x ((paint_gray_eq_black hu).mp hx) v hv),
    fun x hx => h.acyclic x ((paint_gray_eq_black hu).mp hx)⟩

/-- Blackening a vertex whose successors are all black keeps the invariant. -/
theorem Explored.paint_black {adj : V → List V} {s : Search V} (h : Explored adj s.color) {u : V}
    (hu : s.color u ≠ .black) (hadj : ∀ v ∈ adj u, s.color v = .black) :
    Explored adj (s.paint u .black).color := by
  have hblack : ∀ x, s.color x = .black → (s.paint u .black).color x = .black := by
    intro x hx
    by_cases hxu : x = u
    · rw [hxu, Search.paint_self]
    · rw [Search.paint_ne s _ hxu, hx]
  refine ⟨fun x hx v hv => ?_, fun x hx hcyc => ?_⟩
  · by_cases hxu : x = u
    · subst hxu
      exact hblack v (hadj v hv)
    · rw [Search.paint_ne s _ hxu] at hx
      exact hblack v (h.closed x hx v hv)
  · by_cases hxu : x = u
    · -- a cycle through `u` goes on to a black vertex and never comes back
      subst hxu
      obtain ⟨w, hw, hrest⟩ := Relation.TransGen.head'_iff.mp hcyc
      exact hu (h.closed_of_reachable (hadj w hw) hrest)
    · rw [Search.paint_ne s _ hxu] at hx
      exact h.acyclic x hx hcyc

/-- The specification of one visit that ends without a cycle. -/
def VisitOk (adj : V → List V) (visit : V → Search V → Outcome V) : Prop :=
  ∀ v s s', s.color v = .white → Explored adj s.color → visit v s = .done s' →
    Explored adj s'.color ∧ Extends s s' ∧ s'.color v = .black

theorem visitAll_done {adj : V → List V} {bound : ℕ}
    {visit : V → Search V → Outcome V} (hv : VisitOk adj visit) {u : V} :
    ∀ (vs : List V) (s s' : Search V), Explored adj s.color →
      visitAll bound visit u vs s = .done s' →
      Explored adj s'.color ∧ Extends s s' ∧ ∀ v ∈ vs, s'.color v = .black
  | [], s, s', hs, h => by
    cases h
    exact ⟨hs, .refl _, by simp⟩
  | v :: vs, s, s', hs, h => by
    rcases visitAll_cons_cases h with ⟨-, h⟩ | ⟨-, -, h⟩ | ⟨hc, h⟩ | ⟨hc, s₁, hvis, h⟩
    · cases h
    · exact absurd rfl (h s')
    · obtain ⟨hs', hext, hall⟩ := visitAll_done hv vs s s' hs h
      exact ⟨hs', hext, List.forall_mem_cons.mpr ⟨hext.black v hc, hall⟩⟩
    · obtain ⟨hs₁, hext₁, hblack⟩ := hv v (s.setParent v u) s₁ hc hs hvis
      obtain ⟨hs', hext, hall⟩ := visitAll_done hv vs s₁ s' hs₁ h
      exact ⟨hs', ((Extends.setParent hc u).trans hext₁).trans hext,
        List.forall_mem_cons.mpr ⟨hext.black v hblack, hall⟩⟩

theorem visit_done (adj : V → List V) (bound : ℕ) : ∀ n, VisitOk adj (visit adj bound n)
  | 0, _, _, _, _, _, h => by cases h
  | n + 1, u, s, s', hu, hs, h => by
    rcases visit_succ_cases h with ⟨-, h⟩ | ⟨s₁, hloop, h⟩
    · exact absurd rfl (h s')
    cases h
    obtain ⟨hs₁, hext, hall⟩ :=
      visitAll_done (visit_done adj bound n) (adj u) _ s₁ (hs.paint_gray hu) hloop
    have hu₁ : s₁.color u = .gray := (hext.gray u).mpr (Search.paint_self s u .gray)
    have hne : ∀ x, s.color x ≠ .white → x ≠ u := by
      rintro x hx rfl
      exact hx hu
    refine ⟨hs₁.paint_black (by rw [hu₁]; simp) hall,
      ⟨fun x => ?_, fun x hx => ?_, fun x hx => ?_⟩, Search.paint_self s₁ u .black⟩
    · by_cases hx : x = u
      · rw [hx, Search.paint_self, hu]
        simp
      · rw [Search.paint_ne s₁ _ hx, hext.gray, Search.paint_ne s _ hx]
    · rw [Search.paint_ne s₁ _ (hne x (by simp [hx]))]
      exact hext.black x ((paint_gray_eq_black hu).mpr hx)
    · refine hext.parent x ?_
      rw [Search.paint_ne s _ (hne x hx)]
      exact hx

omit [DecidableEq V] in
theorem black_of_not_white {s : Search V} (hg : ∀ x, s.color x ≠ .gray) {u : V}
    (hu : s.color u ≠ .white) : s.color u = .black := by
  cases hc : s.color u with
  | white => exact absurd hc hu
  | gray => exact absurd hc (hg u)
  | black => rfl

omit [DecidableEq V] in
theorem explored_initial (adj : V → List V) : Explored adj ({} : Search V).color :=
  ⟨fun _ hx => (by cases hx), fun _ hx => (by cases hx)⟩

theorem search_done {adj : V → List V} {bound : ℕ} : ∀ (us : List V) (s s' : Search V),
    Explored adj s.color → (∀ x, s.color x ≠ .gray) → search adj bound us s = .done s' →
      Explored adj s'.color ∧ Extends s s' ∧ ∀ u ∈ us, s'.color u = .black
  | [], s, s', hs, _, h => by
    cases h
    exact ⟨hs, .refl _, by simp⟩
  | u :: us, s, s', hs, hg, h => by
    rcases search_cons_cases h with ⟨-, -, h⟩ | ⟨hu, h⟩ | ⟨hu, s₁, hvis, h⟩
    · exact absurd rfl (h s')
    · obtain ⟨hs', hext, hall⟩ := search_done us s s' hs hg h
      exact ⟨hs', hext, List.forall_mem_cons.mpr ⟨hext.black u (black_of_not_white hg hu), hall⟩⟩
    · obtain ⟨hs₁, hext₁, hblack⟩ := visit_done adj bound bound u s s₁ hu hs hvis
      obtain ⟨hs', hext, hall⟩ := search_done us s₁ s' hs₁
        (fun x hx => hg x ((hext₁.gray x).mp hx)) h
      exact ⟨hs', hext₁.trans hext, List.forall_mem_cons.mpr ⟨hext.black u hblack, hall⟩⟩

/-- **A search that ends without a cycle**: no cycle goes through a root. -/
theorem findCycle_done {adj : V → List V} {bound : ℕ} {roots : List V} {s : Search V}
    (h : findCycle adj bound roots = .done s) {u : V} (hu : u ∈ roots) :
    ¬ Relation.TransGen (fun a b => b ∈ adj a) u u := by
  obtain ⟨hs, -, hall⟩ :=
    search_done roots {} s (explored_initial adj) (fun _ hx => (by cases hx)) h
  exact hs.acyclic u (hall u hu)

/-! ## What is found is a cycle -/

/-- A walk along the edges that ends where it starts. -/
def IsCycle (adj : V → List V) (c : List V) : Prop :=
  ∃ v l, c = v :: (l ++ [v]) ∧ c.IsChain fun a b => b ∈ adj a

/-- `l` lists the gray vertices, each below the vertex from which it was reached. -/
structure Stack (adj : V → List V) (s : Search V) (l : List V) : Prop where
  gray : ∀ x, s.color x = .gray ↔ x ∈ l
  chain : l.IsChain fun a b => s.parent a = some b ∧ a ∈ adj b

omit [DecidableEq V] in
theorem Stack.extends {adj : V → List V} {s s' : Search V} {l : List V} (h : Stack adj s l)
    (he : Extends s s') : Stack adj s' l := by
  refine ⟨fun x => (he.gray x).trans (h.gray x), h.chain.imp_of_mem_imp fun a b ha _ hab => ?_⟩
  rw [he.parent a (by rw [(h.gray a).mpr ha]; simp)]
  exact hab

/-- The visit of `u` puts it on top of the stack. -/
theorem Stack.paint {adj : V → List V} {s : Search V} {l : List V} (h : Stack adj s l) {u : V}
    (htop : ∀ b ∈ l.head?, s.parent u = some b ∧ u ∈ adj b) :
    Stack adj (s.paint u .gray) (u :: l) := by
  refine ⟨fun x => ?_, List.isChain_cons.mpr ⟨htop, h.chain⟩⟩
  by_cases hx : x = u
  · simp [hx]
  · rw [Search.paint_ne s _ hx, h.gray]
    simp [hx]

/-- A stack on which no vertex is twice. -/
structure Path (adj : V → List V) (s : Search V) (l : List V) : Prop extends Stack adj s l where
  nodup : l.Nodup

omit [DecidableEq V] in
theorem Path.extends {adj : V → List V} {s s' : Search V} {l : List V} (h : Path adj s l)
    (he : Extends s s') : Path adj s' l :=
  ⟨h.toStack.extends he, h.nodup⟩

theorem Path.paint {adj : V → List V} {s : Search V} {l : List V} (h : Path adj s l) {u : V}
    (hu : s.color u = .white) (htop : ∀ b ∈ l.head?, s.parent u = some b ∧ u ∈ adj b) :
    Path adj (s.paint u .gray) (u :: l) := by
  refine ⟨h.toStack.paint htop, List.nodup_cons.mpr ⟨fun hmem => ?_, h.nodup⟩⟩
  have hgray := (h.gray u).mpr hmem
  rw [hu] at hgray
  cases hgray

omit [DecidableEq V] in
theorem path_nil {adj : V → List V} {s : Search V} (h : ∀ x, s.color x ≠ .gray) : Path adj s [] :=
  ⟨⟨fun x => by simp [h x], List.isChain_nil⟩, List.nodup_nil⟩

/-- The parents lead from the top of the stack down to each of its vertices. -/
theorem climb_eq_takeWhile {adj : V → List V} {parent : V → Option V} {v : V} :
    ∀ (l : List V) (u : V) (n : ℕ),
      (u :: l).IsChain (fun a b => parent a = some b ∧ a ∈ adj b) → v ∈ u :: l →
      (u :: l).length ≤ n → climb parent v n (some u) = (u :: l).takeWhile (· ≠ v)
  | _, _, 0, _, _, hn => by simp at hn
  | l, u, n + 1, hc, hv, hn => by
    rw [climb]
    by_cases huv : u = v
    · rw [if_pos huv, List.takeWhile_cons_of_neg (by simpa using huv)]
    · rw [if_neg huv, List.takeWhile_cons_of_pos (by simpa using huv)]
      cases l with
      | nil => exact absurd (List.mem_singleton.mp hv).symm huv
      | cons b l =>
        obtain ⟨⟨hb, -⟩, hc'⟩ := List.isChain_cons_cons.mp hc
        have hv' : v ∈ b :: l := List.mem_of_ne_of_mem (Ne.symm huv) hv
        rw [hb, climb_eq_takeWhile l b n hc' hv' (by simpa using hn)]

/-- What is above `v` on a list that has it. -/
theorem takeWhile_append_of_mem {v : V} : ∀ {l : List V}, v ∈ l →
    ∃ post, l = l.takeWhile (· ≠ v) ++ v :: post
  | u :: l, hv => by
    by_cases huv : u = v
    · rw [List.takeWhile_cons_of_neg (by simpa using huv), huv]
      exact ⟨l, rfl⟩
    · rw [List.takeWhile_cons_of_pos (by simpa using huv)]
      obtain ⟨post, hpost⟩ := takeWhile_append_of_mem (List.mem_of_ne_of_mem (Ne.symm huv) hv)
      exact ⟨post, congrArg (u :: ·) hpost⟩

/-- A cycle that goes through no vertex twice. -/
def IsSimpleCycle (adj : V → List V) (c : List V) : Prop := IsCycle adj c ∧ c.dropLast.Nodup

/-- An edge from the top of the stack back into it closes a cycle. -/
theorem isSimpleCycle_cycleOf {adj : V → List V} {bound : ℕ} {s : Search V} {u v : V} {l : List V}
    (h : Path adj s (u :: l)) (hv : s.color v = .gray) (huv : v ∈ adj u)
    (hl : (u :: l).length ≤ bound) : IsSimpleCycle adj (cycleOf bound s u v) := by
  have hmem := (h.gray v).mp hv
  obtain ⟨post, hpost⟩ := takeWhile_append_of_mem hmem
  unfold IsSimpleCycle cycleOf
  rw [climb_eq_takeWhile l u bound h.chain hmem hl]
  generalize (u :: l).takeWhile (· ≠ v) = pre at hpost
  have hsplit : u :: l = pre ++ [v] ++ post := by simpa using hpost
  have hchain : (pre ++ [v]).IsChain fun a b => a ∈ adj b := by
    have hall := h.chain.imp fun _ _ hab => hab.2
    rw [hsplit] at hall
    exact hall.left_of_append
  have hnodup : (pre ++ [v]).Nodup := by
    have hall := h.nodup
    rw [hsplit] at hall
    exact hall.of_append_left
  refine ⟨⟨v, pre.reverse, by simp, ?_⟩, ?_⟩
  · rw [List.isChain_reverse, List.cons_append]
    refine List.isChain_cons.mpr ⟨fun y hy => ?_, hchain⟩
    -- the first vertex after `v` is `u`
    obtain rfl : y = u := by
      cases pre with
      | nil =>
        obtain ⟨rfl, -⟩ := List.cons.inj hpost
        simpa using hy.symm
      | cons a pre =>
        obtain ⟨rfl, -⟩ := List.cons.inj hpost
        simpa using hy.symm
    exact huv
  · rw [List.cons_append, List.reverse_cons, List.dropLast_concat, List.nodup_reverse]
    exact hnodup

theorem visitAll_found {adj : V → List V} {bound n : ℕ}
    (hn : ∀ v s l c, s.color v = .white → Explored adj s.color → Path adj s l →
      (∀ b ∈ l.head?, s.parent v = some b ∧ v ∈ adj b) → l.length + n ≤ bound →
      visit adj bound n v s = .found c → IsSimpleCycle adj c) {u : V} {l : List V}
    (hl : (u :: l).length + n ≤ bound) :
    ∀ (vs : List V) (s : Search V) (c : List V), (∀ v ∈ vs, v ∈ adj u) → Explored adj s.color →
      Path adj s (u :: l) → visitAll bound (visit adj bound n) u vs s = .found c →
      IsSimpleCycle adj c
  | [], _, _, _, _, _, h => by cases h
  | v :: vs, s, c, hvs, hs, hst, h => by
    obtain ⟨huv, hrest⟩ := List.forall_mem_cons.mp hvs
    rcases visitAll_cons_cases h with ⟨hc, h⟩ | ⟨hc, hvis, -⟩ | ⟨-, h⟩ | ⟨hc, s₁, hvis, h⟩
    · cases h
      exact isSimpleCycle_cycleOf hst hc huv (by omega)
    · refine hn v (s.setParent v u) (u :: l) c hc hs (hst.extends (.setParent hc u))
        (fun b hb => ?_) hl hvis
      obtain rfl : u = b := by simpa using hb
      exact ⟨Function.update_self _ _ _, huv⟩
    · exact visitAll_found hn hl vs s c hrest hs hst h
    · obtain ⟨hs₁, hext, -⟩ := visit_done adj bound n v (s.setParent v u) s₁ hc hs hvis
      have hst₁ : Path adj s₁ (u :: l) := (hst.extends (.setParent hc u)).extends hext
      exact visitAll_found hn hl vs s₁ c hrest hs₁ hst₁ h

/-- The recursion of depth `n` is below a stack of at most `bound - n` vertices, so that the bound
suffices for reading the cycle back. -/
theorem visit_found {adj : V → List V} {bound : ℕ} :
    ∀ n v s l c, s.color v = .white → Explored adj s.color → Path adj s l →
      (∀ b ∈ l.head?, s.parent v = some b ∧ v ∈ adj b) → l.length + n ≤ bound →
      visit adj bound n v s = .found c → IsSimpleCycle adj c
  | 0, _, _, _, _, _, _, _, _, _, h => by cases h
  | n + 1, u, s, l, c, hu, hs, hst, htop, hl, h => by
    rcases visit_succ_cases h with ⟨hloop, -⟩ | ⟨s₁, -, h⟩
    · have hl' : (u :: l).length + n ≤ bound := by
        rw [List.length_cons]
        omega
      exact visitAll_found (fun v s l c => visit_found n v s l c) hl' (adj u) _ c
        (fun _ hv => hv) (hs.paint_gray hu) (hst.paint hu htop) hloop
    · cases h

theorem search_found {adj : V → List V} {bound : ℕ} : ∀ (us : List V) (s : Search V) (c : List V),
    Explored adj s.color → (∀ x, s.color x ≠ .gray) → search adj bound us s = .found c →
      IsSimpleCycle adj c
  | [], _, _, _, _, h => by cases h
  | u :: us, s, c, hs, hg, h => by
    rcases search_cons_cases h with ⟨hu, hvis, -⟩ | ⟨-, h⟩ | ⟨hu, s₁, hvis, h⟩
    · exact visit_found bound u s [] c hu hs (path_nil hg) (by simp) (by simp) hvis
    · exact search_found us s c hs hg h
    · obtain ⟨hs₁, hext, -⟩ := visit_done adj bound bound u s s₁ hu hs hvis
      exact search_found us s₁ c hs₁ (fun x hx => hg x ((hext.gray x).mp hx)) h

/-- **What is found is a cycle that goes through no vertex twice.** -/
theorem findCycle_simple {adj : V → List V} {bound : ℕ} {roots c : List V}
    (h : findCycle adj bound roots = .found c) : IsSimpleCycle adj c :=
  search_found roots {} c (explored_initial adj) (fun _ hx => (by cases hx)) h

theorem findCycle_found {adj : V → List V} {bound : ℕ} {roots c : List V}
    (h : findCycle adj bound roots = .found c) : IsCycle adj c :=
  (findCycle_simple h).1

/-! ## A larger bound changes nothing -/

theorem visitAll_bound {adj : V → List V} {bound bound' n n' : ℕ} (hb : bound ≤ bound')
    (hn : ∀ v s l, s.color v = .white → Explored adj s.color → Path adj s l →
      (∀ b ∈ l.head?, s.parent v = some b ∧ v ∈ adj b) → l.length + n ≤ bound →
      visit adj bound n v s ≠ .tooDeep → visit adj bound' n' v s = visit adj bound n v s)
    {u : V} {l : List V} (hl : (u :: l).length + n ≤ bound) :
    ∀ (vs : List V) (s : Search V), (∀ v ∈ vs, v ∈ adj u) → Explored adj s.color →
      Path adj s (u :: l) → visitAll bound (visit adj bound n) u vs s ≠ .tooDeep →
      visitAll bound' (visit adj bound' n') u vs s = visitAll bound (visit adj bound n) u vs s
  | [], _, _, _, _, _ => rfl
  | v :: vs, s, hvs, hs, hst, h => by
    rw [visitAll] at h
    rw [visitAll, visitAll]
    have huv : v ∈ adj u := hvs v List.mem_cons_self
    have hrest : ∀ x ∈ vs, x ∈ adj u := fun x hx => hvs x (List.mem_cons_of_mem _ hx)
    cases hc : s.color v with
    | gray =>
      have hmem := (hst.gray v).mp hc
      dsimp only
      unfold cycleOf
      rw [climb_eq_takeWhile l u bound hst.chain hmem (by omega),
        climb_eq_takeWhile l u bound' hst.chain hmem (by omega)]
    | black =>
      rw [hc] at h
      exact visitAll_bound hb hn hl vs s hrest hs hst h
    | white =>
      rw [hc] at h
      dsimp only at h ⊢
      have hst' : Path adj (s.setParent v u) (u :: l) := hst.extends (.setParent hc u)
      have hvis := hn v (s.setParent v u) (u :: l) hc hs hst' (fun b hb => by
        obtain rfl : u = b := by simpa using hb
        exact ⟨Function.update_self _ _ _, huv⟩) hl
      cases hv : visit adj bound n v (s.setParent v u) with
      | tooDeep => rw [hv] at h; exact absurd rfl h
      | found c => rw [hvis (by rw [hv]; simp), hv]
      | done s₁ =>
        rw [hv] at h
        rw [hvis (by rw [hv]; simp), hv]
        obtain ⟨hs₁, hext, -⟩ := visit_done adj bound n v (s.setParent v u) s₁ hc hs hv
        exact visitAll_bound hb hn hl vs s₁ hrest hs₁ (hst'.extends hext) h

theorem visit_bound {adj : V → List V} {bound bound' : ℕ} (hb : bound ≤ bound') :
    ∀ n n' v s l, n ≤ n' → s.color v = .white → Explored adj s.color → Path adj s l →
      (∀ b ∈ l.head?, s.parent v = some b ∧ v ∈ adj b) → l.length + n ≤ bound →
      visit adj bound n v s ≠ .tooDeep → visit adj bound' n' v s = visit adj bound n v s
  | 0, _, _, _, _, _, _, _, _, _, _, h => absurd rfl h
  | n + 1, n' + 1, u, s, l, hn, hu, hs, hst, htop, hl, h => by
    rw [visit] at h
    rw [visit, visit]
    have hl' : (u :: l).length + n ≤ bound := by
      rw [List.length_cons]
      omega
    have hloop := visitAll_bound hb
      (fun v s l => visit_bound hb n n' v s l (Nat.le_of_succ_le_succ hn)) hl' (adj u) _
      (fun _ hv => hv) (hs.paint_gray hu) (hst.paint hu htop)
    rw [hloop fun hout => h (by rw [hout])]

theorem search_bound {adj : V → List V} {bound bound' : ℕ} (hb : bound ≤ bound') :
    ∀ (us : List V) (s : Search V), Explored adj s.color → (∀ x, s.color x ≠ .gray) →
      search adj bound us s ≠ .tooDeep → search adj bound' us s = search adj bound us s
  | [], _, _, _, _ => rfl
  | u :: us, s, hs, hg, h => by
    rw [search] at h
    rw [search, search]
    split at h
    · next hu =>
      rw [if_pos hu, if_pos hu]
      have hvis := visit_bound hb bound bound' u s [] hb hu hs (path_nil hg) (by simp) (by simp)
      cases hv : visit adj bound bound u s with
      | tooDeep => rw [hv] at h; exact absurd rfl h
      | found c => rw [hvis (by rw [hv]; simp), hv]
      | done s₁ =>
        rw [hv] at h
        rw [hvis (by rw [hv]; simp), hv]
        obtain ⟨hs₁, hext, -⟩ := visit_done adj bound bound u s s₁ hu hs hv
        exact search_bound hb us s₁ hs₁ (fun x hx => hg x ((hext.gray x).mp hx)) h
    · next hu =>
      rw [if_neg hu, if_neg hu]
      exact search_bound hb us s hs hg h

/-- **The search does not depend on its bound** when it is not too deep for it. -/
theorem findCycle_bound {adj : V → List V} {bound bound' : ℕ} {roots : List V}
    (h : findCycle adj bound roots ≠ .tooDeep) (hb : bound ≤ bound') :
    findCycle adj bound' roots = findCycle adj bound roots :=
  search_bound hb roots {} (explored_initial adj) (fun _ hx => (by cases hx)) h

/-! ## Cycles as closed walks -/

/-- A chain leads from its first element to its last. -/
theorem transGen_of_isChain {α : Type*} {E : α → α → Prop} {b : α} : ∀ (l : List α) (a : α),
    (a :: (l ++ [b])).IsChain E → Relation.TransGen E a b
  | [], a, h => .single (List.isChain_pair.mp h)
  | x :: l, a, h => by
    obtain ⟨hax, h'⟩ := List.isChain_cons_cons.mp h
    exact .head hax (transGen_of_isChain l x h')

/-- Every vertex of a closed walk lies on a cycle. -/
theorem transGen_of_mem {α : Type*} {E : α → α → Prop} {v x : α} {l : List α}
    (h : (v :: (l ++ [v])).IsChain E) (hx : x ∈ v :: (l ++ [v])) : Relation.TransGen E x x := by
  have hx' : x = v ∨ x ∈ l := by simpa [or_comm, or_left_comm] using hx
  rcases hx' with rfl | hx
  · exact transGen_of_isChain l x h
  · obtain ⟨p, q, rfl⟩ := List.append_of_mem hx
    have hsplit : v :: (p ++ x :: q ++ [v]) = v :: (p ++ [x]) ++ (q ++ [v]) := by simp
    have hsplit' : v :: (p ++ x :: q ++ [v]) = v :: p ++ x :: (q ++ [v]) := by simp
    have hto : Relation.TransGen E v x := by
      rw [hsplit] at h
      exact transGen_of_isChain p v h.left_of_append
    have hfrom : Relation.TransGen E x v := by
      rw [hsplit'] at h
      exact transGen_of_isChain q x h.right_of_append
    exact hfrom.trans hto

/-- Vertices that each have an edge to the next, in a circle, are on a cycle. -/
theorem transGen_of_circle {α : Type*} {E : α → α → Prop} {k : ℕ} {c : Fin (k + 1) → α}
    (h : ∀ i, E (c i) (c (i + 1))) : Relation.TransGen E (c 0) (c 0) := by
  have hsucc : ∀ n, Fin.ofNat (k + 1) (n + 1) = Fin.ofNat (k + 1) n + 1 := by
    intro n
    ext
    rw [Fin.val_add]
    exact Nat.add_mod n 1 (k + 1)
  have hwalk : ∀ n, Relation.TransGen E (c 0) (c (Fin.ofNat (k + 1) (n + 1))) := by
    intro n
    rw [hsucc]
    induction n with
    | zero => exact .single (h 0)
    | succ n ih =>
      rw [hsucc]
      exact ih.tail (h _)
  have hk : Fin.ofNat (k + 1) (k + 1) = 0 := by
    ext
    simp
  rw [← hk]
  nth_rewrite 1 [hk]
  exact hwalk k

/-! ## How deep a search goes -/

/-- A path from a root. The roots before it lead to no cycle and to no vertex of the path, and no
vertex is twice on it. -/
def Descent (E : V → V → Prop) (roots p : List V) : Prop :=
  ∃ before u after, roots = before ++ u :: after ∧ p.head? = some u ∧ p.IsChain E ∧ p.Nodup ∧
    ∀ b ∈ before, ∀ x, Relation.ReflTransGen E b x → x ∉ p ∧ ¬ Relation.TransGen E x x

theorem white_of_paint_gray {s : Search V} {u x : V} (h : (s.paint u .gray).color x = .white) :
    x ≠ u ∧ s.color x = .white := by
  by_cases hx : x = u
  · rw [hx, Search.paint_self] at h
    cases h
  · rw [Search.paint_ne s _ hx] at h
    exact ⟨hx, h⟩

theorem visitAll_tooDeep {adj : V → List V} {bound : ℕ} {visit : V → Search V → Outcome V}
    (hv : VisitOk adj visit) {u : V} : ∀ (vs : List V) (s : Search V), Explored adj s.color →
      visitAll bound visit u vs s = .tooDeep →
      ∃ v ∈ vs, ∃ s₁, Explored adj s₁.color ∧ Extends s s₁ ∧ s₁.color v = .white ∧
        visit v s₁ = .tooDeep
  | [], _, _, h => by cases h
  | v :: vs, s, hs, h => by
    rcases visitAll_cons_cases h with ⟨-, h⟩ | ⟨hc, hvis, -⟩ | ⟨-, h⟩ | ⟨hc, s₁, hvis, h⟩
    · cases h
    · exact ⟨v, List.mem_cons_self, s.setParent v u, hs, .setParent hc u, hc, hvis⟩
    · obtain ⟨w, hw, hrest⟩ := visitAll_tooDeep hv vs s hs h
      exact ⟨w, List.mem_cons_of_mem _ hw, hrest⟩
    · obtain ⟨hs₁, hext, -⟩ := hv v (s.setParent v u) s₁ hc hs hvis
      obtain ⟨w, hw, s₂, hs₂, hext₂, hrest⟩ := visitAll_tooDeep hv vs s₁ hs₁ h
      exact ⟨w, List.mem_cons_of_mem _ hw, s₂, hs₂,
        ((Extends.setParent hc u).trans hext).trans hext₂, hrest⟩

/-- A visit that is too deep has gone down a path of white vertices. -/
theorem visit_tooDeep {adj : V → List V} {bound : ℕ} : ∀ n u s, s.color u = .white →
    Explored adj s.color → visit adj bound n u s = .tooDeep →
      ∃ q, (u :: q).IsChain (fun a b => b ∈ adj a) ∧ (u :: q).Nodup ∧
        (∀ x ∈ u :: q, s.color x = .white) ∧ n < (u :: q).length
  | 0, u, s, hu, _, _ => ⟨[], by simp, by simp, by simpa using hu, by simp⟩
  | n + 1, u, s, hu, hs, h => by
    rcases visit_succ_cases h with ⟨hloop, -⟩ | ⟨s₁, -, h⟩
    swap
    · cases h
    obtain ⟨v, hv, s₁, hs₁, hext, hwhite, hvis⟩ :=
      visitAll_tooDeep (visit_done adj bound n) _ _ (hs.paint_gray hu) hloop
    obtain ⟨q, hchain, hnodup, hall, hlen⟩ := visit_tooDeep n v s₁ hwhite hs₁ hvis
    have hold : ∀ x ∈ v :: q, x ≠ u ∧ s.color x = .white := fun x hx =>
      white_of_paint_gray (hext.white (hall x hx))
    refine ⟨v :: q, List.isChain_cons_cons.mpr ⟨hv, hchain⟩,
      List.nodup_cons.mpr ⟨fun hmem => (hold u hmem).1 rfl, hnodup⟩, ?_, Nat.succ_lt_succ hlen⟩
    intro x hx
    rcases List.mem_cons.mp hx with rfl | hx
    · exact hu
    · exact (hold x hx).2

theorem search_tooDeep {adj : V → List V} {bound : ℕ} : ∀ (us : List V) (s : Search V),
    Explored adj s.color → (∀ x, s.color x ≠ .gray) → search adj bound us s = .tooDeep →
      ∃ before u after s₁, us = before ++ u :: after ∧ Explored adj s₁.color ∧ Extends s s₁ ∧
        (∀ b ∈ before, s₁.color b = .black) ∧ s₁.color u = .white ∧
        visit adj bound bound u s₁ = .tooDeep
  | [], _, _, _, h => by cases h
  | u :: us, s, hs, hg, h => by
    -- a later root finds `u` black
    have hlater : ∀ s₁, Explored adj s₁.color → Extends s s₁ → s₁.color u = .black →
        search adj bound us s₁ = .tooDeep →
        ∃ before w after s₂, u :: us = before ++ w :: after ∧ Explored adj s₂.color ∧
          Extends s s₂ ∧ (∀ b ∈ before, s₂.color b = .black) ∧ s₂.color w = .white ∧
          visit adj bound bound w s₂ = .tooDeep := by
      intro s₁ hs₁ hext hu h₁
      obtain ⟨before, w, after, s₂, rfl, hs₂, hext₂, hall, hrest⟩ :=
        search_tooDeep us s₁ hs₁ (fun x hx => hg x ((hext.gray x).mp hx)) h₁
      refine ⟨u :: before, w, after, s₂, rfl, hs₂, hext.trans hext₂, ?_, hrest⟩
      exact List.forall_mem_cons.mpr ⟨hext₂.black u hu, hall⟩
    rcases search_cons_cases h with ⟨hu, hvis, -⟩ | ⟨hu, h⟩ | ⟨hu, s₁, hvis, h⟩
    · exact ⟨[], u, us, s, rfl, hs, .refl s, by simp, hu, hvis⟩
    · exact hlater s hs (.refl s) (black_of_not_white hg hu) h
    · obtain ⟨hs₁, hext, hblack⟩ := visit_done adj bound bound u s s₁ hu hs hvis
      exact hlater s₁ hs₁ hext hblack h

/-- **A search that is too deep** has gone down a path that is longer than its bound. -/
theorem findCycle_tooDeep {adj : V → List V} {bound : ℕ} {roots : List V}
    (h : findCycle adj bound roots = .tooDeep) :
    ∃ p, Descent (fun a b => b ∈ adj a) roots p ∧ bound < p.length := by
  obtain ⟨before, u, after, s, rfl, hs, -, hall, hu, hvis⟩ :=
    search_tooDeep roots {} (explored_initial adj) (fun _ hx => (by cases hx)) h
  obtain ⟨q, hchain, hnodup, hwhite, hlen⟩ := visit_tooDeep bound u s hu hs hvis
  refine ⟨u :: q, ⟨before, u, after, rfl, rfl, hchain, hnodup, fun b hb x hbx => ?_⟩, hlen⟩
  have hx : s.color x = .black := hs.closed_of_reachable (hall b hb) hbx
  refine ⟨fun hmem => ?_, hs.acyclic x hx⟩
  rw [hwhite x hmem] at hx
  cases hx

/-! Where every vertex of such a path is the first that the search looks at, it goes down all of
it. -/

theorem visitAll_color {bound : ℕ} {visit : V → Search V → Outcome V} {x u : V} :
    ∀ (vs : List V) (s s' : Search V),
      (∀ v ∈ vs, ∀ s s', visit v s = .done s' → s'.color x = s.color x) →
      visitAll bound visit u vs s = .done s' → s'.color x = s.color x
  | [], s, s', _, h => by
    cases h
    rfl
  | v :: vs, s, s', hv, h => by
    obtain ⟨hvx, hrest⟩ := List.forall_mem_cons.mp hv
    rcases visitAll_cons_cases h with ⟨-, h⟩ | ⟨-, -, h⟩ | ⟨-, h⟩ | ⟨-, s₁, hvis, h⟩
    · cases h
    · exact absurd rfl (h s')
    · exact visitAll_color vs s s' hrest h
    · exact (visitAll_color vs s₁ s' hrest h).trans (hvx (s.setParent v u) s₁ hvis)

/-- A visit paints what is in reach only. -/
theorem visit_color {adj : V → List V} {bound : ℕ} {x : V} : ∀ n u s s',
    ¬ Relation.ReflTransGen (fun a b => b ∈ adj a) u x → visit adj bound n u s = .done s' →
      s'.color x = s.color x
  | 0, _, _, _, _, h => by cases h
  | n + 1, u, s, s', hx, h => by
    rcases visit_succ_cases h with ⟨-, h⟩ | ⟨s₁, hloop, h⟩
    · exact absurd rfl (h s')
    cases h
    have hxu : x ≠ u := by
      rintro rfl
      exact hx .refl
    have hsame := visitAll_color (adj u) _ s₁
      (fun v hv s s' => visit_color n v s s' fun hvx => hx (.head hv hvx)) hloop
    rw [Search.paint_ne s₁ _ hxu, hsame, Search.paint_ne s _ hxu]

theorem visitAll_head {bound : ℕ} {visit : V → Search V → Outcome V} {P : V → Prop} {u : V}
    (hu : P u) : ∀ (vs : List V) (s : Search V) (c : List V), (∀ v ∈ vs, P v) →
      (∀ v ∈ vs, ∀ s, visit v s = .found c → ∃ w, c.head? = some w ∧ P w) →
      visitAll bound visit u vs s = .found c → ∃ w, c.head? = some w ∧ P w
  | [], _, _, _, _, h => by cases h
  | v :: vs, s, c, hP, hv, h => by
    obtain ⟨hPv, hP'⟩ := List.forall_mem_cons.mp hP
    obtain ⟨hvc, hrest⟩ := List.forall_mem_cons.mp hv
    rcases visitAll_cons_cases h with ⟨-, h⟩ | ⟨-, hvis, -⟩ | ⟨-, h⟩ | ⟨-, s₁, -, h⟩
    · cases h
      exact ⟨v, by simp [cycleOf], hPv⟩
    · exact hvc _ hvis
    · exact visitAll_head hu vs s c hP' hrest h
    · exact visitAll_head hu vs s₁ c hP' hrest h

/-- A visit finds a cycle that is in reach. -/
theorem visit_head {adj : V → List V} {bound : ℕ} {r : V} : ∀ n u s c,
    Relation.ReflTransGen (fun a b => b ∈ adj a) r u → visit adj bound n u s = .found c →
      ∃ w, c.head? = some w ∧ Relation.ReflTransGen (fun a b => b ∈ adj a) r w
  | 0, _, _, _, _, h => by cases h
  | n + 1, u, s, c, hu, h => by
    rcases visit_succ_cases h with ⟨hloop, -⟩ | ⟨s₁, -, h⟩
    · exact visitAll_head hu (adj u) _ c (fun v hv => hu.tail hv)
        (fun v hv s hvis => visit_head n v s c (hu.tail hv) hvis) hloop
    · cases h

theorem visit_of_first {adj : V → List V} (bound : ℕ) : ∀ n u q s,
    (u :: q).IsChain (fun a b => (adj a).head? = some b) → (u :: q).Nodup →
      (∀ x ∈ u :: q, s.color x = .white) → n < (u :: q).length →
      visit adj bound n u s = .tooDeep
  | 0, _, _, _, _, _, _, _ => rfl
  | n + 1, u, [], _, _, _, _, hlen => by simp at hlen
  | n + 1, u, v :: q, s, hchain, hnodup, hwhite, hlen => by
    obtain ⟨hv, hchain'⟩ := List.isChain_cons_cons.mp hchain
    obtain ⟨hu, hnodup'⟩ := List.nodup_cons.mp hnodup
    obtain ⟨vs, hvs⟩ : ∃ vs, adj u = v :: vs := by
      cases hadj : adj u with
      | nil => rw [hadj] at hv; cases hv
      | cons w vs =>
        rw [hadj] at hv
        exact ⟨vs, by rw [Option.some.inj hv]⟩
    have hwhite' : ∀ x ∈ v :: q, (s.paint u .gray).color x = .white := by
      intro x hx
      rw [Search.paint_ne s _ (by rintro rfl; exact hu hx)]
      exact hwhite x (List.mem_cons_of_mem _ hx)
    have hvis := visit_of_first bound n v q ((s.paint u .gray).setParent v u) hchain'
      hnodup' hwhite' (Nat.lt_of_succ_lt_succ hlen)
    rw [visit, hvs, visitAll, hwhite' v List.mem_cons_self]
    dsimp only
    rw [hvis]

theorem search_of_first {adj : V → List V} {bound : ℕ} {u : V} {q after : List V}
    (hchain : (u :: q).IsChain fun a b => (adj a).head? = some b) (hnodup : (u :: q).Nodup)
    (hlen : bound < (u :: q).length) : ∀ (before : List V) (s : Search V),
      Explored adj s.color → (∀ x, s.color x ≠ .gray) → (∀ x ∈ u :: q, s.color x = .white) →
      (∀ b ∈ before, ∀ x, Relation.ReflTransGen (fun a b => b ∈ adj a) b x →
        x ∉ u :: q ∧ ¬ Relation.TransGen (fun a b => b ∈ adj a) x x) →
      search adj bound (before ++ u :: after) s = .tooDeep
  | [], s, _, _, hwhite, _ => by
    rw [List.nil_append, search, if_pos (hwhite u List.mem_cons_self),
      visit_of_first bound bound u q s hchain hnodup hwhite hlen]
  | b :: before, s, hs, hg, hwhite, hbefore => by
    obtain ⟨hb, hrest⟩ := List.forall_mem_cons.mp hbefore
    rw [List.cons_append, search]
    split
    · next hbw =>
      cases hvis : visit adj bound bound b s with
      | tooDeep => rfl
      | found c =>
        obtain ⟨w, hw, hbw'⟩ := visit_head bound b s c .refl hvis
        obtain ⟨⟨v, l, rfl, hcyc⟩, -⟩ :=
          visit_found bound b s [] c hbw hs (path_nil hg) (by simp) (by simp) hvis
        obtain rfl : v = w := Option.some.inj hw
        exact absurd (transGen_of_isChain l v hcyc) (hb v hbw').2
      | done s₁ =>
        obtain ⟨hs₁, hext, -⟩ := visit_done adj bound bound b s s₁ hbw hs hvis
        refine search_of_first hchain hnodup hlen before s₁ hs₁
          (fun x hx => hg x ((hext.gray x).mp hx)) (fun x hx => ?_) hrest
        rw [visit_color bound b s s₁ (fun hbx => (hb x hbx).1 hx) hvis]
        exact hwhite x hx
    · exact search_of_first hchain hnodup hlen before s hs hg hwhite hrest

/-- **The search is too deep** for a path that is longer than its bound, when it goes down it. -/
theorem findCycle_of_first {adj : V → List V} {bound : ℕ} {roots p : List V}
    (h : Descent (fun a b => b ∈ adj a) roots p)
    (hfirst : p.IsChain fun a b => (adj a).head? = some b) (hlen : bound < p.length) :
    findCycle adj bound roots = .tooDeep := by
  obtain ⟨before, u, after, rfl, hhead, -, hnodup, hbefore⟩ := h
  obtain ⟨q, rfl⟩ : ∃ q, p = u :: q := ⟨p.tail, (List.cons_head?_tail hhead).symm⟩
  exact search_of_first hfirst hnodup hlen before {} (explored_initial adj)
    (fun _ hx => (by cases hx)) (fun _ _ => rfl) hbefore

/-- The successors can be put into an order in which a path takes the first of them everywhere. -/
theorem exists_order (E : V → Finset V) : ∀ {p : List V}, p.IsChain (fun a b => b ∈ E a) →
    p.Nodup → ∃ adj : V → List V, (∀ u, (adj u).Nodup ∧ (adj u).toFinset = E u) ∧
      p.IsChain fun a b => (adj a).head? = some b
  | [], _, _ => ⟨fun u => (E u).toList, fun u => ⟨(E u).nodup_toList, by simp⟩, by simp⟩
  | [a], _, _ => ⟨fun u => (E u).toList, fun u => ⟨(E u).nodup_toList, by simp⟩, by simp⟩
  | a :: b :: q, hchain, hnodup => by
    obtain ⟨hab, hchain'⟩ := List.isChain_cons_cons.mp hchain
    obtain ⟨ha, hnodup'⟩ := List.nodup_cons.mp hnodup
    obtain ⟨adj, hadj, hfirst⟩ := exists_order E hchain' hnodup'
    refine ⟨Function.update adj a (b :: ((E a).erase b).toList), fun u => ?_,
      List.isChain_cons_cons.mpr ⟨by simp, ?_⟩⟩
    · by_cases hu : u = a
      · subst hu
        rw [Function.update_self]
        refine ⟨List.nodup_cons.mpr ⟨by simp, Finset.nodup_toList _⟩, ?_⟩
        rw [List.toFinset_cons, Finset.toList_toFinset, Finset.insert_erase hab]
      · rw [Function.update_of_ne hu]
        exact hadj u
    · refine hfirst.imp_of_mem_imp fun x y hx _ hxy => ?_
      rw [Function.update_of_ne (by rintro rfl; exact ha hx)]
      exact hxy

/-- **A cycle through a root is found** by a search that is not too deep. -/
theorem exists_found {adj : V → List V} {bound : ℕ} {roots : List V}
    (h : findCycle adj bound roots ≠ .tooDeep) {u : V} (hu : u ∈ roots)
    (hcyc : Relation.TransGen (fun a b => b ∈ adj a) u u) :
    ∃ c, findCycle adj bound roots = .found c := by
  cases hf : findCycle adj bound roots with
  | tooDeep => exact absurd hf h
  | found c => exact ⟨c, rfl⟩
  | done s => exact absurd hcyc (findCycle_done hf hu)

end Infra.Dfs
