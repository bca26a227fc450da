import Terdistribusi.Locks.Properties.Safety
import Mathlib.Algebra.Group.Fin.Basic
import Mathlib.Algebra.Order.BigOperators.Group.Finset
import Mathlib.Data.Fin.VecNotation

/-!
# When deadlock detection is complete

The graph of the detector is edited when an `acquire` is refused and when a client is removed, and
by nothing else. So it misses waits that begin otherwise and loses waits that go on (`LosesEdge`):

* a shared lock that is joined while an exclusive request waits
* a release that grants a part of the queue: the rest now waits for the new holders
* a removal of a client that still waits, or that others still wait for

Exactly in a run without these every wait has its edge at all times (`edgesOk_iff`), and since the
search finds a cycle wherever there is one, every circular wait is then detected.
-/

namespace Locks

open Infra LockManager

variable {Client Resource : Type} [DecidableEq Client] [DecidableEq Resource]

/-! ## Waits of one resource -/

namespace Cell

/-- A request of `w` is queued and incompatible with the lock of the holder `h`. -/
def Blocked (k : Cell Client) (w h : Client) : Prop :=
  w ≠ h ∧ ∃ x ∈ k.queue, x.1 = w ∧ ∃ v ∈ k.holders.get? h, compatible x.2 v = false

instance (k : Cell Client) (w h : Client) : Decidable (k.Blocked w h) :=
  inferInstanceAs (Decidable (_ ∧ _))

/-- What a free resource grants of its queue: one exclusive request, or shared ones. -/
def granted : List (Client × LockMode) → List (Client × LockMode)
  | [] => []
  | x :: q => if x.2 = .exclusive then [x] else (x :: q).takeWhile fun y => y.2 = .shared

/-- What is left of the queue then. -/
def leftBehind : List (Client × LockMode) → List (Client × LockMode)
  | [] => []
  | x :: q => if x.2 = .exclusive then q else (x :: q).dropWhile fun y => y.2 = .shared

omit [DecidableEq Client] in
theorem granted_append_leftBehind (q : List (Client × LockMode)) :
    granted q ++ leftBehind q = q := by
  cases q with
  | nil => rfl
  | cons x q =>
    rw [granted, leftBehind]
    split
    · rfl
    · exact List.takeWhile_append_dropWhile

omit [DecidableEq Client] in
theorem not_mem_takeWhile {q : List (Client × LockMode)} {h : Client} (hq : h ∉ q.map Prod.fst)
    {v : LockMode} {p : Client × LockMode → Bool} : (h, v) ∉ q.takeWhile p := by
  intro hmem
  have hmem' : (h, v) ∈ q := (List.takeWhile_prefix p).subset hmem
  exact hq (List.mem_map_of_mem hmem')

/-- Granting changes the locks of clients in the queue only. -/
theorem get?_promote_of_not_mem {h : Client} : ∀ (q : List (Client × LockMode))
    (hs : Dict Client LockMode), h ∉ q.map Prod.fst → (promote q hs).holders.get? h = hs.get? h
  | [], _, _ => rfl
  | x :: q, hs, hq => by
    obtain ⟨hx, hq'⟩ := not_or.mp (mt List.mem_cons.mpr hq)
    rw [promote]
    split
    · rw [get?_promote_of_not_mem q _ hq', Dict.get?_set_ne _ _ (Ne.symm hx)]
    · rfl

/-- The queue of a shared lock grants its shared requests, up to the first exclusive one. -/
theorem promote_of_shared : ∀ (q : List (Client × LockMode)) (hs : Dict Client LockMode),
    hs.keys ≠ [] → (∀ v ∈ hs.values, v = .shared) → (q.map Prod.fst).Nodup →
      (promote q hs).queue = q.dropWhile (fun y => y.2 = .shared) ∧
      ∀ h, h ∉ hs.keys → ∀ v, (promote q hs).holders.get? h = some v ↔
        (h, v) ∈ q.takeWhile (fun y => y.2 = .shared)
  | [], hs, _, _, _ => by
    refine ⟨rfl, fun h hk v => ?_⟩
    rw [promote, Dict.get?_eq_none_iff.mpr hk]
    simp
  | x :: q, hs, hne, hv, hn => by
    obtain ⟨hxq, hn'⟩ := List.nodup_cons.mp hn
    rw [promote]
    cases hx : x.2 with
    | shared =>
      rw [if_pos (admits_eq_true.mpr fun v hv' => ⟨rfl, hv v hv'⟩)]
      have hne' : (hs.set x.1 .shared).keys ≠ [] :=
        List.ne_nil_of_mem (Dict.mem_keys_set.mpr (Or.inl rfl))
      have hv' : ∀ v ∈ (hs.set x.1 .shared).values, v = .shared := fun v hv' =>
        (Dict.mem_values_set hv').elim id (hv v)
      obtain ⟨hq, hh⟩ := promote_of_shared q _ hne' hv' hn'
      rw [List.dropWhile_cons_of_pos (by simp [hx]), List.takeWhile_cons_of_pos (by simp [hx])]
      refine ⟨hq, fun h hk v => ?_⟩
      by_cases hxh : h = x.1
      · subst hxh
        rw [get?_promote_of_not_mem q _ hxq, Dict.get?_set_self]
        rw [List.mem_cons, or_iff_left (not_mem_takeWhile hxq), Prod.ext_iff, hx]
        simp [eq_comm]
      · rw [hh h (fun hk' => (Dict.mem_keys_set.mp hk').elim hxh hk) v, List.mem_cons]
        simp [Prod.ext_iff, hxh]
    | exclusive =>
      -- an exclusive request ends the shared ones that are granted
      have hno : ¬ admits hs .exclusive = true := by
        rw [admits_eq_true]
        intro hall
        obtain ⟨c, hc⟩ := List.exists_mem_of_ne_nil _ hne
        obtain ⟨v, hget⟩ := Dict.exists_get?_of_mem_keys hc
        cases (hall v (Dict.mem_values_of_get? hget)).1
      rw [if_neg hno, List.dropWhile_cons_of_neg (by simp [hx]),
        List.takeWhile_cons_of_neg (by simp [hx])]
      refine ⟨rfl, fun h hk v => ?_⟩
      rw [Dict.get?_eq_none_iff.mpr hk]
      simp

/-- Nothing is granted of the queue of an exclusive lock. -/
theorem promote_of_exclusive {q : List (Client × LockMode)} {hs : Dict Client LockMode}
    (h : LockMode.exclusive ∈ hs.values) : promote q hs = { holders := hs, queue := q } := by
  cases q with
  | nil => rfl
  | cons x q =>
    rw [promote, if_neg]
    rw [admits_eq_true]
    intro hall
    cases (hall .exclusive h).2

/-- What becomes of the queue of a free resource. -/
theorem promote_of_free {q : List (Client × LockMode)} {hs : Dict Client LockMode}
    (hs0 : hs.keys = []) (hn : (q.map Prod.fst).Nodup) :
    (promote q hs).queue = leftBehind q ∧
      ∀ h v, (promote q hs).holders.get? h = some v ↔ (h, v) ∈ granted q := by
  have hnone : ∀ h, hs.get? h = none := fun h => by
    rw [Dict.get?_eq_none_iff, hs0]
    exact List.not_mem_nil
  cases q with
  | nil => exact ⟨rfl, fun h v => by simp [promote, hnone h, granted]⟩
  | cons x q =>
    obtain ⟨hxq, hn'⟩ := List.nodup_cons.mp hn
    have hone : ∀ h v, (hs.set x.1 x.2).get? h = some v ↔ (h, v) = x := by
      intro h v
      rw [Dict.get?_set, hnone h]
      by_cases hxh : x.1 = h
      · simp [hxh, Prod.ext_iff, eq_comm]
      · simp [hxh, Prod.ext_iff, Ne.symm hxh]
    rw [promote, if_pos (admits_of_keys_eq_nil hs0 x.2)]
    cases hx : x.2 with
    | exclusive =>
      rw [hx] at hone
      rw [promote_of_exclusive (Dict.mem_values_of_get? (Dict.get?_set_self hs x.1 .exclusive)),
        leftBehind, granted, if_pos hx, if_pos hx]
      exact ⟨rfl, fun h v => (hone h v).trans List.mem_singleton.symm⟩
    | shared =>
      rw [hx] at hone
      have hkeys : (hs.set x.1 .shared).keys = [x.1] := by
        rw [Dict.keys_set, hs0]
        simp
      have hv : ∀ v ∈ (hs.set x.1 .shared).values, v = .shared := by
        intro v hv
        obtain ⟨h, hget⟩ := Dict.mem_values_iff.mp hv
        rw [← hx]
        exact congrArg Prod.snd ((hone h v).mp hget)
      obtain ⟨hq, hh⟩ := promote_of_shared q _ (by rw [hkeys]; simp) hv hn'
      rw [leftBehind, granted, if_neg (by simp [hx]), if_neg (by simp [hx]),
        List.dropWhile_cons_of_pos (by simp [hx]), List.takeWhile_cons_of_pos (by simp [hx])]
      refine ⟨hq, fun h v => ?_⟩
      by_cases hxh : h = x.1
      · subst hxh
        rw [get?_promote_of_not_mem q _ hxq, hone]
        rw [List.mem_cons, or_iff_left (not_mem_takeWhile hxq)]
      · rw [hh h (by rw [hkeys]; simpa using hxh) v, List.mem_cons]
        simp [Prod.ext_iff, hxh]

/-- A granted `acquire` makes the exclusive requests of others wait for its client. -/
theorem blocked_of_acquire {k : Cell Client} {c : Client} {m : LockMode}
    (ha : admits k.holders m = true) {w : Client} (hne : w ≠ c)
    (hq : (w, LockMode.exclusive) ∈ k.queue) : (k.acquire c m).Blocked w c := by
  rw [Cell.acquire, if_pos ha]
  exact ⟨hne, _, hq, rfl, m, Dict.get?_set_self _ c m, rfl⟩

/-- A granted `acquire` makes nobody else wait. -/
theorem blocked_acquire_of_admits {k : Cell Client} (hok : k.Ok) {c : Client} {m : LockMode}
    (ha : admits k.holders m = true) {w h : Client} (hb : (k.acquire c m).Blocked w h) :
    k.Blocked w h ∨ (h = c ∧ w ≠ c ∧ (w, LockMode.exclusive) ∈ k.queue) := by
  rw [Cell.acquire, if_pos ha] at hb
  obtain ⟨hne, x, hq, rfl, v, hget, hinc⟩ := hb
  dsimp only at hq hget
  by_cases hc : c = h
  · subst hc
    rw [Dict.get?_set_self] at hget
    obtain rfl := Option.some.inj hget
    refine Or.inr ⟨rfl, hne, ?_⟩
    cases hx : x.2 with
    | exclusive =>
      rw [← hx]
      exact hq
    | shared =>
      rw [hx] at hinc
      -- an exclusive grant means that nobody held the resource, and then nobody waited
      cases m with
      | shared => cases hinc
      | exclusive =>
        obtain ⟨y, hy⟩ : ∃ y, y ∈ k.queue.head? :=
          Option.isSome_iff_exists.mp (List.isSome_head?.mpr (List.ne_nil_of_mem hq))
        have hblocked := hok.blocked y hy
        rw [← Bool.not_eq_true, admits_eq_true] at hblocked
        exact absurd (fun v hv => by cases (admits_eq_true.mp ha v hv).1) hblocked
  · rw [Dict.get?_set_ne _ _ hc] at hget
    exact Or.inl ⟨hne, x, hq, rfl, v, hget, hinc⟩

/-- A refused `acquire` makes its client wait for holders. -/
theorem blocked_acquire_of_not_admits {k : Cell Client} {c : Client} {m : LockMode}
    (ha : admits k.holders m = false) {w h : Client} (hb : (k.acquire c m).Blocked w h) :
    k.Blocked w h ∨ (w = c ∧ h ≠ c ∧ h ∈ k.holders.keys) := by
  rw [Cell.acquire, if_neg (by simp [ha])] at hb
  split at hb
  · exact Or.inl hb
  · obtain ⟨hne, x, hq, rfl, v, hget, hinc⟩ := hb
    rcases List.mem_append.mp hq with hold | hnew
    · exact Or.inl ⟨hne, x, hold, rfl, v, hget, hinc⟩
    · cases List.mem_singleton.mp hnew
      exact Or.inr ⟨rfl, Ne.symm hne, Dict.mem_keys_of_get? hget⟩

/-- A release that does not free the resource takes its client out of the holders and keeps the
other waits. -/
theorem blocked_release_of_not_sole {k : Cell Client} (hok : k.Ok) {c : Client}
    (hsole : ¬ k.SoleHolder c) {w h : Client} :
    (k.release c).Blocked w h ↔ k.Blocked w h ∧ h ≠ c := by
  rw [hok.release_of_not_sole hsole]
  unfold Blocked
  simp only [Dict.get?_erase]
  by_cases hch : c = h
  · simp [hch]
  · simp [hch, Ne.symm hch]

/-- Who waits after a release by the only holder: requests that were left behind, for clients that
were granted. -/
theorem blocked_release_of_sole {k : Cell Client} (hok : k.Ok) {c : Client}
    (hsole : k.SoleHolder c) {w h : Client} :
    (k.release c).Blocked w h ↔ ∃ x ∈ leftBehind k.queue, x.1 = w ∧
      ∃ y ∈ granted k.queue, y.1 = h ∧ compatible x.2 y.2 = false := by
  have hc : k.Holding c := (Dict.keys_eq_singleton_iff.mp hsole).1
  obtain ⟨hq, hh⟩ := promote_of_free ((Dict.keys_erase_eq_nil_iff hc).mpr hsole) hok.distinct
  rw [release, if_pos hc]
  unfold Blocked
  rw [hq]
  constructor
  · rintro ⟨-, x, hx, hxw, v, hget, hinc⟩
    exact ⟨x, hx, hxw, (h, v), (hh h v).mp hget, rfl, hinc⟩
  · rintro ⟨x, hx, rfl, y, hy, rfl, hinc⟩
    refine ⟨fun he => ?_, x, hx, rfl, y.2, (hh y.1 y.2).mpr hy, hinc⟩
    -- no client waits twice
    have hd := hok.distinct
    rw [← granted_append_leftBehind k.queue, List.map_append, List.nodup_append'] at hd
    exact hd.2.2 (List.mem_map_of_mem hy) (he ▸ List.mem_map_of_mem hx)

end Cell

/-! ## The graph of the detector -/

namespace Table

/-- Every wait has its edge. -/
def EdgesOk (t : Table Client Resource) : Prop :=
  ∀ r w h, (t.cell r).Blocked w h → h ∈ t.waitFor w

/-- A release of `r` by its only holder `c` grants a part of the queue, and somebody in the rest has
no edge to a client that is granted. -/
def GrantsPart (t : Table Client Resource) (c : Client) (r : Resource) : Prop :=
  (t.cell r).SoleHolder c ∧ ∃ x ∈ Cell.leftBehind (t.cell r).queue,
    ∃ y ∈ Cell.granted (t.cell r).queue,
      compatible x.2 y.2 = false ∧ y.1 ∉ dropClient c t.waitFor x.1

/-- The command makes a client wait without an edge, or removes the edge of a wait that goes on. -/
def LosesEdge (t : Table Client Resource) : Command Client Resource → Prop
  | .acquire c r m _ =>
    Cell.admits (t.cell r).holders m = true ∧
      ∃ x ∈ (t.cell r).queue, x.1 ≠ c ∧ x.2 = .exclusive ∧ c ∉ t.waitFor x.1
  | .release c r =>
    t.GrantsPart c r ∨ ((t.cell r).SoleHolder c ∧
      ∃ r', r' ≠ r ∧ ∃ h, (t.cell r').Blocked c h ∨ (t.cell r').Blocked h c)
  | .releaseAll c | .abort c => ∃ r, t.GrantsPart c r ∨ ∃ h, (t.cell r).Blocked c h

instance (t : Table Client Resource) (c : Client) (r : Resource) : Decidable (t.GrantsPart c r) :=
  inferInstanceAs (Decidable (_ ∧ _))

instance [Fintype Client] [Fintype Resource] (t : Table Client Resource)
    (cmd : Command Client Resource) : Decidable (t.LosesEdge cmd) :=
  match cmd with
  | .acquire _ _ _ _ => inferInstanceAs (Decidable (_ ∧ _))
  | .release _ _ => inferInstanceAs (Decidable (_ ∨ _))
  | .releaseAll _ | .abort _ => inferInstanceAs (Decidable (∃ _, _))

/-- Only the edges of other clients outlive the removal of a client. -/
theorem mem_dropClient {g : Client → Finset Client} {c w h : Client} :
    h ∈ dropClient c g w ↔ w ≠ c ∧ h ≠ c ∧ h ∈ g w := by
  unfold dropClient
  split
  · next hw => simp [hw]
  · next hw =>
    rw [Finset.mem_erase]
    simp [hw]

variable {t : Table Client Resource}

omit [DecidableEq Resource] in
/-- The waits at a resource that its only holder releases have their edges exactly when the release
does not grant a part of the queue. -/
theorem edges_of_sole {c : Client} {r : Resource} (hok : (t.cell r).Ok)
    (hsole : (t.cell r).SoleHolder c) :
    (∀ w h, ((t.cell r).release c).Blocked w h → h ∈ dropClient c t.waitFor w) ↔
      ¬ t.GrantsPart c r := by
  constructor
  · rintro hall ⟨-, x, hx, y, hy, hinc, hnot⟩
    exact hnot (hall x.1 y.1 ((Cell.blocked_release_of_sole hok hsole).mpr
      ⟨x, hx, rfl, y, hy, rfl, hinc⟩))
  · intro hno w h hb
    obtain ⟨x, hx, rfl, y, hy, rfl, hinc⟩ := (Cell.blocked_release_of_sole hok hsole).mp hb
    by_contra hmem
    exact hno ⟨hsole, x, hx, y, hy, hinc, hmem⟩

theorem EdgesOk.acquire (he : t.EdgesOk) (hok : t.Ok) {c : Client} {r : Resource} {m : LockMode}
    {l : Option Time} :
    (t.apply (.acquire c r m l)).EdgesOk ↔ ¬ t.LosesEdge (.acquire c r m l) := by
  by_cases ha : Cell.admits (t.cell r).holders m = true
  · constructor
    · rintro hall ⟨-, x, hx, hne, hex, hnot⟩
      have hb : ((t.cell r).acquire c m).Blocked x.1 c :=
        Cell.blocked_of_acquire ha hne (by rw [← hex]; exact hx)
      have hmem := hall r x.1 c (by simpa [apply, actOn] using hb)
      simp only [apply, graph, if_pos ha] at hmem
      exact hnot hmem
    · intro hno r' w h hb
      simp only [apply, actOn, graph, if_pos ha] at hb ⊢
      split at hb
      · next hr =>
        subst hr
        rcases Cell.blocked_acquire_of_admits (hok r') ha hb with hold | ⟨rfl, hne, hq⟩
        · exact he r' w h hold
        · by_contra hmem
          exact hno ⟨ha, _, hq, hne, rfl, hmem⟩
      · exact he r' w h hb
  · refine iff_of_true (fun r' w h hb => ?_) fun hl => ha hl.1
    simp only [apply, actOn, graph, if_neg ha] at hb ⊢
    rw [Bool.not_eq_true] at ha
    -- a refused request only adds edges
    have hkeep : h ∈ t.waitFor w →
        h ∈ Function.update t.waitFor c (t.waitFor c ∪ (t.cell r).holders.keys.toFinset.erase c)
          w := by
      intro hmem
      by_cases hw : w = c
      · subst hw
        rw [Function.update_self]
        exact Finset.mem_union_left _ hmem
      · rw [Function.update_of_ne hw]
        exact hmem
    split at hb
    · next hr =>
      subst hr
      rcases Cell.blocked_acquire_of_not_admits ha hb with hold | ⟨rfl, hne, hk⟩
      · exact hkeep (he r' w h hold)
      · rw [Function.update_self]
        exact Finset.mem_union_right _
          (Finset.mem_erase.mpr ⟨hne, List.mem_toFinset.mpr hk⟩)
    · exact hkeep (he r' w h hb)

theorem EdgesOk.release (he : t.EdgesOk) (hok : t.Ok) {c : Client} {r : Resource} :
    (t.apply (.release c r)).EdgesOk ↔ ¬ t.LosesEdge (.release c r) := by
  by_cases hsole : (t.cell r).SoleHolder c
  · have hpart := edges_of_sole (hok r) hsole
    constructor
    · rintro hall (hp | ⟨-, r', hr, h, hb | hb⟩)
      · refine hpart.mp (fun w h hb => ?_) hp
        have hmem := hall r w h (by simpa [apply, actOn] using hb)
        simpa only [apply, graph, if_pos hsole] using hmem
      · have hmem := hall r' c h (by simpa [apply, actOn, hr] using hb)
        simp only [apply, graph, if_pos hsole] at hmem
        exact (mem_dropClient.mp hmem).1 rfl
      · have hmem := hall r' h c (by simpa [apply, actOn, hr] using hb)
        simp only [apply, graph, if_pos hsole] at hmem
        exact (mem_dropClient.mp hmem).2.1 rfl
    · intro hno
      obtain ⟨hgrant, hother⟩ := not_or.mp hno
      intro r' w h hb
      -- a wait at `r` is a new one, and one elsewhere must not be of `c` or for it
      simp only [apply, actOn, graph, if_pos hsole] at hb ⊢
      split at hb
      · next hr =>
        subst hr
        exact hpart.mpr hgrant w h hb
      · next hr =>
        refine mem_dropClient.mpr ⟨?_, ?_, he r' w h hb⟩
        · rintro rfl
          exact hother ⟨hsole, r', hr, h, Or.inl hb⟩
        · rintro rfl
          exact hother ⟨hsole, r', hr, w, Or.inr hb⟩
  · refine iff_of_true (fun r' w h hb => ?_) ?_
    · simp only [apply, actOn, graph, if_neg hsole] at hb ⊢
      split at hb
      · next hr =>
        subst hr
        exact he r' w h ((Cell.blocked_release_of_not_sole (hok r') hsole).mp hb).1
      · exact he r' w h hb
    · rintro (hp | ⟨hs, -⟩)
      · exact hsole hp.1
      · exact hsole hs

theorem EdgesOk.releaseAll (he : t.EdgesOk) (hok : t.Ok) {c : Client} :
    (t.apply (.releaseAll c)).EdgesOk ↔ ¬ t.LosesEdge (.releaseAll c) := by
  constructor
  · rintro hall ⟨r, hp | ⟨h, hb⟩⟩
    · exact (edges_of_sole (hok r) hp.1).mp (hall r) hp
    · -- the client waits for another holder, so it is not the only one, and goes on waiting
      have hsole : ¬ (t.cell r).SoleHolder c := by
        intro hs
        obtain ⟨hne, x, -, -, v, hget, -⟩ := hb
        exact hne ((Dict.keys_eq_singleton_iff.mp hs).2 h (Dict.mem_keys_of_get? hget)).symm
      have hmem := hall r c h
        ((Cell.blocked_release_of_not_sole (hok r) hsole).mpr ⟨hb, Ne.symm hb.1⟩)
      exact (mem_dropClient.mp hmem).1 rfl
  · intro hno r w h hb
    by_cases hsole : (t.cell r).SoleHolder c
    · exact (edges_of_sole (hok r) hsole).mpr (fun hp => hno ⟨r, Or.inl hp⟩) w h hb
    · obtain ⟨hold, hhc⟩ := (Cell.blocked_release_of_not_sole (hok r) hsole).mp hb
      refine mem_dropClient.mpr ⟨?_, hhc, he r w h hold⟩
      rintro rfl
      exact hno ⟨r, Or.inr ⟨h, hold⟩⟩

/-- A command keeps the graph complete exactly when it loses no edge. -/
theorem EdgesOk.apply (he : t.EdgesOk) (hok : t.Ok) (cmd : Command Client Resource) :
    (t.apply cmd).EdgesOk ↔ ¬ t.LosesEdge cmd := by
  cases cmd with
  | acquire c r m l => exact he.acquire hok
  | release c r => exact he.release hok
  | releaseAll c => exact he.releaseAll hok
  | abort c => exact he.releaseAll hok

end Table

/-! ## Detection -/

namespace DeadlockDetector

theorem mem_waitFor_keys {d : DeadlockDetector Client} {u v : Client} (h : v ∈ d.holdersOf u) :
    u ∈ d.waitFor.keys := by
  by_contra hu
  rw [holdersOf, Dict.get?_eq_none_iff.mpr hu] at h
  cases h

/-- No search of the graph nests more than `limit` calls. -/
def Shallow (limit : ℕ) (d : DeadlockDetector Client) : Prop :=
  ∀ p, Dfs.Descent (fun a b => b ∈ d.holdersOf a) d.waitFor.keys p → p.length ≤ limit

variable {limit : ℕ} {d : DeadlockDetector Client} {order : Client → List Client}

theorem shallow_of_paths (h : ∀ p : List Client, p.IsChain (fun a b => b ∈ d.holdersOf a) →
    p.Nodup → p.length ≤ limit) : d.Shallow limit := by
  rintro p ⟨_, _, _, -, -, hchain, hnodup, -⟩
  exact h p hchain hnodup

theorem shallow_of_card [Fintype Client] (h : Fintype.card Client ≤ limit) : d.Shallow limit :=
  shallow_of_paths fun _ _ hnodup => hnodup.length_le_card.trans h

theorem mem_order (horder : ∀ u, (order u).toFinset = d.holdersOf u)
    (a b : Client) : b ∈ order a ↔ b ∈ d.holdersOf a := by
  rw [← horder, List.mem_toFinset]

theorem detectCycle_eq_error_iff {e : RecursionError} : d.detectCycle limit order = .error e ↔
    Dfs.findCycle order limit d.waitFor.keys = .tooDeep := by
  unfold detectCycle
  cases e
  cases Dfs.findCycle order limit d.waitFor.keys <;> simp

theorem detectCycle_ne_error (horder : ∀ u, (order u).toFinset = d.holdersOf u)
    (h : d.Shallow limit) {e : RecursionError} : d.detectCycle limit order ≠ .error e := by
  intro hraised
  obtain ⟨p, hp, hlen⟩ := Dfs.findCycle_tooDeep (detectCycle_eq_error_iff.mp hraised)
  simp only [mem_order horder] at hp
  exact absurd (h p hp) (Nat.not_le.mpr hlen)

/-- **The detector finds every cycle of its graph** when it does not raise an error, in whatever
order it goes through the sets. -/
theorem exists_detectCycle (horder : ∀ u, (order u).toFinset = d.holdersOf u)
    (hne : ∀ e, d.detectCycle limit order ≠ .error e) {u : Client}
    (hcyc : Relation.TransGen (fun a b => b ∈ d.holdersOf a) u u) :
    ∃ cycle, d.detectCycle limit order = .ok (some cycle) ∧ Dfs.IsCycle order cycle := by
  have hu : u ∈ d.waitFor.keys := by
    obtain ⟨v, hv, -⟩ := Relation.TransGen.head'_iff.mp hcyc
    exact mem_waitFor_keys hv
  simp only [← mem_order horder] at hcyc
  obtain ⟨cycle, hfound⟩ := Dfs.exists_found
    (fun hdeep => hne .maximumDepthExceeded (detectCycle_eq_error_iff.mpr hdeep)) hu hcyc
  refine ⟨cycle, ?_, Dfs.findCycle_found hfound⟩
  rw [detectCycle, hfound]

/-- What the detector returns is a cycle of its graph that goes through no client twice. -/
theorem isSimpleCycle_of_detectCycle {cycle : List Client}
    (h : d.detectCycle limit order = .ok (some cycle)) : Dfs.IsSimpleCycle order cycle := by
  rw [detectCycle] at h
  cases hfind : Dfs.findCycle order limit d.waitFor.keys with
  | tooDeep => rw [hfind] at h; cases h
  | done s => rw [hfind] at h; cases h
  | found c =>
    rw [hfind] at h
    cases h
    exact Dfs.findCycle_simple hfind

theorem detectCycle_eq_none_iff (horder : ∀ u, (order u).toFinset = d.holdersOf u)
    (hne : ∀ e, d.detectCycle limit order ≠ .error e) : d.detectCycle limit order = .ok none ↔
      ∀ u, ¬ Relation.TransGen (fun a b => b ∈ d.holdersOf a) u u := by
  constructor
  · intro hnone u hcyc
    obtain ⟨cycle, hsome, -⟩ := exists_detectCycle horder hne hcyc
    rw [hnone] at hsome
    cases hsome
  · intro hacyclic
    cases hd : d.detectCycle limit order with
    | error e => exact absurd hd (hne e)
    | ok result =>
      cases result with
      | none => rfl
      | some cycle =>
        obtain ⟨v, l, rfl, hchain⟩ := (isSimpleCycle_of_detectCycle hd).1
        have hcyc := Dfs.transGen_of_isChain l v hchain
        simp only [mem_order horder] at hcyc
        exact absurd hcyc (hacyclic v)

/-- What `detect_cycle` is for: a result that is `None` exactly when the graph has no cycle, and
otherwise a cycle along the edges that goes through no client twice. -/
def Exact (d : DeadlockDetector Client) (r : Except RecursionError (Option (List Client))) :
    Prop :=
  (r = .ok none ↔ ∀ u, ¬ Relation.TransGen (fun a b => b ∈ d.holdersOf a) u u) ∧
    ∃ result, r = .ok result ∧ ∀ cycle ∈ result, 2 ≤ cycle.length ∧
      cycle.head? = cycle.getLast? ∧ cycle.IsChain (fun a b => b ∈ d.holdersOf a) ∧
        cycle.dropLast.Nodup

/-- A call that does not raise an error is exact. -/
theorem exact_of_ne_error (horder : ∀ u, (order u).toFinset = d.holdersOf u)
    (hne : ∀ e, d.detectCycle limit order ≠ .error e) : d.Exact (d.detectCycle limit order) := by
  refine ⟨detectCycle_eq_none_iff horder hne, ?_⟩
  cases hd : d.detectCycle limit order with
  | error e => exact absurd hd (hne e)
  | ok result =>
    refine ⟨result, rfl, ?_⟩
    rintro cycle rfl
    obtain ⟨⟨v, l, rfl, hchain⟩, hnodup⟩ := isSimpleCycle_of_detectCycle hd
    simp only [mem_order horder] at hchain
    have hlast : (v :: (l ++ [v])).getLast? = some v := by
      rw [← List.cons_append, List.getLast?_concat]
    exact ⟨by simp, hlast.symm, hchain, hnodup⟩

/-- A higher limit changes nothing for a call that does not raise an error. -/
theorem detectCycle_of_le (hne : ∀ e, d.detectCycle limit order ≠ .error e) {limit' : ℕ}
    (hle : limit ≤ limit') : d.detectCycle limit' order = d.detectCycle limit order := by
  have hdeep : Dfs.findCycle order limit d.waitFor.keys ≠ .tooDeep :=
    fun hdeep => hne .maximumDepthExceeded (detectCycle_eq_error_iff.mpr hdeep)
  have hsame := Dfs.findCycle_bound hdeep hle
  rw [detectCycle, detectCycle, hsame]

/-- In a graph that is not shallow some order of the sets takes the search too deep. -/
theorem exists_detectCycle_error (h : ¬ d.Shallow limit) : ∃ order : Client → List Client,
    (∀ u, (order u).Nodup ∧ (order u).toFinset = d.holdersOf u) ∧
      d.detectCycle limit order = .error .maximumDepthExceeded := by
  obtain ⟨p, hp, hlen⟩ : ∃ p, Dfs.Descent (fun a b => b ∈ d.holdersOf a) d.waitFor.keys p ∧
      limit < p.length := by
    simpa [Shallow] using h
  obtain ⟨_, _, _, -, -, hchain, hnodup, -⟩ := id hp
  obtain ⟨order, horder, hfirst⟩ := Dfs.exists_order d.holdersOf hchain hnodup
  refine ⟨order, horder, detectCycle_eq_error_iff.mpr (Dfs.findCycle_of_first ?_ hfirst hlen)⟩
  simpa only [mem_order fun u => (horder u).2] using hp

/-- **The detector is exact** for the shallow graphs, and for no others: in whatever order the sets
are gone through, it returns `None` exactly when the graph has no cycle, and else a cycle along the
edges that goes through no client twice. In the other graphs it is still exact where it does not
raise an error, and then no higher limit changes its result. -/
theorem detectCycle_exact (limit : ℕ) (d : DeadlockDetector Client) :
    ((∀ order : Client → List Client,
        (∀ u, (order u).Nodup ∧ (order u).toFinset = d.holdersOf u) →
          d.Exact (d.detectCycle limit order)) ↔ d.Shallow limit) ∧
    ∀ order : Client → List Client, (∀ u, (order u).toFinset = d.holdersOf u) →
      (∀ e, d.detectCycle limit order ≠ .error e) → d.Exact (d.detectCycle limit order) ∧
        ∀ limit' ≥ limit, d.detectCycle limit' order = d.detectCycle limit order := by
  refine ⟨⟨fun hexact => ?_, fun h order horder => ?_⟩, fun order horder hne => ?_⟩
  · by_contra hdeep
    obtain ⟨order, horder, hraised⟩ := exists_detectCycle_error hdeep
    obtain ⟨-, result, hresult, -⟩ := hexact order horder
    rw [hraised] at hresult
    cases hresult
  · have hfinset : ∀ u, (order u).toFinset = d.holdersOf u := fun u => (horder u).2
    exact exact_of_ne_error hfinset fun _ => detectCycle_ne_error hfinset h
  · exact ⟨exact_of_ne_error horder hne, fun _ hle => detectCycle_of_le hne hle⟩

/-! ## A graph that is too deep -/

/-- Each of the first `n` clients waits for the next one. -/
def queueUp (n : ℕ) : DeadlockDetector ℕ :=
  (List.range n).foldl (fun d i => d.addWait i (i + 1)) {}

theorem queueUp_succ (n : ℕ) : queueUp (n + 1) = (queueUp n).addWait n (n + 1) := by
  simp [queueUp, List.range_succ]

theorem keys_queueUp (n : ℕ) : (queueUp n).waitFor.keys = List.range n := by
  induction n with
  | zero => rfl
  | succ n ih =>
    rw [queueUp_succ, addWait, if_neg (by omega), Dict.keys_set, ih, List.range_succ]
    simp

theorem holdersOf_queueUp (n u : ℕ) :
    (queueUp n).holdersOf u = if u < n then {u + 1} else ∅ := by
  induction n with
  | zero => rfl
  | succ n ih =>
    have hn : (queueUp n).holdersOf n = ∅ := by
      rw [holdersOf, Dict.get?_eq_none_iff.mpr (by simp [keys_queueUp])]
      rfl
    rw [queueUp_succ, addWait, if_neg (by omega), hn, holdersOf]
    dsimp only
    rw [Dict.get?_set]
    by_cases hu : n = u
    · simp [hu]
    · rw [if_neg hu]
      show (queueUp n).holdersOf u = _
      rw [ih]
      congr 1
      simp only [eq_iff_iff]
      omega

/-- Nobody waits in a circle there. -/
theorem acyclic_queueUp (n u : ℕ) :
    ¬ Relation.TransGen (fun a b => b ∈ (queueUp n).holdersOf a) u u := by
  have hlt : ∀ a b, Relation.TransGen (fun a b => b ∈ (queueUp n).holdersOf a) a b → a < b := by
    intro a b h
    refine Relation.TransGen.trans_induction_on h (fun {a b} hab => ?_)
      fun _ _ hab hbc => hab.trans hbc
    rw [holdersOf_queueUp] at hab
    split at hab
    · rw [Finset.mem_singleton.mp hab]
      exact Nat.lt_succ_self a
    · cases hab
  exact fun h => lt_irrefl u (hlt u u h)

/-- To see that, the search nests one call more than there are clients that wait. -/
theorem detectCycle_queueUp {n : ℕ} (hn : 0 < n) (hlimit : limit ≤ n) {order : ℕ → List ℕ}
    (horder : ∀ u, (order u).toFinset = (queueUp n).holdersOf u) :
    (queueUp n).detectCycle limit order = .error .maximumDepthExceeded := by
  have hhead : ∀ u < n, (order u).head? = some (u + 1) := by
    intro u hu
    have hone := horder u
    rw [holdersOf_queueUp, if_pos hu] at hone
    cases hl : order u with
    | nil => simp [hl] at hone
    | cons a l =>
      have ha : a ∈ (order u).toFinset := by simp [hl]
      rw [hone, Finset.mem_singleton] at ha
      rw [ha]
      rfl
  have hfirst : (List.range (n + 1)).IsChain fun a b => (order a).head? = some b :=
    (List.isChain_range_succ _ n).mpr hhead
  obtain ⟨m, rfl⟩ := Nat.exists_eq_succ_of_ne_zero hn.ne'
  refine detectCycle_eq_error_iff.mpr
    (Dfs.findCycle_of_first ⟨[], 0, (List.range m).map Nat.succ, ?_, ?_, ?_, List.nodup_range, ?_⟩
      hfirst (by simpa using Nat.lt_succ_of_le hlimit))
  · rw [keys_queueUp, List.range_succ_eq_map]
    rfl
  · rw [List.range_succ_eq_map]
    rfl
  · exact hfirst.imp fun a b hab => List.mem_of_mem_head? hab
  · simp

/-- A thousand clients that wait in a row are too many for a limit of a thousand calls. -/
theorem queueUp_too_deep :
    (∀ u, ¬ Relation.TransGen (fun a b => b ∈ (queueUp 1000).holdersOf a) u u) ∧
      (queueUp 1000).detectCycle 1000 (fun u => if u < 1000 then [u + 1] else []) =
        .error .maximumDepthExceeded := by
  refine ⟨acyclic_queueUp 1000, detectCycle_queueUp (by decide) (Nat.le_refl 1000) fun u => ?_⟩
  rw [holdersOf_queueUp]
  split <;> simp

end DeadlockDetector

/-- Distinct clients in a circle, each with a queued request that is incompatible with a lock of the
next. -/
structure CircularWait (s : LockManager Client Resource) {k : ℕ} (c : Fin (k + 2) → Client) :
    Prop where
  distinct : Function.Injective c
  waits : ∀ i, ∃ r, ∃ req ∈ (s.lockState r).waiters, req.clientId = c i ∧
    ∃ h ∈ (s.lockState r).holders.get? (c (i + 1)), ¬ (req.mode = .shared ∧ h.mode = .shared)

/-- A wait of the circle is a wait in the view. -/
theorem CircularWait.blocked {s : LockManager Client Resource} {k : ℕ} {c : Fin (k + 2) → Client}
    (hc : CircularWait s c) (i : Fin (k + 2)) :
    ∃ r, ((view s).cell r).Blocked (c i) (c (i + 1)) := by
  obtain ⟨r, req, hreq, hclient, h, hget, hinc⟩ := hc.waits i
  have hne : c i ≠ c (i + 1) := fun he => by simpa using hc.distinct he
  refine ⟨r, hne, (req.clientId, req.mode), List.mem_map_of_mem hreq, hclient, h.mode,
    get?_holders_view hget, ?_⟩
  simpa [compatible] using hinc

variable {defaultLease : Time}

/-- Every wait has its edge in all states of a run exactly when no command of it loses one. -/
theorem edgesOk_iff (run : CommandRun Client Resource defaultLease) :
    (∀ i ≤ run.length, (view (run.state i)).EdgesOk) ↔
      ∀ i < run.length, ¬ (view (run.state i)).LosesEdge (run.event i).1 := by
  refine run.always_iff (P := fun s => (view s).EdgesOk)
    (G := fun s e => ¬ (view s).LosesEdge e.1) ?_ (fun i hi he => ?_)
  · rintro r w h ⟨-, x, hx, -⟩
    cases hx
  · rw [view_succ run hi]
    exact he.apply (cellOk run hi.le) _

/-- **Detection is complete** in every state of a run in which no command loses an edge, when the
graph of that state is shallow. -/
theorem detection_complete (run : CommandRun Client Resource defaultLease)
    (hno : ∀ i < run.length, ¬ (view (run.state i)).LosesEdge (run.event i).1) {i : ℕ}
    (hi : i ≤ run.length) {limit : ℕ} (hshallow : (run.state i).deadlockDetector.Shallow limit)
    {k : ℕ} {c : Fin (k + 2) → Client} (hc : CircularWait (run.state i) c)
    {order : Client → List Client}
    (horder : ∀ u, (order u).toFinset = (run.state i).deadlockDetector.holdersOf u) :
    ∃ cycle, (run.state i).deadlockDetector.detectCycle limit order = .ok (some cycle) ∧
      Dfs.IsCycle order cycle := by
  refine DeadlockDetector.exists_detectCycle horder
    (fun _ => DeadlockDetector.detectCycle_ne_error horder hshallow) (u := c 0)
    (Dfs.transGen_of_circle fun j => ?_)
  obtain ⟨r, hb⟩ := hc.blocked j
  exact (edgesOk_iff run).mpr hno i hi r _ _ hb

/-- Two clients that each hold a resource ask for the other's. -/
def deadlockEvents : List (Applied (Fin 2) (Fin 2)) :=
  [plain (.acquire 0 0 .exclusive none), plain (.acquire 1 1 .exclusive none),
    plain (.acquire 0 1 .exclusive none), plain (.acquire 1 0 .exclusive none)]

def deadlock : CommandRun (Fin 2) (Fin 2) 30 :=
  Run.ofEvents _ _ deadlockEvents (plain (.releaseAll 0)) (by decide +kernel)

theorem detection_complete_deadlock :
    ∃ cycle, (deadlock.state 4).deadlockDetector.detectCycle 1000 (fun u => [u + 1]) =
        .ok (some cycle) ∧ Dfs.IsCycle (fun u => [u + 1]) cycle :=
  detection_complete deadlock (by decide +kernel) (i := 4) (by decide)
    (DeadlockDetector.shallow_of_card (by decide)) (k := 0) (c := id)
    ⟨Function.injective_id, by decide +kernel⟩ (by decide +kernel)

/-! ## A deadlock that is not detected -/

/-- Clients 1 and 2 wait for resource 0. Client 0 releases it to client 1, which then asks for
resource 1 of client 2. -/
def unseenEvents : List (Applied (Fin 3) (Fin 2)) :=
  [plain (.acquire 0 0 .exclusive none), plain (.acquire 2 1 .exclusive none),
    plain (.acquire 1 0 .exclusive none), plain (.acquire 2 0 .exclusive none),
    plain (.release 0 0), plain (.acquire 1 1 .exclusive none)]

def unseen : CommandRun (Fin 3) (Fin 2) 30 :=
  Run.ofEvents _ _ unseenEvents (plain (.releaseAll 0)) (by decide +kernel)

/-- Clients 1 and 2 wait for each other, and the graph has only the edge from 1 to 2. -/
theorem unseen_not_detected :
    CircularWait (unseen.state 6) (k := 0) ![1, 2] ∧
      (∀ u, ((if u = 1 then [2] else []) : List (Fin 3)).toFinset =
        (unseen.state 6).deadlockDetector.holdersOf u) ∧
      (unseen.state 6).deadlockDetector.detectCycle 1000 (fun u => if u = 1 then [2] else []) =
        .ok none :=
  ⟨⟨by decide, by decide +kernel⟩, by decide +kernel, by decide +kernel⟩

end Locks
