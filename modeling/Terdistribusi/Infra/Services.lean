import Terdistribusi.Infra.Network
import Mathlib.Data.List.Basic

/-!
# Several services on one network

Services of the same nodes share the inboxes. A message is for one of them, and so is a call. What
one service sees of this is a network of its own (`Services.refinement`): the events of the others
are nothing to it, and a message of its own stands behind fewer others.
-/

namespace Infra

namespace Services

variable {ι Addr : Type*} {Node Call Env Payload : ι → Type*}

/-- A message of service `i`. -/
def tag (i : ι) (m : Message Addr (Payload i)) : Message Addr (Σ i, Payload i) :=
  { senderId := m.senderId, receiverId := m.receiverId, payload := ⟨i, m.payload⟩ }

variable [DecidableEq ι]

/-- The message, when it is for service `i`. -/
def untag (i : ι) (m : Message Addr (Σ i, Payload i)) : Option (Message Addr (Payload i)) :=
  if h : m.payload.1 = i then
    some { senderId := m.senderId, receiverId := m.receiverId, payload := h ▸ m.payload.2 }
  else none

/-- A node runs all services. A call or a message is for one of them. -/
def act (acts : ∀ i, Addr → Input Addr (Call i) (Env i) (Payload i) → Node i →
      Node i × List (Message Addr (Payload i))) (a : Addr) :
    Input Addr (Σ i, Call i) (∀ i, Env i) (Σ i, Payload i) → (∀ i, Node i) →
      (∀ i, Node i) × List (Message Addr (Σ i, Payload i))
  | .call ⟨i, c⟩, n =>
    let r := acts i a (.call c) (n i)
    (Function.update n i r.1, r.2.map (tag i))
  | .receive env ⟨senderId, receiverId, ⟨i, p⟩⟩, n =>
    let r := acts i a (.receive (env i) ⟨senderId, receiverId, p⟩) (n i)
    (Function.update n i r.1, r.2.map (tag i))

/-- What service `i` sees. -/
def view (i : ι) (s : Network Addr (∀ i, Node i) (Σ i, Payload i)) :
    Network Addr (Node i) (Payload i) :=
  { nodes := fun a => s.nodes a i, inbox := fun b => (s.inbox b).filterMap (untag i) }

/-! ## Messages -/

@[simp] theorem untag_self (i : ι) (senderId receiverId : Addr) (p : Payload i) :
    untag i ⟨senderId, receiverId, ⟨i, p⟩⟩ = some ⟨senderId, receiverId, p⟩ :=
  dif_pos rfl

theorem untag_of_ne {i j : ι} (h : j ≠ i) (senderId receiverId : Addr) (p : Payload j) :
    untag i ⟨senderId, receiverId, ⟨j, p⟩⟩ = none :=
  dif_neg h

theorem filterMap_untag_self (i : ι) (ms : List (Message Addr (Payload i))) :
    (ms.map (tag i)).filterMap (untag i) = ms := by
  rw [List.filterMap_map]
  exact (List.filterMap_congr fun m _ => untag_self i _ _ _).trans List.filterMap_some

theorem filterMap_untag_of_ne {i j : ι} (h : j ≠ i) (ms : List (Message Addr (Payload j))) :
    (ms.map (tag j)).filterMap (untag i) = [] := by
  rw [List.filterMap_map, List.filterMap_eq_nil_iff]
  exact fun m _ => untag_of_ne h _ _ _

variable [DecidableEq Addr]

omit [DecidableEq ι] in
theorem filter_map_tag (i : ι) (b : Addr) (ms : List (Message Addr (Payload i))) :
    (ms.map (tag i)).filter (fun m => m.receiverId = b) =
      (ms.filter fun m => m.receiverId = b).map (tag i) :=
  List.filter_map

/-! ## What a service sees of a step -/

variable {s : Network Addr (∀ i, Node i) (Σ i, Payload i)}

omit [DecidableEq ι] [DecidableEq Addr] in
theorem exists_split {α : Type*} {l : List α} {k : ℕ} {m : α} (hm : l[k]? = some m) :
    ∃ xs ys, l = xs ++ m :: ys ∧ xs.length = k := by
  obtain ⟨hk, rfl⟩ := List.getElem?_eq_some_iff.mp hm
  refine ⟨l.take k, l.drop (k + 1), ?_, List.length_take_of_le (Nat.le_of_lt hk)⟩
  rw [List.getElem_cons_drop, List.take_append_drop]

/-- Where a message of service `i` stands for the service, when it stands at place `k`. -/
def place (i : ι) (a : Addr) (k : ℕ) (s : Network Addr (∀ i, Node i) (Σ i, Payload i)) : ℕ :=
  (((s.inbox a).take k).filterMap (untag i)).length

omit [DecidableEq Addr] in
theorem getElem?_view {i : ι} {a : Addr} {k : ℕ} {m : Message Addr (Σ i, Payload i)}
    {x : Message Addr (Payload i)} (hm : (s.inbox a)[k]? = some m) (hx : untag i m = some x) :
    ((view i s).inbox a)[place i a k s]? = some x := by
  obtain ⟨xs, ys, hl, rfl⟩ := exists_split hm
  show ((s.inbox a).filterMap (untag i))[place i a xs.length s]? = some x
  rw [place, hl, List.take_left, List.filterMap_append, List.filterMap_cons_some hx]
  simp

theorem view_remove (i : ι) {a : Addr} {k : ℕ} {m : Message Addr (Σ i, Payload i)}
    (hm : (s.inbox a)[k]? = some m) :
    view i (s.remove a k) =
      if (untag i m).isSome then (view i s).remove a (place i a k s) else view i s := by
  obtain ⟨xs, ys, hl, rfl⟩ := exists_split hm
  have herase : ((s.inbox a).eraseIdx xs.length).filterMap (untag i) =
      if (untag i m).isSome then
        ((s.inbox a).filterMap (untag i)).eraseIdx (place i a xs.length s)
      else (s.inbox a).filterMap (untag i) := by
    rw [place, hl, List.take_left, List.eraseIdx_append_of_length_le (Nat.le_refl _)]
    cases hx : untag i m with
    | none => simp [hx]
    | some x => simp [hx, List.eraseIdx_append_of_length_le]
  have hinbox : ∀ b, (view i (s.remove a xs.length)).inbox b =
      if (untag i m).isSome then ((view i s).remove a (place i a xs.length s)).inbox b
      else (view i s).inbox b := by
    intro b
    by_cases hb : b = a
    · subst hb
      rw [Network.inbox_remove_self]
      show ((s.remove b xs.length).inbox b).filterMap (untag i) = _
      rw [Network.inbox_remove_self]
      exact herase
    · rw [Network.inbox_remove_of_ne hb, ite_self]
      show ((s.remove a xs.length).inbox b).filterMap (untag i) = _
      rw [Network.inbox_remove_of_ne hb]
      rfl
  split
  · next h =>
    simp only [h, if_true] at hinbox
    exact congrArg (Network.mk _) (funext hinbox)
  · next h =>
    simp only [h] at hinbox
    exact congrArg (Network.mk _) (funext hinbox)

theorem view_send_self (i : ι) (ms : List (Message Addr (Payload i))) :
    view i (s.send (ms.map (tag i))) = (view i s).send ms := by
  unfold view Network.send
  congr 1
  funext b
  dsimp only
  rw [List.filterMap_append, filter_map_tag, filterMap_untag_self]

theorem view_send_of_ne {i j : ι} (h : j ≠ i) (ms : List (Message Addr (Payload j))) :
    view i (s.send (ms.map (tag j))) = view i s := by
  unfold view Network.send
  congr 1
  funext b
  dsimp only
  rw [List.filterMap_append, filter_map_tag, filterMap_untag_of_ne h, List.append_nil]

variable {acts : ∀ i, Addr → Input Addr (Call i) (Env i) (Payload i) → Node i →
    Node i × List (Message Addr (Payload i))} {faulty : Finset Addr}

variable (acts) in
/-- What service `i` sees when a node has done something for service `j`. -/
theorem view_perform {a : Addr} (inp : Input Addr (Σ i, Call i) (∀ i, Env i) (Σ i, Payload i))
    {j : ι} {r : Node j × List (Message Addr (Payload j))}
    (h : act acts a inp (s.nodes a) = (Function.update (s.nodes a) j r.1, r.2.map (tag j)))
    (i : ι) :
    view i (s.perform (act acts) a inp) = if hj : j = i then
      Network.send (hj ▸ r).2 { nodes := Function.update (view i s).nodes a (hj ▸ r).1
                                inbox := (view i s).inbox }
      else view i s := by
  have hnodes : ∀ n, (fun b => Function.update s.nodes a (Function.update (s.nodes a) j n) b i) =
      if hj : j = i then Function.update (view i s).nodes a (hj ▸ n) else (view i s).nodes := by
    intro n
    funext b
    by_cases hj : j = i
    · subst hj
      rw [dif_pos rfl]
      by_cases hb : b = a
      · subst hb
        simp
      · rw [Function.update_of_ne hb, Function.update_of_ne hb]
        rfl
    · rw [dif_neg hj]
      by_cases hb : b = a
      · subst hb
        rw [Function.update_self, Function.update_of_ne (Ne.symm hj)]
        rfl
      · rw [Function.update_of_ne hb]
        rfl
  unfold Network.perform
  rw [h]
  by_cases hj : j = i
  · subst hj
    rw [dif_pos rfl]
    have hn := hnodes r.1
    rw [dif_pos rfl] at hn
    rw [view_send_self]
    congr 1
    exact congrArg (fun f => Network.mk f _) hn
  · rw [dif_neg hj]
    have hn := hnodes r.1
    rw [dif_neg hj] at hn
    rw [view_send_of_ne hj]
    exact congrArg (fun f => Network.mk f _) hn

variable (acts faulty) in
/-- **A service does not see the others**: what it sees of a step is a step of its own network, or
nothing. -/
theorem refinement (i : ι) : Refinement (Network.step (act acts) faulty)
    (Network.step (acts i) faulty) (fun _ => True) (view i) := by
  refine ⟨fun _ _ _ _ _ => trivial, fun s e s' _ h => ?_⟩
  cases e with
  | call a c =>
    obtain ⟨j, c⟩ := c
    simp only [Network.step] at h
    split at h
    · cases h
    · next ha =>
      cases h
      have hview := view_perform acts (s := s) (a := a) (.call ⟨j, c⟩)
        (r := acts j a (.call c) (s.nodes a j)) rfl i
      by_cases hj : j = i
      · subst hj
        -- a call of the service itself is the same call there
        refine Or.inr ⟨.call a c, ?_⟩
        rw [hview, dif_pos rfl, Network.step, if_neg ha]
        rfl
      · rw [hview, dif_neg hj]
        exact Or.inl rfl
  | deliver a k env =>
    simp only [Network.step] at h
    split at h
    · cases h
    · next m hm =>
      have hremove := view_remove i hm
      obtain ⟨senderId, receiverId, ⟨j, p⟩⟩ := m
      by_cases hj : j = i
      · subst hj
        rw [untag_self, Option.isSome_some, if_pos rfl] at hremove
        -- the message has its place in the inbox that the service sees
        refine Or.inr ⟨.deliver a (place j a k s) (env j), ?_⟩
        simp only [Network.step, getElem?_view hm (untag_self j senderId receiverId p)]
        split at h
        · next ha =>
          cases h
          rw [if_pos ha, hremove]
        · next ha =>
          cases h
          rw [if_neg ha, view_perform acts _ (r := acts j a
            (.receive (env j) ⟨senderId, receiverId, p⟩) ((s.remove a k).nodes a j)) rfl j,
            dif_pos rfl, hremove]
          rfl
      · rw [untag_of_ne hj, Option.isSome_none, if_neg Bool.false_ne_true] at hremove
        refine Or.inl ?_
        split at h
        · cases h
          exact hremove
        · cases h
          rw [view_perform acts _ (r := acts j a (.receive (env j) ⟨senderId, receiverId, p⟩)
            ((s.remove a k).nodes a j)) rfl i, dif_neg hj]
          exact hremove
  | drop a k =>
    simp only [Network.step] at h
    split at h
    · next hk =>
      cases h
      have hm := List.getElem?_eq_getElem hk
      rw [view_remove i hm]
      cases hx : untag i (s.inbox a)[k] with
      -- a message of another service that is lost is not seen
      | none => exact Or.inl rfl
      | some x =>
        refine Or.inr ⟨.drop a (place i a k s), ?_⟩
        have hplace := (List.getElem?_eq_some_iff.mp (getElem?_view hm hx)).1
        rw [Network.step, if_pos hplace]
        rfl
    · cases h
  | forge m =>
    obtain ⟨senderId, receiverId, ⟨j, p⟩⟩ := m
    simp only [Network.step] at h
    split at h
    · next hm =>
      cases h
      by_cases hj : j = i
      · subst hj
        refine Or.inr ⟨.forge ⟨senderId, receiverId, p⟩, ?_⟩
        rw [Network.step, if_pos hm]
        exact congrArg some (view_send_self j [⟨senderId, receiverId, p⟩]).symm
      · exact Or.inl (view_send_of_ne hj [⟨senderId, receiverId, p⟩])
    · cases h

end Services

end Infra
