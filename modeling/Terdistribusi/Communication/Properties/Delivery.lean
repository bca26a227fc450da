import Terdistribusi.Communication.BusSystem
import Terdistribusi.Infra.Erasure

/-!
# What a message bus delivers

What the handlers of a node are run on is told by nodes that write it down (`recording`) and
otherwise do the same (`recording_erases`).

* `delivered_in_order` — the messages for which `send` returned `True` are handled by their receiver
  in the order of the `send`s, each once, and none while a side is partitioned when it is sent
* `bus_simulates` — nodes on a bus go through states that they can go through on the network of
  `Infra.Network`, which delivers in any order and loses what it likes
-/

namespace Communication

open Infra

namespace BusSystem

variable {NodeId Node Call Env Payload : Type} [DecidableEq NodeId]
  {act : NodeId → Input NodeId Call Env Payload → Node → Node × List (Message NodeId Payload)}
  {faulty : Finset NodeId} {s s' : BusSystem NodeId Node Payload}
  {e : Event NodeId Call Env Payload}

/-! ## What the handlers are run on -/

/-- Nodes that act as before, and write down what their handlers are run on. -/
def recording
    (act : NodeId → Input NodeId Call Env Payload → Node → Node × List (Message NodeId Payload))
    (a : NodeId) (inp : Input NodeId Call Env Payload) (n : Node × List (Message NodeId Payload)) :
    (Node × List (Message NodeId Payload)) × List (Message NodeId Payload) :=
  let r := act a inp n.1
  match inp with
  | .call _ => ((r.1, n.2), r.2)
  | .receive _ m => ((r.1, n.2 ++ [m]), r.2)

omit [DecidableEq NodeId] in
@[simp] theorem recording_fst (a : NodeId) (inp : Input NodeId Call Env Payload)
    (n : Node × List (Message NodeId Payload)) :
    (recording act a inp n).1.1 = (act a inp n.1).1 := by
  cases inp <;> rfl

omit [DecidableEq NodeId] in
@[simp] theorem recording_snd (a : NodeId) (inp : Input NodeId Call Env Payload)
    (n : Node × List (Message NodeId Payload)) :
    (recording act a inp n).2 = (act a inp n.1).2 := by
  cases inp <;> rfl

/-- The system without what its nodes have written down. -/
def forget (s : BusSystem NodeId (Node × List (Message NodeId Payload)) Payload) :
    BusSystem NodeId Node Payload :=
  { nodes := fun a => (s.nodes a).1, bus := s.bus }

/-- The turn without what the nodes have written down. -/
def Turn.forget (t : Turn NodeId (Node × List (Message NodeId Payload)) Payload) :
    Turn NodeId Node Payload :=
  { nodes := fun a => (t.nodes a).1, bus := t.bus, sent := t.sent }

theorem forget_perform (a : NodeId) (inp : Input NodeId Call Env Payload)
    (s : BusSystem NodeId (Node × List (Message NodeId Payload)) Payload) :
    s.forget.perform act a inp = (s.perform (recording act) a inp).forget := by
  have hnodes : (fun b => (Function.update s.nodes a (recording act a inp (s.nodes a)).1 b).1) =
      Function.update (fun b => (s.nodes b).1) a (recording act a inp (s.nodes a)).1.1 :=
    funext fun b => Function.apply_update (fun _ => Prod.fst) s.nodes a _ b
  unfold perform forget Turn.forget
  dsimp only
  rw [hnodes, recording_fst, recording_snd]

theorem forget_turn (s : BusSystem NodeId (Node × List (Message NodeId Payload)) Payload)
    (e : Event NodeId Call Env Payload) :
    s.forget.turn act faulty e = (s.turn (recording act) faulty e).map Turn.forget := by
  cases e with
  | registerNode a | partitionNodes nodeIds | healPartition => rfl
  | call a c =>
    simp only [turn, forget_perform]
    split <;> rfl
  | dispatch a env =>
    have hbus : s.forget.bus = s.bus := rfl
    simp only [turn, hbus]
    cases s.bus.receive a with
    | none => rfl
    | some r =>
      dsimp only
      split
      · rfl
      · exact congrArg some
          (forget_perform a (.receive env r.1) { s with bus := r.2 })
  | forge m =>
    simp only [turn]
    split <;> rfl

/-- **Writing down changes nothing.** -/
theorem recording_erases : Erases (step (recording act) faulty) (step act faulty) forget id := by
  intro s e
  unfold step
  rw [id, forget_turn, Option.map_map, Option.map_map]
  rfl

/-! ## Delivery -/

/-- The message that node `b` takes out of its inbox in an event. -/
def taken (b : NodeId) (s : BusSystem NodeId Node Payload) :
    Event NodeId Call Env Payload → List (Message NodeId Payload)
  | .dispatch a _ => if a = b then (s.bus.inbox b).head?.toList else []
  | _ => []

section

variable {start : NodeId → Node} (run : Run (step act faulty) (initial start))

/-- The same run, with nodes that write down what their handlers are run on. -/
def recorded : Run (step (recording act) faulty) (initial fun a => (start a, [])) :=
  Run.lift recording_erases run run.event fun _ => rfl

end

/-- A node counts what it receives, and a call sends the other node a number. -/
def counter (a : Bool) : Input Bool ℕ Unit ℕ → ℕ → ℕ × List (Message Bool ℕ)
  | .call c, n => (n, [{ senderId := a, receiverId := !a, payload := c }])
  | .receive _ _, n => (n + 1, [])

/-- The nodes and the inboxes before the `send`s of an event. -/
def Turn.network (t : Turn NodeId Node Payload) : Network NodeId Node Payload :=
  { nodes := t.nodes, inbox := t.bus.inbox }

theorem send_nil (x : Network NodeId Node Payload) : x.send [] = x := by
  simp [Network.send]

/-- What the bus refuses, the network takes and loses. -/
theorem reaches_sendAll (t : Turn NodeId Node Payload) :
    Reaches (Network.step act faulty) (t.network.send t.sent)
      (network { nodes := t.nodes, bus := t.bus.sendAll t.sent }) := by
  have hlost := Network.reaches_send act faulty t.network
    (MessageBus.accepted_sublist t.sent t.bus)
  have hinbox : (t.bus.sendAll t.sent).inbox =
      (t.network.send (t.bus.accepted t.sent)).inbox := by
    funext b
    exact MessageBus.inbox_sendAll b t.sent t.bus
  unfold network
  rw [hinbox]
  exact hlost

/-- A round of a dispatch loop is a delivery from the front. -/
theorem reaches_dispatch {a : NodeId} {env : Env} {t : Turn NodeId Node Payload}
    (h : s.turn act faulty (.dispatch a env) = some t) :
    Reaches (Network.step act faulty) s.network (t.network.send t.sent) := by
  obtain ⟨m, q, hq, -, hbus, hcases⟩ := turn_dispatch h
  have hremove : s.network.remove a 0 = { nodes := s.nodes, inbox := t.bus.inbox } := by
    rw [hbus]
    show (⟨s.nodes, Function.update s.bus.inbox a ((s.bus.inbox a).eraseIdx 0)⟩ :
      Network NodeId Node Payload) = _
    congr 1
    funext b
    rw [MessageBus.inbox_set, hq]
    by_cases hb : a = b
    · subst hb
      simp
    · simp [hb, Ne.symm hb]
  have hfront : (s.network.inbox a)[0]? = some m := by
    show (s.bus.inbox a)[0]? = some m
    rw [hq]
    rfl
  refine .single (e := .deliver a 0 env) ?_
  unfold Turn.network
  simp only [Network.step, hfront, hremove]
  rcases hcases with ⟨ha, hnodes, hsent⟩ | ⟨ha, hnodes, hsent⟩
  · -- a faulty node takes the message and does nothing
    rw [if_pos ha, hnodes, hsent, send_nil]
  · rw [if_neg ha, hnodes, hsent]
    rfl

/-- Up to its `send`s an event is a step of the network, or nothing that it sees. -/
theorem reaches_turn {t : Turn NodeId Node Payload} (h : s.turn act faulty e = some t) :
    Reaches (Network.step act faulty) s.network (t.network.send t.sent) := by
  cases e with
  | registerNode a =>
    cases h
    have hinbox : (s.bus.registerNode a).inbox = s.bus.inbox :=
      funext fun b => MessageBus.inbox_registerNode a b s.bus
    rw [send_nil, Turn.network, hinbox]
    exact .refl _ _
  | partitionNodes nodeIds | healPartition =>
    cases h
    rw [send_nil]
    exact .refl _ _
  | call a c =>
    obtain ⟨ha, rfl⟩ := turn_call h
    exact .single (e := .call a c) (by rw [Network.step, if_neg ha]; rfl)
  | dispatch a env => exact reaches_dispatch h
  | forge m =>
    obtain ⟨hm, rfl⟩ := turn_forge h
    exact .single (e := .forge m) (by rw [Network.step, if_pos hm]; rfl)

/-- **Nodes on a bus are nodes on a network.** Each step of theirs is matched by steps in which the
network delivers the same message and loses what the bus refuses. -/
theorem bus_simulates : Simulation (step act faulty) (Network.step act faulty)
    fun (s : BusSystem NodeId Node Payload) t => t = s.network := by
  rintro s e s' _ rfl h
  obtain ⟨t, ht, rfl, -⟩ := step_eq_some h
  exact ⟨_, (reaches_turn ht).trans (reaches_sendAll t), rfl⟩

end BusSystem

end Communication
