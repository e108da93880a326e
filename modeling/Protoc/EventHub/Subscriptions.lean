import Protoc.EventHub.Service

/-!
# Subscriptions

The lists of the event hub say what the messages said that were handled.  There is one node for
each receiver and sender, and one for each handle; every node is in the queue, in a list, or
freed.

A receiver may ask for any `uint32` as the `msgId` of its requests, but a request has an `int16`.
A node with a `queueId` of `NULL` takes no other node out, since no node in the list has such an
identity.
-/

namespace Protoc.EventHub

open Protoc.Lib EventHubReceiverNode

/-! ## What the messages said -/

/-- The identity that a handle stands for, by messages with the newest first. -/
def senderOf (senderHandle : Handle) : List Request → Option Identity
  | [] => none
  | msg :: earlier =>
    match msg.data with
    | .sender node =>
      if node.handle = senderHandle then
        if node.sendIdentity.queueId.isSome then some node.sendIdentity else none
      else senderOf senderHandle earlier
    | _ => senderOf senderHandle earlier

/-- The `msgId` that a receiver wants for the events of a sender. -/
def subscription (recvIdentity sendIdentity : Identity) : List Request → Option UInt32
  | [] => none
  | msg :: earlier =>
    match msg.data with
    | .receiver node =>
      if node.key = (recvIdentity, sendIdentity) then
        if node.sendIdentity.queueId.isSome then some node.msgId else none
      else subscription recvIdentity sendIdentity earlier
    | _ => subscription recvIdentity sendIdentity earlier

/-- A message that a function of the API sends. -/
inductive FromApi : Request → Prop
  | sendEvent (senderHandle : Handle) (msgValue : UInt32) :
      FromApi (sendEventRequest senderHandle msgValue)
  | listenToEvent (node : EventHubReceiverNode) : FromApi (listenToEventRequest node)
  | addSender (node : EventHubSenderNode) : FromApi (addSenderRequest node)

def HubState.blocks (s : HubState) : List Block :=
  s.queue.filterMap (fun msg => msg.data.block) ++
    s.eventHub.senderList.map EventHubSenderNode.block ++
    s.eventHub.receiverList.map EventHubReceiverNode.block ++ s.freed

/-- The invariant. -/
structure Inv (s : HubState) : Prop where
  fromApi : ∀ msg ∈ s.queue, FromApi msg
  senders : (s.eventHub.senderList.map EventHubSenderNode.handle).Nodup
  receivers : (s.eventHub.receiverList.map EventHubReceiverNode.key).Nodup
  senderOf : ∀ senderHandle sendIdentity, senderOf senderHandle s.handled = some sendIdentity ↔
      ∃ node ∈ s.eventHub.senderList, node.handle = senderHandle ∧ node.sendIdentity = sendIdentity
  subscription : ∀ recvIdentity sendIdentity msgId,
    subscription recvIdentity sendIdentity s.handled = some msgId ↔
      ∃ node ∈ s.eventHub.receiverList, node.key = (recvIdentity, sendIdentity) ∧ node.msgId = msgId
  hasQueue : ∀ node ∈ s.eventHub.receiverList, node.sendIdentity.queueId.isSome = true
  owned : s.blocks.Perm (List.range s.nextBlock)

theorem inv_init : Inv init where
  fromApi := fun _ hmsg => absurd hmsg List.not_mem_nil
  senders := List.nodup_nil
  receivers := List.nodup_nil
  senderOf := by
    intro senderHandle sendIdentity
    constructor
    · intro h
      cases h
    · rintro ⟨node, hnode, -⟩
      exact absurd hnode List.not_mem_nil
  subscription := by
    intro recvIdentity sendIdentity msgId
    constructor
    · intro h
      cases h
    · rintro ⟨node, hnode, -⟩
      exact absurd hnode List.not_mem_nil
  hasQueue := fun _ hnode => absurd hnode List.not_mem_nil
  owned := .nil

/-! ## Handling a message -/

section
variable {s s' : HubState}

theorem handleMsg_sendEvent (s : HubState) (senderHandle : Handle) (msgValue : UInt32) :
    handleMsg s (sendEventRequest senderHandle msgValue) = { s with
      freed := s.freed ++ [] ++ []
      handled := sendEventRequest senderHandle msgValue :: s.handled
      sent := fireEvents s.eventHub senderHandle msgValue :: s.sent } := rfl

theorem handleMsg_addSender (s : HubState) (node : EventHubSenderNode) :
    handleMsg s (addSenderRequest node) = { s with
      eventHub := (updateSenderNode s.eventHub node).2.1
      freed := s.freed ++ (updateSenderNode s.eventHub node).1.toList ++
        if node.sendIdentity.queueId.isSome then [] else [node.block]
      handled := addSenderRequest node :: s.handled
      sent := [] :: s.sent } := by
  have hfreed : (freeMsg (if node.sendIdentity.queueId.isSome then
      { addSenderRequest node with len := 0 } else addSenderRequest node)).toList =
      if node.sendIdentity.queueId.isSome then [] else [node.block] := by
    cases node.sendIdentity.queueId <;> rfl
  rw [← hfreed]
  rfl

theorem handleMsg_listenToEvent (s : HubState) (node : EventHubReceiverNode) :
    handleMsg s (listenToEventRequest node) = { s with
      eventHub := (updateReceiverNode s.eventHub node).2.1
      freed := s.freed ++ (updateReceiverNode s.eventHub node).1.toList ++
        if node.sendIdentity.queueId.isSome then [] else [node.block]
      handled := listenToEventRequest node :: s.handled
      sent := [] :: s.sent } := by
  have hfreed : (freeMsg (if node.sendIdentity.queueId.isSome then
      { listenToEventRequest node with len := 0 } else listenToEventRequest node)).toList =
      if node.sendIdentity.queueId.isSome then [] else [node.block] := by
    cases node.sendIdentity.queueId <;> rfl
  rw [← hfreed]
  rfl

theorem inv_enqueue {msg : Request} {nextBlock : Block} (hi : Inv s) (hmsg : FromApi msg)
    (hblock : (msg.data.block = none ∧ nextBlock = s.nextBlock) ∨
      (msg.data.block = some s.nextBlock ∧ nextBlock = s.nextBlock + 1)) :
    Inv { s with queue := s.queue ++ [msg], nextBlock := nextBlock } where
  fromApi := by
    intro m hm
    rcases List.mem_append.mp hm with hm | hm
    · exact hi.fromApi m hm
    · rw [List.mem_singleton] at hm
      exact hm ▸ hmsg
  senders := hi.senders
  receivers := hi.receivers
  senderOf := hi.senderOf
  subscription := hi.subscription
  hasQueue := hi.hasQueue
  owned := by
    have howned := hi.owned
    rw [List.perm_iff_count] at howned ⊢
    intro b
    have hcount := howned b
    simp only [HubState.blocks, List.count_append, List.filterMap_append] at hcount ⊢
    rcases hblock with ⟨hnone, rfl⟩ | ⟨hsome, rfl⟩
    · have hlast : [msg].filterMap (fun msg => msg.data.block) = [] :=
        List.filterMap_cons_none hnone
      rw [hlast, List.count_nil]
      omega
    · have hlast : [msg].filterMap (fun msg => msg.data.block) = [s.nextBlock] :=
        List.filterMap_cons_some hsome
      rw [hlast, List.range_succ, List.count_append]
      omega

variable {queue : List Request}

theorem inv_addSender {node : EventHubSenderNode}
    (hqueue : s.queue = addSenderRequest node :: queue) (hi : Inv s) :
    Inv (handleMsg { s with queue := queue } (addSenderRequest node)) := by
  have hfrom := hi.fromApi
  have howned := hi.owned
  rw [hqueue, List.forall_mem_cons] at hfrom
  rw [handleMsg_addSender]
  refine ⟨hfrom.2, nodup_replace hi.senders, hi.receivers, ?_, hi.subscription, hi.hasQueue, ?_⟩
  · intro senderHandle sendIdentity
    rw [EventHub.senderOf]
    exact lookup_replace hi.senders EventHubSenderNode.sendIdentity
      (hi.senderOf senderHandle sendIdentity)
  · rw [List.perm_iff_count] at howned ⊢
    intro b
    have hcount := howned b
    have hnodes := count_replace EventHubSenderNode.block EventHubSenderNode.handle
      node.sendIdentity.queueId.isSome node s.eventHub.senderList b
    have hhead : (addSenderRequest node :: queue).filterMap (fun msg => msg.data.block) =
        [node.block] ++ queue.filterMap fun msg => msg.data.block :=
      List.filterMap_cons_some rfl
    simp only [HubState.blocks, hqueue, hhead, updateSenderNode, List.count_append] at hcount ⊢
    omega

theorem inv_listenToEvent {node : EventHubReceiverNode}
    (hqueue : s.queue = listenToEventRequest node :: queue) (hi : Inv s) :
    Inv (handleMsg { s with queue := queue } (listenToEventRequest node)) := by
  have hfrom := hi.fromApi
  have howned := hi.owned
  rw [hqueue, List.forall_mem_cons] at hfrom
  rw [handleMsg_listenToEvent]
  refine ⟨hfrom.2, hi.senders, nodup_replace hi.receivers, hi.senderOf, ?_, ?_, ?_⟩
  · intro recvIdentity sendIdentity msgId
    rw [EventHub.subscription]
    exact lookup_replace hi.receivers EventHubReceiverNode.msgId
      (hi.subscription recvIdentity sendIdentity msgId)
  · intro n hn
    rcases (mem_replace hi.receivers).mp hn with ⟨hmem, -⟩ | ⟨hkeep, rfl⟩
    · exact hi.hasQueue n hmem
    · exact hkeep
  · rw [List.perm_iff_count] at howned ⊢
    intro b
    have hcount := howned b
    have hnodes := count_replace block key
      node.sendIdentity.queueId.isSome node s.eventHub.receiverList b
    have hhead : (listenToEventRequest node :: queue).filterMap (fun msg => msg.data.block) =
        [node.block] ++ queue.filterMap fun msg => msg.data.block :=
      List.filterMap_cons_some rfl
    simp only [HubState.blocks, hqueue, hhead, updateReceiverNode, List.count_append] at hcount ⊢
    omega

variable {senderHandle : Handle}

theorem inv_sendEvent {msgValue : UInt32}
    (hqueue : s.queue = sendEventRequest senderHandle msgValue :: queue) (hi : Inv s) :
    Inv (handleMsg { s with queue := queue } (sendEventRequest senderHandle msgValue)) := by
  have hfrom := hi.fromApi
  have howned := hi.owned
  have hhead : (sendEventRequest senderHandle msgValue :: queue).filterMap
      (fun msg => msg.data.block) = queue.filterMap fun msg => msg.data.block :=
    List.filterMap_cons_none rfl
  rw [hqueue, List.forall_mem_cons] at hfrom
  rw [HubState.blocks, hqueue, hhead] at howned
  rw [handleMsg_sendEvent, List.append_nil, List.append_nil]
  exact ⟨hfrom.2, hi.senders, hi.receivers, hi.senderOf, hi.subscription, hi.hasQueue, howned⟩

theorem inv_step (s : HubState) (a : Action) (s' : HubState) (hi : Inv s)
    (h : step s a = some s') : Inv s' := by
  cases a with
  | sendEvent senderHandle msgValue =>
    cases h
    exact inv_enqueue hi (.sendEvent senderHandle msgValue) (.inl ⟨rfl, rfl⟩)
  | listenToEvent senderId receiverId msgId =>
    cases h
    exact inv_enqueue hi (.listenToEvent _) (.inr ⟨rfl, rfl⟩)
  | addSender senderId senderHandle =>
    cases h
    exact inv_enqueue hi (.addSender _) (.inr ⟨rfl, rfl⟩)
  | handle =>
    rw [step] at h
    cases hqueue : s.queue with
    | nil =>
      rw [hqueue] at h
      cases h
    | cons msg queue =>
      rw [hqueue] at h
      cases h
      have hmsg := hi.fromApi msg (hqueue ▸ List.mem_cons_self)
      cases hmsg with
      | sendEvent senderHandle msgValue => exact inv_sendEvent hqueue hi
      | listenToEvent node => exact inv_listenToEvent hqueue hi
      | addSender node => exact inv_addSender hqueue hi

/-! ## Events -/

/-- `msgId` fits into the `int16` of a request. -/
def Fits (msgId : UInt32) : Prop := msgId.toNat < 0x8000

instance (msgId : UInt32) : Decidable (Fits msgId) := inferInstanceAs (Decidable (_ < _))

theorem toInt_toInt16 {msgId : UInt32} (h : Fits msgId) : (toInt16 msgId).toInt = msgId.toNat := by
  have hlt : msgId.toNat < 0x8000 := h
  have hnat : msgId.toUInt16.toBitVec.toNat = msgId.toNat := by
    rw [UInt16.toNat_toBitVec, UInt32.toNat_toUInt16]
    omega
  have hint : (toInt16 msgId).toInt = msgId.toUInt16.toBitVec.toInt := rfl
  rw [hint, BitVec.toInt_eq_toNat_of_lt (by omega), hnat]

/-- The request has the `msgId` of the receiver and the value of the event. -/
def Carries (request : Request) (msgId msgValue : UInt32) : Prop :=
  request.msgId.toInt = msgId.toNat ∧ request.msgValue = msgValue

/-- The requests that an event of a sender should send: one to every receiver of it. -/
structure Delivers (handled : List Request) (senderHandle : Handle) (msgValue : UInt32)
    (sent : List (Identity × Request)) : Prop where
  once : (sent.map Prod.fst).Nodup
  sound : ∀ recvIdentity request, (recvIdentity, request) ∈ sent →
    ∃ sendIdentity msgId, senderOf senderHandle handled = some sendIdentity ∧
      subscription recvIdentity sendIdentity handled = some msgId ∧ Carries request msgId msgValue
  complete : ∀ recvIdentity sendIdentity msgId, senderOf senderHandle handled = some sendIdentity →
    subscription recvIdentity sendIdentity handled = some msgId →
      ∃ request, (recvIdentity, request) ∈ sent ∧ Carries request msgId msgValue

def receiversOf (eventHub : EventHubService) (sendIdentity : Identity) : List EventHubReceiverNode :=
  eventHub.receiverList.filter fun r_item => decide (sendIdentity = r_item.sendIdentity)

theorem fireEvents_eq (hi : Inv s) {sendIdentity : Identity}
    (h : senderOf senderHandle s.handled = some sendIdentity) (msgValue : UInt32) :
    fireEvents s.eventHub senderHandle msgValue = (receiversOf s.eventHub sendIdentity).map fun r_item =>
        (r_item.recvIdentity, ⟨toInt16 r_item.msgId, 0, .null, msgValue⟩) := by
  rw [fireEvents]
  split
  · rename_i hnil
    rw [receiversOf, hnil]
    rfl
  · obtain ⟨node, hnode, hhandle, hidentity⟩ := (hi.senderOf _ _).mp h
    cases hfind : s.eventHub.senderList.find? fun item => decide (item.handle = senderHandle) with
    | none => exact absurd (decide_eq_true hhandle) (List.find?_eq_none.mp hfind node hnode)
    | some item =>
      have hitem : item.sendIdentity = sendIdentity := by
        have hmem := List.mem_of_find?_eq_some hfind
        have hsame : item.handle = senderHandle := by simpa using List.find?_some hfind
        have hother := (hi.senderOf senderHandle item.sendIdentity).mpr ⟨item, hmem, hsame, rfl⟩
        exact Option.some.inj (hother.symm.trans h)
      simp only [hitem]
      rfl

theorem fireEvents_none (hi : Inv s) (h : senderOf senderHandle s.handled = none) (msgValue : UInt32) :
    fireEvents s.eventHub senderHandle msgValue = [] := by
  rw [fireEvents]
  split
  · rfl
  · cases hfind : s.eventHub.senderList.find? fun item => decide (item.handle = senderHandle) with
    | none => rfl
    | some item =>
      have hmem := List.mem_of_find?_eq_some hfind
      have hsame : item.handle = senderHandle := by simpa using List.find?_some hfind
      have hsome := (hi.senderOf senderHandle item.sendIdentity).mpr ⟨item, hmem, hsame, rfl⟩
      exact absurd (h.symm.trans hsome) (Option.some_ne_none _).symm

theorem fireEvents_delivers (hi : Inv s) (hfits : ∀ node ∈ s.eventHub.receiverList, Fits node.msgId)
    (senderHandle : Handle) (msgValue : UInt32) :
    Delivers s.handled senderHandle msgValue (fireEvents s.eventHub senderHandle msgValue) := by
  cases hsender : senderOf senderHandle s.handled with
  | none =>
    rw [fireEvents_none hi hsender]
    refine ⟨List.nodup_nil, fun _ _ h => absurd h List.not_mem_nil, ?_⟩
    intro _ _ _ h
    exact absurd (hsender.symm.trans h) (Option.some_ne_none _).symm
  | some sendIdentity =>
    rw [fireEvents_eq hi hsender]
    refine ⟨?_, ?_, ?_⟩
    · have hkeys : ((receiversOf s.eventHub sendIdentity).map key).Nodup :=
        hi.receivers.sublist (List.filter_sublist.map _)
      have hsame : (receiversOf s.eventHub sendIdentity).map key =
          ((receiversOf s.eventHub sendIdentity).map recvIdentity).map
            fun recvIdentity => (recvIdentity, sendIdentity) := by
        rw [List.map_map]
        refine List.map_congr_left ?_
        intro node hnode
        have hsend := of_decide_eq_true (List.mem_filter.mp hnode).2
        rw [key, ← hsend]
        rfl
      rw [List.map_map]
      rw [hsame] at hkeys
      exact hkeys.of_map
    · intro recvIdentity request hmem
      obtain ⟨node, hnode, heq⟩ := List.mem_map.mp hmem
      obtain ⟨hnode, hsend⟩ := List.mem_filter.mp hnode
      cases heq
      refine ⟨sendIdentity, node.msgId, hsender, (hi.subscription _ _ _).mpr
        ⟨node, hnode, ?_, rfl⟩, toInt_toInt16 (hfits node hnode), rfl⟩
      rw [key, of_decide_eq_true hsend]
    · intro recvIdentity sendIdentity' msgId hsender' hsubscription
      cases hsender.symm.trans hsender'
      obtain ⟨node, hnode, hkey, hmsgId⟩ := (hi.subscription _ _ _).mp hsubscription
      obtain ⟨hrecv, hsend⟩ := Prod.mk.inj hkey
      refine ⟨⟨toInt16 node.msgId, 0, .null, msgValue⟩, List.mem_map.mpr ⟨node, ?_, ?_⟩, ?_⟩
      · exact List.mem_filter.mpr ⟨hnode, decide_eq_true hsend.symm⟩
      · rw [hrecv]
      · exact ⟨hmsgId ▸ toInt_toInt16 (hfits node hnode), rfl⟩

/-! ## Whole runs -/

/-- A receiver asks for a `msgId` that fits. -/
def MsgIdFits (_ : HubState) : Action → Prop
  | .listenToEvent _ _ msgId => Fits msgId
  | .sendEvent _ _ => True
  | .addSender _ _ => True
  | .handle => True

instance (s : HubState) : (a : Action) → Decidable (MsgIdFits s a)
  | .listenToEvent _ _ msgId => inferInstanceAs (Decidable (Fits msgId))
  | .sendEvent _ _ => inferInstanceAs (Decidable True)
  | .addSender _ _ => inferInstanceAs (Decidable True)
  | .handle => inferInstanceAs (Decidable True)

/-- Every `msgId` in the queue and in the list fits. -/
structure AllFit (s : HubState) : Prop where
  queue : ∀ msg ∈ s.queue, ∀ node, msg.data = .receiver node → Fits node.msgId
  receivers : ∀ node ∈ s.eventHub.receiverList, Fits node.msgId

theorem allFit_enqueue {msg : Request} {nextBlock : Block} (hfit : AllFit s)
    (hmsg : ∀ node, msg.data = .receiver node → Fits node.msgId) :
    AllFit { s with queue := s.queue ++ [msg], nextBlock := nextBlock } where
  queue := by
    intro m hm
    rcases List.mem_append.mp hm with hm | hm
    · exact hfit.queue m hm
    · rw [List.mem_singleton] at hm
      exact hm ▸ hmsg
  receivers := hfit.receivers

theorem allFit_step {a : Action} (hi : Inv s) (hfit : AllFit s) (hok : MsgIdFits s a)
    (h : step s a = some s') : AllFit s' := by
  cases a with
  | sendEvent senderHandle msgValue =>
    cases h
    exact allFit_enqueue hfit fun _ hdata => by cases hdata
  | listenToEvent senderId receiverId msgId =>
    cases h
    refine allFit_enqueue hfit ?_
    intro node hdata
    cases hdata
    exact hok
  | addSender senderId senderHandle =>
    cases h
    exact allFit_enqueue hfit fun _ hdata => by cases hdata
  | handle =>
    rw [step] at h
    cases hqueue : s.queue with
    | nil =>
      rw [hqueue] at h
      cases h
    | cons msg queue =>
      rw [hqueue] at h
      cases h
      have hmsg := hi.fromApi msg (hqueue ▸ List.mem_cons_self)
      have hqueues := hfit.queue
      rw [hqueue, List.forall_mem_cons] at hqueues
      cases hmsg with
      | sendEvent senderHandle msgValue => exact ⟨hqueues.2, hfit.receivers⟩
      | addSender node => exact ⟨hqueues.2, hfit.receivers⟩
      | listenToEvent node =>
        refine ⟨hqueues.2, ?_⟩
        intro n hn
        rcases (mem_replace hi.receivers).mp hn with ⟨hmem, -⟩ | ⟨-, rfl⟩
        · exact hfit.receivers n hmem
        · exact hqueues.1 n rfl

/-- What the event hub promises.  Every block belongs to a message in the queue, to a list, or was
freed, and to one of them. -/
structure Correct (s : HubState) : Prop where
  senders : (s.eventHub.senderList.map EventHubSenderNode.handle).Nodup
  receivers : (s.eventHub.receiverList.map EventHubReceiverNode.key).Nodup
  delivers : ∀ senderHandle msgValue, Delivers s.handled senderHandle msgValue
    (messageHandle s.eventHub (sendEventRequest senderHandle msgValue)).sent
  owned : s.blocks.Perm (List.range s.nextBlock)

/-- **The event hub**, in every run in which every `msgId` fits. -/
theorem hub_correct {as : List Action} (run : Runs step MsgIdFits init as s) : Correct s := by
  have hboth : Inv s ∧ AllFit s := by
    refine run.invariant (P := fun s => Inv s ∧ AllFit s) ?_
      ⟨inv_init, nofun, nofun⟩
    intro s a s' hs hok h
    exact ⟨inv_step s a s' hs.1 h, allFit_step hs.1 hs.2 hok h⟩
  obtain ⟨hi, hfit⟩ := hboth
  exact ⟨hi.senders, hi.receivers, fireEvents_delivers hi hfit.receivers, hi.owned⟩

end

section
variable {s : HubState}

def someSender : Identity := ⟨3, -1, some 7⟩

def someReceiver : Identity := ⟨5, -1, some 9⟩

/-- The receiver asks for the events of the sender, and the sender sends one. -/
def subscribeAndSend (msgId : UInt32) : List Action :=
  [.listenToEvent someSender someReceiver msgId, .addSender someSender 64, .handle, .handle,
    .sendEvent 64 11, .handle]

/-- The promise holds after an event was sent on. -/
theorem hub_correct_subscribed : ∃ s, Runs step MsgIdFits init (subscribeAndSend 2) s ∧ Correct s ∧
      s.sent.head? = some [(someReceiver, ⟨2, 0, .null, 11⟩)] := by
  obtain ⟨s, hs⟩ : ∃ s, execOk step MsgIdFits init (subscribeAndSend 2) = some s := ⟨_, rfl⟩
  have run : Runs step MsgIdFits init (subscribeAndSend 2) s := runs_of_execOk hs
  refine ⟨s, run, hub_correct run, ?_⟩
  cases hs
  decide

/-- A `msgId` of 65536 becomes 0. -/
theorem not_hub_correct : ¬ ∀ (as : List Action) (s : HubState),
    Runs step AnyStep init as s → Correct s := by
  intro hall
  obtain ⟨s, hs⟩ : ∃ s, execOk step AnyStep init (subscribeAndSend 65536) = some s := ⟨_, rfl⟩
  have hcorrect := hall _ s (runs_of_execOk hs)
  cases hs
  obtain ⟨request, hmem, hmsgId, -⟩ :=
    (hcorrect.delivers 64 11).complete someReceiver someSender 65536 (by decide) (by decide)
  have hsent : (someReceiver, request) = (someReceiver, ⟨0, 0, .null, 11⟩) :=
    List.mem_singleton.mp hmem
  cases hsent
  exact absurd hmsgId (by decide)

/-! ## Unsubscribing -/

/-- The node is for the receiver, and for the service and feature of the sender. -/
def EventHubReceiverNode.IsFor (node : EventHubReceiverNode) (recvIdentity sendIdentity : Identity) : Prop :=
  node.recvIdentity = recvIdentity ∧ node.sendIdentity.serviceId = sendIdentity.serviceId ∧
    node.sendIdentity.featureId = sendIdentity.featureId

def Unsubscribed (eventHub : EventHubService) (recvIdentity sendIdentity : Identity) : Prop :=
  ∀ node ∈ eventHub.receiverList, ¬ node.IsFor recvIdentity sendIdentity

theorem updateReceiverNode_null (hi : Inv s) {node : EventHubReceiverNode}
    (hnull : node.sendIdentity.queueId = none) : (updateReceiverNode s.eventHub node).2.1 = s.eventHub := by
  have hother : ∀ n ∈ s.eventHub.receiverList, ¬ decide (n.key = node.key) = true := by
    intro n hn hkey
    have hqueue := hi.hasQueue n hn
    rw [(Prod.mk.inj (of_decide_eq_true hkey)).2, hnull] at hqueue
    exact absurd hqueue Bool.false_ne_true
  rw [updateReceiverNode, replace, hnull]
  simp only [Option.isSome_none, Bool.false_eq_true, if_false]
  rw [List.eraseP_of_forall_not hother]

/-- **Unsubscribing** has no effect: in no reachable state does a node with a `queueId` of `NULL`
take out the node that is there for the receiver and the sender. -/
theorem unsubscribe_ineffective {as : List Action} (run : Runs step AnyStep init as s)
    {node : EventHubReceiverNode} (hnull : node.sendIdentity.queueId = none)
    (hsubscribed : ¬ Unsubscribed s.eventHub node.recvIdentity node.sendIdentity) :
    ¬ Unsubscribed (messageHandle s.eventHub (listenToEventRequest node)).eventHub
      node.recvIdentity node.sendIdentity := by
  have hi : Inv s := run.invariant_of_step inv_step inv_init
  have hsame : (messageHandle s.eventHub (listenToEventRequest node)).eventHub =
      (updateReceiverNode s.eventHub node).2.1 := rfl
  rw [hsame, updateReceiverNode_null hi hnull]
  exact hsubscribed

def unsubscribeNode : EventHubReceiverNode := ⟨2, ⟨3, -1, none⟩, someReceiver, 0⟩

theorem subscribed_run : ∃ s, Runs step AnyStep init (subscribeAndSend 2) s ∧
    s.eventHub = ⟨[⟨1, 64, someSender⟩], [⟨0, someSender, someReceiver, 2⟩]⟩ := by
  obtain ⟨s, hs⟩ : ∃ s, execOk step AnyStep init (subscribeAndSend 2) = some s := ⟨_, rfl⟩
  refine ⟨s, runs_of_execOk hs, ?_⟩
  cases hs
  rfl

theorem not_unsubscribed_receiver (senders : List EventHubSenderNode) :
    ¬ Unsubscribed ⟨senders, [⟨0, someSender, someReceiver, 2⟩]⟩ unsubscribeNode.recvIdentity
      unsubscribeNode.sendIdentity := by
  intro h
  exact h _ (List.mem_singleton.mpr rfl) ⟨rfl, rfl, rfl⟩

/-- The receiver stays subscribed. -/
theorem unsubscribe_ineffective_receiver : ∃ s, Runs step AnyStep init (subscribeAndSend 2) s ∧
      ¬ Unsubscribed (messageHandle s.eventHub (listenToEventRequest unsubscribeNode)).eventHub
        unsubscribeNode.recvIdentity unsubscribeNode.sendIdentity := by
  obtain ⟨s, run, hhub⟩ := subscribed_run
  refine ⟨s, run, unsubscribe_ineffective run rfl ?_⟩
  rw [hhub]
  exact not_unsubscribed_receiver _

/-- Unsubscribing does not take effect. -/
theorem not_unsubscribe_effective : ¬ ∀ (as : List Action) (s : HubState)
    (node : EventHubReceiverNode), Runs step AnyStep init as s →
      node.sendIdentity.queueId = none →
      ¬ Unsubscribed s.eventHub node.recvIdentity node.sendIdentity →
      Unsubscribed (messageHandle s.eventHub (listenToEventRequest node)).eventHub
        node.recvIdentity node.sendIdentity := by
  intro hall
  obtain ⟨s, run, hhub⟩ := subscribed_run
  have hafter := hall _ s unsubscribeNode run rfl (by
    rw [hhub]
    exact not_unsubscribed_receiver _)
  rw [hhub] at hafter
  exact not_unsubscribed_receiver _ hafter

end

end Protoc.EventHub
