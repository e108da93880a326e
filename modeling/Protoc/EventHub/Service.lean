import Protoc.Lib.Replace
import Protoc.Lib.Run

/-!
# The event hub

The event hub is a service.  Senders and receivers tell it by messages who they are, and an event
of a sender is passed on to its receivers.

The functions of the API allocate a node and send it in a message to the task of the event hub.
The task takes one message after the other: the service handles it, and then the framework frees
the node, unless the service has set the length of the message to 0 because its list refers to the
node.  `MEM_Malloc` gives every node a block of its own.  The messages are those that reached the
queue.
-/

namespace Protoc.EventHub

open Protoc.Lib

/-! ## Messages -/

abbrev Block := ℕ

/-- A `pHandle`, which stands for a sender. -/
abbrev Handle := ℕ

/-- `Identity`.  The structure is packed, so equal bytes mean equal fields; `none` is a `queueId`
of `NULL`. -/
structure Identity where
  serviceId : Int16
  featureId : Int16
  queueId : Option ℕ
  deriving DecidableEq

/-- `EventHubReceiverNode`, in its block. -/
structure EventHubReceiverNode where
  block : Block
  sendIdentity : Identity
  recvIdentity : Identity
  msgId : UInt32
  deriving DecidableEq

/-- `EventHubSenderNode`, in its block. -/
structure EventHubSenderNode where
  block : Block
  handle : Handle
  sendIdentity : Identity
  deriving DecidableEq

/-- What `data` of a message points to. -/
inductive Data
  | null
  | handle (senderHandle : Handle)
  | sender (node : EventHubSenderNode)
  | receiver (node : EventHubReceiverNode)
  deriving DecidableEq

/-- The block of a node. -/
def Data.block : Data → Option Block
  | .null => none
  | .handle _ => none
  | .sender node => some node.block
  | .receiver node => some node.block

/-- `Request`. -/
structure Request where
  msgId : Int16
  len : Int16
  data : Data
  msgValue : UInt32
  deriving DecidableEq

/-- `EventHubMessage`. -/
def EVENT_HUB_MSG_ADD_SENDER : Int16 := 0
def EVENT_HUB_MSG_ADD_RECEIVER : Int16 := 1
def EVENT_HUB_MSG_SEND_EVENT : Int16 := 2

/-- `sizeof(EventHubSenderNode)`, with pointers of 4 bytes. -/
def sizeofEventHubSenderNode : Int16 := 20

/-- `sizeof(EventHubReceiverNode)`, with pointers of 4 bytes. -/
def sizeofEventHubReceiverNode : Int16 := 28

/-! ## The service -/

/-- `EventHubService`. -/
structure EventHubService where
  senderList : List EventHubSenderNode
  receiverList : List EventHubReceiverNode
  deriving DecidableEq

/-- The conversion of a `uint32` to an `int16`. -/
def toInt16 (n : UInt32) : Int16 := n.toUInt16.toInt16

/-- `EventHub_FireEvents`: the requests that are sent, with their receivers. -/
def fireEvents (eventHub : EventHubService) (senderHandle : Handle) (msgId : UInt32) :
    List (Identity × Request) :=
  if eventHub.receiverList = [] then []
  else
    match eventHub.senderList.find? fun item => decide (item.handle = senderHandle) with
    | none => []
    | some item => (eventHub.receiverList.filter fun r_item =>
          decide (item.sendIdentity = r_item.sendIdentity)).map fun r_item =>
        (r_item.recvIdentity, ⟨toInt16 r_item.msgId, 0, .null, msgId⟩)

/-- By what `EventHub_UpdateReceiverNode` finds a node. -/
def EventHubReceiverNode.key (node : EventHubReceiverNode) : Identity × Identity :=
  (node.recvIdentity, node.sendIdentity)

/-- `EventHub_UpdateReceiverNode`: the block that is freed, the service, and `nodeRefered`. -/
def updateReceiverNode (eventHub : EventHubService) (node : EventHubReceiverNode) :
    Option Block × EventHubService × Bool :=
  let nodeRefered := node.sendIdentity.queueId.isSome
  let r := replace EventHubReceiverNode.key nodeRefered node eventHub.receiverList
  (r.1.map EventHubReceiverNode.block, { eventHub with receiverList := r.2 }, nodeRefered)

/-- `EventHub_UpdateSenderNode`: the block that is freed, the service, and `nodeRefered`. -/
def updateSenderNode (eventHub : EventHubService) (node : EventHubSenderNode) :
    Option Block × EventHubService × Bool :=
  let nodeRefered := node.sendIdentity.queueId.isSome
  let r := replace EventHubSenderNode.handle nodeRefered node eventHub.senderList
  (r.1.map EventHubSenderNode.block, { eventHub with senderList := r.2 }, nodeRefered)

/-- What `MessageHandle` does: the blocks it frees, the requests it sends, and what it leaves of
the service and of the message. -/
structure Handled where
  freed : List Block
  sent : List (Identity × Request)
  eventHub : EventHubService
  msg : Request

/-- `MessageHandle`.  No message has other data than its `msgId` says. -/
def messageHandle (eventHub : EventHubService) (msg : Request) : Handled :=
  if msg.msgId = EVENT_HUB_MSG_SEND_EVENT then
    match msg.data with
    | .handle senderHandle => ⟨[], fireEvents eventHub senderHandle msg.msgValue, eventHub, msg⟩
    | _ => ⟨[], [], eventHub, msg⟩
  else if msg.msgId = EVENT_HUB_MSG_ADD_SENDER then
    match msg.data with
    | .sender node =>
      let r := updateSenderNode eventHub node
      ⟨r.1.toList, [], r.2.1, if r.2.2 then { msg with len := 0 } else msg⟩
    | _ => ⟨[], [], eventHub, msg⟩
  else if msg.msgId = EVENT_HUB_MSG_ADD_RECEIVER then
    match msg.data with
    | .receiver node =>
      let r := updateReceiverNode eventHub node
      ⟨r.1.toList, [], r.2.1, if r.2.2 then { msg with len := 0 } else msg⟩
    | _ => ⟨[], [], eventHub, msg⟩
  else ⟨[], [], eventHub, msg⟩

/-- `SAMGR_FreeMsg`, for a message that is not shared and has no response: the block it frees. -/
def freeMsg (request : Request) : Option Block :=
  if 0 < request.len then request.data.block else none

/-! ## The API and the task -/

/-- The queue of the task, and the books: the next block, the blocks that were freed, and the
messages that were handled and the requests that were sent, newest first. -/
structure HubState where
  eventHub : EventHubService
  queue : List Request
  nextBlock : Block
  freed : List Block
  handled : List Request
  sent : List (List (Identity × Request))
  deriving DecidableEq

/-- After `Initialize`. -/
def init : HubState := ⟨⟨[], []⟩, [], 0, [], [], []⟩

/-- A call of the API, or the task takes a message. -/
inductive Action
  | sendEvent (senderHandle : Handle) (msgValue : UInt32)
  | listenToEvent (senderId receiverId : Identity) (msgId : UInt32)
  | addSender (senderId : Identity) (senderHandle : Handle)
  | handle
  deriving DecidableEq

/-- The message of `EventHub_SendEvent`. -/
def sendEventRequest (senderHandle : Handle) (msgValue : UInt32) : Request :=
  ⟨EVENT_HUB_MSG_SEND_EVENT, 0, .handle senderHandle, msgValue⟩

/-- The message of `EventHub_ListenToEvent`. -/
def listenToEventRequest (node : EventHubReceiverNode) : Request :=
  ⟨EVENT_HUB_MSG_ADD_RECEIVER, sizeofEventHubReceiverNode, .receiver node, 0⟩

/-- The message of `EventHub_AddSender`. -/
def addSenderRequest (node : EventHubSenderNode) : Request :=
  ⟨EVENT_HUB_MSG_ADD_SENDER, sizeofEventHubSenderNode, .sender node, 0⟩

/-- The service handles a message, and the framework frees it. -/
def handleMsg (s : HubState) (msg : Request) : HubState :=
  let r := messageHandle s.eventHub msg
  { s with
    eventHub := r.eventHub
    freed := s.freed ++ r.freed ++ (freeMsg r.msg).toList
    handled := msg :: s.handled
    sent := r.sent :: s.sent }

def step (s : HubState) : Action → Option HubState
  | .sendEvent senderHandle msgValue =>
    some { s with queue := s.queue ++ [sendEventRequest senderHandle msgValue] }
  | .listenToEvent senderId receiverId msgId =>
    some { s with
      queue := s.queue ++ [listenToEventRequest ⟨s.nextBlock, senderId, receiverId, msgId⟩]
      nextBlock := s.nextBlock + 1 }
  | .addSender senderId senderHandle =>
    some { s with
      queue := s.queue ++ [addSenderRequest ⟨s.nextBlock, senderHandle, senderId⟩]
      nextBlock := s.nextBlock + 1 }
  | .handle =>
    match s.queue with
    | [] => none
    | msg :: queue => some (handleMsg { s with queue := queue } msg)

end Protoc.EventHub
