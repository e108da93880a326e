import Protoc.Lib.Pick
import Protoc.Lib.Run

/-!
# Message payloads and their owners

A request put into a service's queue is copied there; the answer is a second copy of
the same `Exchange`, put into the requester's queue.  When there is a payload, the two
copies share a reference counter, and whoever releases the last copy with
`SAMGR_FreeMsg` frees the payloads and the counter.

The model interleaves any number of exchanges at the sections under the global lock and
at the queue operations.  A copy of an exchange is in one of the two queues or in the
hands of a thread (`Place`); it is gone once it has been released.  Every `QUEUE_Put`
and every `MEM_Malloc` may fail.  The order in which a queue hands out its messages is
left open, since nothing depends on it.

Payloads are numbered as they are handed over, so no two of them are the same block.
-/

namespace Protoc.Samgr.Message

open Protoc.Lib
open List Option

abbrev Block := ℕ

abbrev RefPtr := ℕ

/-- `data` and `len` of a `Request` or a `Response`. -/
structure Payload where
  data : Option Block
  len : ℤ
  deriving DecidableEq

/-- `{ NULL, 0 }`. -/
def Payload.null : Payload := ⟨none, 0⟩

/-- `data == NULL || len <= 0`. -/
def Payload.isEmpty (p : Payload) : Bool := p.data.isNone || decide (p.len ≤ 0)

/-- The block that `SAMGR_FreeMsg` hands to `MEM_Free`. -/
def Payload.block (p : Payload) : Option Block := if p.len > 0 then p.data else none

theorem block_of_isEmpty {p : Payload} (h : p.isEmpty = true) : p.block = none := by
  unfold Payload.isEmpty Payload.block at *
  cases hd : p.data with
  | none => simp
  | some b =>
    have hlen : p.len ≤ 0 := by simpa [hd] using h
    rw [if_neg (by omega)]

/-- The types of the exchanges that `SAMGR_SendRequest` starts. -/
inductive ExchangeType
  /-- `MSG_NON`: no answer is wanted. -/
  | MSG_NON
  /-- `MSG_CON`: an answer is wanted. -/
  | MSG_CON
  /-- `MSG_ACK`: the answer has been given. -/
  | MSG_ACK
  deriving DecidableEq

/-- `Exchange`, as far as its ownership depends on it. -/
structure Exchange where
  /-- `id.queueId != NULL`: the requester has a queue for the answer. -/
  queueId : Bool
  request : Payload
  response : Payload
  type : ExchangeType
  /-- `handler != NULL`. -/
  handler : Bool
  sharedRef : Option RefPtr
  deriving DecidableEq

/-- Where a copy of an exchange is, and what its thread does with it next. -/
inductive Place
  /-- In the queue of the service. -/
  | serviceQueue
  /-- In the queue of the requester. -/
  | requesterQueue
  /-- In `ProcRequest`. -/
  | handling
  /-- In `SharedSend`, before `QUEUE_Put`. -/
  | put
  /-- `SharedSend` has failed: the handler runs in place, `FreeReference` is next. -/
  | failed
  /-- `SAMGR_FreeMsg` is next. -/
  | release
  /-- `FreeReference` has said that this is the last copy: the counter is freed next,
  and with `payloads` what the exchange carries. -/
  | freeing (payloads : Bool)
  deriving DecidableEq

/-- A copy of an exchange. -/
structure Copy where
  exchange : Exchange
  place : Place
  deriving DecidableEq

/-- The copies there are, the reference counters (`none` once freed), and the books:
the payloads taken over, the frees of payloads and of counters, the next block. -/
structure MsgState where
  copies : List Copy
  refs : List (Option ℕ)
  owed : List Block
  freed : List Block
  freedRefs : List RefPtr
  nextBlock : Block
  deriving DecidableEq

def init : MsgState := ⟨[], [], [], [], [], 0⟩

/-! ## The operations -/

def deref (refs : List (Option ℕ)) (r : RefPtr) : Option ℕ := (refs[r]?).join

/-- `SharedSend` up to `QUEUE_Put`: the exchange, the counters, and whether the message
may be put.  `malloc` says whether the counter can be allocated. -/
def sharedSend (refs : List (Option ℕ)) (e : Exchange) (initRef : ℕ) (malloc : Bool) :
    Option (Exchange × List (Option ℕ) × Bool) :=
  if e.request.isEmpty && e.response.isEmpty && e.sharedRef.isNone then some (e, refs, true)
  else
    match e.sharedRef with
    | none =>
      if malloc then
        some ({ e with sharedRef := some refs.length }, refs ++ [some (initRef + 1)], true)
      else some (e, refs, false)
    | some r => do
        let n ← deref refs r
        some (e, refs.set r (some (n + 1)), true)

/-- The section of `FreeReference` under the lock: `needFree` and the counters. -/
def freeReference (refs : List (Option ℕ)) (sharedRef : Option RefPtr) : Option (Bool × List (Option ℕ)) :=
  match sharedRef with
  | none => some (true, refs)
  | some r => do
      let n ← deref refs r
      let n' := if n > 0 then n - 1 else n
      some (!decide (n' > 0), refs.set r (some n'))

/-- The copy at index `i` becomes `c`. -/
def MsgState.set (s : MsgState) (i : ℕ) (c : Copy) : MsgState :=
  { s with copies := s.copies.set i c }

def MsgState.take (s : MsgState) (p : Payload) : MsgState :=
  { s with owed := s.owed ++ p.block.toList, nextBlock := s.nextBlock + 1 }

@[simp] theorem take_copies (s : MsgState) (p : Payload) : (s.take p).copies = s.copies := rfl
@[simp] theorem take_refs (s : MsgState) (p : Payload) : (s.take p).refs = s.refs := rfl
@[simp] theorem take_freedRefs (s : MsgState) (p : Payload) :
    (s.take p).freedRefs = s.freedRefs := rfl

def MsgState.add (s : MsgState) (c : Copy) : MsgState := { s with copies := s.copies ++ [c] }

/-- The payload of a call, a block of its own unless it is `NULL`. -/
def MsgState.payload (s : MsgState) (null : Bool) (len : ℤ) : Payload :=
  ⟨if null then none else some s.nextBlock, len⟩

/-- `SAMGR_SendResponse` for an exchange of type `MSG_CON` with a handler, up to
`QUEUE_Put`. -/
def answer (s : MsgState) (i : ℕ) (e : Exchange) (response : Payload) (malloc : Bool) : Option MsgState :=
  let e := { e with type := .MSG_ACK, response }
  let s := s.take response
  -- without a queue the handler is called in the current task
  if !e.queueId then some (s.set i ⟨e, .handling⟩)
  else do
    match ← sharedSend s.refs e 1 malloc with
    | (e, refs, true) => some ({ s with refs }.set i ⟨e, .put⟩)
    | (e, refs, false) => some ({ s with refs }.set i ⟨e, .failed⟩)

/-- What the two sides do. -/
inductive Action
  /-- `SAMGR_SendRequest`, from a task with or without a queue of its own. -/
  | sendRequest (null : Bool) (len : ℤ) (handler currentQueue ok : Bool)
  /-- The service takes a message off its queue; `serviceImpl` may be `NULL`. -/
  | popService (i : ℕ) (serviceImpl : Bool)
  /-- The requester takes an answer off its queue and its handler runs. -/
  | popRequester (i : ℕ)
  /-- `DEFAULT_MessageHandle` calls `SAMGR_SendResponse`. -/
  | sendResponse (i : ℕ) (null : Bool) (len : ℤ) (malloc : Bool)
  /-- `DEFAULT_MessageHandle` returns. -/
  | endHandle (i : ℕ) (malloc : Bool)
  /-- `QUEUE_Put` of the answer. -/
  | put (i : ℕ) (ok : Bool)
  /-- `FreeReference` after a failed `SharedSend`. -/
  | undo (i : ℕ)
  /-- `FreeReference` in `SAMGR_FreeMsg`. -/
  | release (i : ℕ)
  /-- `MEM_Free`, of the counter and in `SAMGR_FreeMsg` of the payloads. -/
  | free (i : ℕ)
  deriving DecidableEq

def Copy.blocks (c : Copy) : List Block :=
  c.exchange.request.block.toList ++ c.exchange.response.block.toList

/-- One step of a party; `none` when it is not enabled, or reads a freed counter. -/
def step (s : MsgState) : Action → Option MsgState
  | .sendRequest null len handler currentQueue ok =>
    let request := s.payload null len
    if ok then
      let e : Exchange := ⟨handler && currentQueue, request, .null,
        if handler then .MSG_CON else .MSG_NON, handler, none⟩
      some ((s.take request).add ⟨e, .serviceQueue⟩)
    else some s
  | .popService i serviceImpl => do
      let c ← s.copies[i]?
      if c.place = .serviceQueue then
        some (s.set i { c with place := if serviceImpl then .handling else .release })
      else none
  | .popRequester i => do
      let c ← s.copies[i]?
      if c.place = .requesterQueue then some (s.set i { c with place := .release }) else none
  | .sendResponse i null len malloc => do
      let c ← s.copies[i]?
      if c.place = .handling then
        if c.exchange.type ≠ .MSG_CON then some s
        else if !c.exchange.handler then some s
        else answer s i c.exchange (s.payload null len) malloc
      else none
  | .endHandle i malloc => do
      let c ← s.copies[i]?
      if c.place = .handling then
        -- the implicit answer passes the response that has just been cleared
        if c.exchange.type = .MSG_CON && c.exchange.handler then answer s i c.exchange .null malloc
        else some (s.set i { c with place := .release })
      else none
  | .put i ok => do
      let c ← s.copies[i]?
      if c.place = .put then
        if ok then
          some ((s.set i { c with place := .handling }).add { c with place := .requesterQueue })
        else some (s.set i { c with place := .failed })
      else none
  | .undo i => do
      let c ← s.copies[i]?
      if c.place = .failed then
        let (needFree, refs) ← freeReference s.refs c.exchange.sharedRef
        some ({ s with refs }.set i { c with place := if needFree then .freeing false else .handling })
      else none
  | .release i => do
      let c ← s.copies[i]?
      if c.place = .release then
        let (needFree, refs) ← freeReference s.refs c.exchange.sharedRef
        if needFree then some ({ s with refs }.set i { c with place := .freeing true })
        else some { s with refs, copies := s.copies.eraseIdx i }
      else none
  | .free i => do
      let c ← s.copies[i]?
      match c.place with
      | .freeing payloads =>
        let s := match c.exchange.sharedRef with
          | some r => { s with refs := s.refs.set r none, freedRefs := s.freedRefs ++ [r] }
          | none => s
        if payloads then
          some { s with freed := s.freed ++ c.blocks, copies := s.copies.eraseIdx i }
        else
          some (s.set i ⟨{ c.exchange with sharedRef := none }, .handling⟩)
      | _ => none

/-! ## The invariant -/

/-- How much of its counter a copy stands for.  Between the increment and `QUEUE_Put`
it stands for the copy to be put as well. -/
def Place.weight : Place → ℕ
  | .put => 2
  | .failed => 2
  | .freeing _ => 0
  | _ => 1

/-- What a copy contributes to the counter at `r`. -/
def weight (r : RefPtr) (c : Copy) : ℕ :=
  if c.exchange.sharedRef = some r then c.place.weight else 0

def holds (copies : List Copy) (b : Block) : Bool := copies.any fun c => decide (b ∈ c.blocks)

def refers (copies : List Copy) (r : RefPtr) : Bool :=
  copies.any fun c => decide (c.exchange.sharedRef = some r)

/-- What holds of every copy by itself. -/
structure CopyOk (c : Copy) : Prop where
  nodup : c.blocks.Nodup
  /-- Before the answer there is one copy, so no counter. -/
  unshared : c.exchange.type ≠ .MSG_ACK → c.exchange.sharedRef = none
  unanswered : c.exchange.type ≠ .MSG_ACK → c.exchange.response = .null
  /-- Only an exchange without payload is put without a counter. -/
  direct : c.place = .put → c.exchange.sharedRef = none → c.blocks = []
  /-- `FreeReference` frees a counter after a failed `SharedSend` only if there is none. -/
  undone : c.place = .freeing false → c.exchange.sharedRef = none

/-- Two copies lead to a common block only if they share its counter; copies that share
a counter carry the same payloads, and neither has found itself to be the last. -/
def Together (c d : Copy) : Prop :=
  (∀ b ∈ c.blocks, b ∈ d.blocks →
    c.exchange.sharedRef ≠ none ∧ c.exchange.sharedRef = d.exchange.sharedRef) ∧
  (∀ r, c.exchange.sharedRef = some r → d.exchange.sharedRef = some r →
    c.blocks = d.blocks ∧ c.place.weight ≠ 0 ∧ d.place.weight ≠ 0)

theorem Together.symm {c d : Copy} (h : Together c d) : Together d c := by
  refine ⟨fun b hd hc => ?_, fun r hd hc => ?_⟩
  · obtain ⟨hne, heq⟩ := h.1 b hc hd
    exact ⟨heq ▸ hne, heq.symm⟩
  · obtain ⟨hb, hwc, hwd⟩ := h.2 r hc hd
    exact ⟨hb.symm, hwd, hwc⟩

/-- Every counter counts the copies that share it, and the books are right: a payload
taken over has been freed or some copy leads to it, and the same for the counters. -/
structure Inv (s : MsgState) : Prop where
  ok : ∀ c ∈ s.copies, CopyOk c
  together : s.copies.Pairwise Together
  counted : ∀ r n, deref s.refs r = some n → n = (s.copies.map (weight r)).sum
  live : ∀ r, refers s.copies r = true ↔ ∃ n, deref s.refs r = some n
  owed_once : s.owed.Nodup
  fresh : ∀ b ∈ s.owed, b < s.nextBlock
  payloads : ∀ b, s.freed.count b + (holds s.copies b).toNat = s.owed.count b
  counters : ∀ r, s.freedRefs.count r + (refers s.copies r).toNat =
    (decide (r < s.refs.length)).toNat

theorem inv_init : Inv init := by
  constructor <;> simp [init, deref, refers, holds]

theorem deref_lt {refs : List (Option ℕ)} {r : RefPtr} {n : ℕ} (h : deref refs r = some n) :
    r < refs.length := by
  by_contra hge
  simp [deref, List.getElem?_eq_none (Nat.le_of_not_lt hge)] at h

theorem deref_set {refs : List (Option ℕ)} {r : RefPtr} (h : r < refs.length) (cell : Option ℕ)
    (q : RefPtr) : deref (refs.set r cell) q = if r = q then cell else deref refs q := by
  unfold deref
  by_cases hq : r = q
  · subst hq
    simp [h]
  · simp [List.getElem?_set_ne hq, hq]

theorem deref_append (refs : List (Option ℕ)) (n : ℕ) (q : RefPtr) :
    deref (refs ++ [some n]) q = if q = refs.length then some n else deref refs q := by
  unfold deref
  by_cases hq : q = refs.length
  · subst hq
    simp
  · rcases Nat.lt_or_gt_of_ne hq with hlt | hgt
    · simp [List.getElem?_append_left hlt, hq]
    · have hle : (refs ++ [some n]).length ≤ q := by simp; omega
      simp [List.getElem?_eq_none hle, List.getElem?_eq_none (Nat.le_of_lt hgt), hq]

namespace Inv
variable {s : MsgState}

theorem perm (hi : Inv s) {l : List Copy} (h : s.copies.Perm l) : Inv { s with copies := l } where
  ok c hc := hi.ok c (h.mem_iff.mpr hc)
  together := (h.pairwise_iff Together.symm).mp hi.together
  counted r n hn := (hi.counted r n hn).trans (h.map _).sum_nat
  live r := by rw [← hi.live r]; simp only [refers, h.any_eq]
  owed_once := hi.owed_once
  fresh := hi.fresh
  payloads b := by rw [← hi.payloads b]; simp only [holds, h.any_eq]
  counters r := by rw [← hi.counters r]; simp only [refers, h.any_eq]

variable {c : Copy}

theorem owned (hi : Inv s) (hc : c ∈ s.copies) {b : Block} (hb : b ∈ c.blocks) : b ∈ s.owed := by
  have hpay := hi.payloads b
  have hheld : holds s.copies b = true := by
    simp only [holds, List.any_eq_true, decide_eq_true_eq]
    exact ⟨c, hc, hb⟩
  rw [hheld] at hpay
  exact count_pos_iff.mp (by simp at hpay; omega)

variable {r : RefPtr}

theorem live_of_mem (hi : Inv s) (hc : c ∈ s.copies)
    (hr : c.exchange.sharedRef = some r) : ∃ n, deref s.refs r = some n := by
  rw [← hi.live r]
  simp only [refers, List.any_eq_true, decide_eq_true_eq]
  exact ⟨c, hc, hr⟩

/-- A copy that has gone on and leads where it led before: the counters may follow. -/
theorem replace (hi : Inv s) {c c' : Copy} {rest l : List Copy} {refs' : List (Option ℕ)}
    (hs : s.copies.Perm (c :: rest)) (hl : l.Perm (c' :: rest)) (hok : CopyOk c')
    (hblocks : c'.blocks = c.blocks) (href : c'.exchange.sharedRef = c.exchange.sharedRef)
    (hlen : refs'.length = s.refs.length)
    (hlive : ∀ r, (∃ n, deref refs' r = some n) ↔ ∃ n, deref s.refs r = some n)
    (hderef : ∀ r n', deref refs' r = some n' → ∃ n, deref s.refs r = some n ∧
      n' + weight r c = n + weight r c') (hlast : ∀ r, c.exchange.sharedRef = some r → c'.place.weight = 0 →
      ∀ d ∈ rest, d.exchange.sharedRef ≠ some r) : Inv { s with copies := l, refs := refs' } := by
  have hi := hi.perm hs
  obtain ⟨hpair, hrest⟩ := pairwise_cons.mp hi.together
  refine Inv.perm (s := { s with copies := c' :: rest, refs := refs' }) ?_ hl.symm
  constructor
  · intro d hd
    rcases mem_cons.mp hd with rfl | hd
    · exact hok
    · exact hi.ok d (.tail _ hd)
  · refine pairwise_cons.mpr ⟨fun d hd => ?_, hrest⟩
    have ht := hpair d hd
    refine ⟨fun b hb hb' => ?_, fun r hr hr' => ?_⟩
    · rw [href]
      exact ht.1 b (hblocks ▸ hb) hb'
    · rw [href] at hr
      obtain ⟨heq, -, hwd⟩ := ht.2 r hr hr'
      exact ⟨hblocks.trans heq, fun hzero => hlast r hr hzero d hd hr', hwd⟩
  · intro r n' hn'
    obtain ⟨n, hn, hsum⟩ := hderef r n' hn'
    have hcounted := hi.counted r n hn
    simp only [map_cons, sum_cons] at hcounted ⊢
    omega
  · intro r
    rw [hlive r, ← hi.live r]
    simp only [refers, any_cons, href]
  · exact hi.owed_once
  · exact hi.fresh
  · intro b
    rw [← hi.payloads b]
    simp only [holds, any_cons, hblocks]
  · intro r
    simp only [hlen]
    rw [← hi.counters r]
    simp only [refers, any_cons, href]

variable {i : ℕ}

theorem relabel (hi : Inv s) {place : Place} (hc : s.copies[i]? = some c)
    (hweight : c.exchange.sharedRef ≠ none → place.weight = c.place.weight)
    (hpos : c.exchange.sharedRef ≠ none → place.weight ≠ 0)
    (hdirect : place ≠ .put) (hundone : place = .freeing false → c.exchange.sharedRef = none) :
    Inv (s.set i { c with place }) := by
  have hok := hi.ok c (mem_of_getElem? hc)
  refine hi.replace (Pick.perm_of_getElem? hc) (Pick.set_perm hc _)
    ⟨hok.nodup, hok.unshared, hok.unanswered, fun h => absurd h hdirect, hundone⟩ rfl rfl rfl
    (fun _ => .rfl) (fun r n hn => ⟨n, hn, ?_⟩) (fun r hr hzero => absurd hzero (hpos (by simp [hr])))
  unfold weight
  by_cases hr : c.exchange.sharedRef = some r
  · simp [hr, hweight (by simp [hr])]
  · simp [hr]

theorem fresh_not_owed (hi : Inv s) : s.nextBlock ∉ s.owed := fun h =>
  Nat.lt_irrefl _ (hi.fresh _ h)

theorem payload_block {null : Bool} {len : ℤ} {b : Block}
    (h : b ∈ (s.payload null len).block.toList) : b = s.nextBlock := by
  unfold Payload.block MsgState.payload at h
  split at h <;> cases null <;> simp_all

theorem payload_nodup (null : Bool) (len : ℤ) : (s.payload null len).block.toList.Nodup := by
  cases (s.payload null len).block <;> simp

variable {p : Payload}

section
variable (hi : Inv s)
include hi

section
variable (hp : ∀ b ∈ p.block.toList, b = s.nextBlock)
include hp

theorem take_owed_once : (s.take p).owed.Nodup := by
  refine nodup_append.mpr ⟨hi.owed_once, by cases p.block <;> simp, fun b hb d hd heq => ?_⟩
  subst heq
  exact hi.fresh_not_owed (hp b hd ▸ hb)

theorem take_fresh :
    ∀ b ∈ (s.take p).owed, b < (s.take p).nextBlock := by
  intro b hb
  rcases mem_append.mp hb with hb | hb
  · exact Nat.lt_succ_of_lt (hi.fresh b hb)
  · exact Nat.lt_succ_of_le (Nat.le_of_eq (hp b hb))

theorem take_payloads {l : List Copy}
    (hl : ∀ b, holds l b = (holds s.copies b || decide (b ∈ p.block.toList))) (b : Block) :
    s.freed.count b + (holds l b).toNat = (s.take p).owed.count b := by
  have hpay := hi.payloads b
  rw [hl b]
  simp only [MsgState.take, count_append]
  cases hblock : p.block with
  | none => simpa using hpay
  | some x =>
    by_cases hb : x = b
    · -- the block is new: it is neither owed nor held yet
      subst hb
      have hx : x = s.nextBlock := hp x (by simp [hblock])
      have hold : s.owed.count x = 0 := count_eq_zero.mpr (hx ▸ hi.fresh_not_owed)
      rw [hold] at hpay ⊢
      have hheld : holds s.copies x = false := by
        cases h : holds s.copies x with
        | false => rfl
        | true => simp [h] at hpay
      simp only [hheld, Bool.toNat_false] at hpay
      simp [hheld]
      omega
    · simpa [hb, Ne.symm hb] using hpay

end

/-- `SAMGR_SendRequest`: a new exchange with a new payload. -/
theorem sendRequest (null : Bool) (len : ℤ) (e : Exchange)
    (hrequest : e.request = s.payload null len) (hresponse : e.response = .null) (href : e.sharedRef = none) :
    Inv ((s.take (s.payload null len)).add ⟨e, .serviceQueue⟩) := by
  have hblocks : Copy.blocks ⟨e, .serviceQueue⟩ = (s.payload null len).block.toList := by
    simp [Copy.blocks, hrequest, hresponse, Payload.null, Payload.block]
  have hnew : ∀ b ∈ (s.payload null len).block.toList, b = s.nextBlock := fun b => payload_block
  have hrefers : ∀ r, refers (s.copies ++ [⟨e, .serviceQueue⟩]) r = refers s.copies r := by
    simp [refers, href]
  constructor
  · intro c hc
    rcases mem_append.mp hc with hc | hc
    · exact hi.ok c hc
    · obtain rfl := mem_singleton.mp hc
      exact ⟨hblocks ▸ payload_nodup null len, fun _ => href, fun _ => hresponse, by simp,
        by simp⟩
  · refine pairwise_append.mpr ⟨hi.together, by simp, fun c hc d hd => ?_⟩
    obtain rfl := mem_singleton.mp hd
    refine ⟨fun b hb hb' => ?_, fun r _ hr => by simp [href] at hr⟩
    rw [hblocks] at hb'
    exact absurd (hi.owned hc hb) (hnew b hb' ▸ hi.fresh_not_owed)
  · intro r n hn
    simpa [MsgState.add, MsgState.take, weight, href] using hi.counted r n hn
  · intro r
    exact (hrefers r) ▸ hi.live r
  · exact hi.take_owed_once hnew
  · exact hi.take_fresh hnew
  · refine hi.take_payloads hnew fun b => ?_
    simp [MsgState.add, MsgState.take, holds, hblocks]
  · intro r
    exact (hrefers r) ▸ hi.counters r

theorem count_split {rest : List Copy} (hs : s.copies.Perm (c :: rest)) (hr : c.exchange.sharedRef = some r) :
    deref s.refs r = some (c.place.weight + (rest.map (weight r)).sum) := by
  have hi := hi.perm hs
  obtain ⟨n, hn⟩ := hi.live_of_mem (mem_cons_self ..) hr
  have hcount := hi.counted r n hn
  simp only [map_cons, sum_cons, weight, hr, if_true] at hcount
  exact hn.trans (congrArg some hcount)

theorem replaceCount {n n' : ℕ} {place : Place}
    (hc : s.copies[i]? = some c) (hr : c.exchange.sharedRef = some r)
    (hn : deref s.refs r = some n) (hcount : n' + c.place.weight = n + place.weight)
    (hdirect : place ≠ .put) (hundone : place ≠ .freeing false)
    (hlast : place.weight = 0 → ∀ d ∈ s.copies.eraseIdx i, d.exchange.sharedRef ≠ some r) :
    Inv ({ s with refs := s.refs.set r (some n') }.set i { c with place }) := by
  have hok := hi.ok c (mem_of_getElem? hc)
  have hlt := deref_lt hn
  refine hi.replace (Pick.perm_of_getElem? hc) (Pick.set_perm hc _)
    ⟨hok.nodup, hok.unshared, hok.unanswered, fun h => absurd h hdirect,
      fun h => absurd h hundone⟩ rfl rfl (length_set ..) (fun q => ?_) (fun q m hm => ?_)
    fun q hq hzero => ?_
  · rw [deref_set hlt]
    by_cases hq : r = q
    · subst hq
      simp [hn]
    · simp [hq]
  · rw [deref_set hlt] at hm
    by_cases hq : r = q
    · subst hq
      obtain rfl : n' = m := by simpa using hm
      exact ⟨n, hn, by simpa [weight, hr] using hcount⟩
    · refine ⟨m, by simpa [hq] using hm, ?_⟩
      simp [weight, hr, hq]
  · obtain rfl : r = q := by simpa [hr] using hq
    exact hlast hzero

theorem alone_of_sum_zero {rest : List Copy}
    (hs : s.copies.Perm (c :: rest)) (hr : c.exchange.sharedRef = some r)
    (hsum : (rest.map (weight r)).sum = 0) : ∀ d ∈ rest, d.exchange.sharedRef ≠ some r := by
  intro d hd hdr
  obtain ⟨hpair, -⟩ := pairwise_cons.mp (hi.perm hs).together
  obtain ⟨-, -, hw⟩ := (hpair d hd).2 r hr hdr
  have hzero := List.sum_eq_zero_iff_forall_eq_nat.mp hsum (weight r d) (List.mem_map_of_mem hd)
  exact hw (by simpa [weight, hdr] using hzero)

theorem undo (hc : s.copies[i]? = some c)
    (hplace : c.place = .failed) : ∃ s', step s (.undo i) = some s' ∧ Inv s' := by
  simp only [step, hc, hplace, if_true, bind_eq_bind, bind_some]
  cases hr : c.exchange.sharedRef with
  | none =>
    simp only [freeReference, bind_some, if_true]
    exact ⟨_, rfl, hi.relabel hc (by simp [hr]) (by simp [hr]) (by simp) (by simp [hr])⟩
  | some r =>
    have hn := hi.count_split (Pick.perm_of_getElem? hc) hr
    rw [hplace] at hn
    have hpos : Place.failed.weight + ((s.copies.eraseIdx i).map (weight r)).sum > 0 := by
      simp only [Place.weight]
      omega
    have hpos' : Place.failed.weight + ((s.copies.eraseIdx i).map (weight r)).sum - 1 > 0 := by
      simp only [Place.weight]
      omega
    simp only [freeReference, hn, bind_eq_bind, bind_some, hpos, hpos', if_true,
      decide_true, Bool.not_true, Bool.false_eq_true, if_false]
    refine ⟨_, rfl, hi.replaceCount hc hr hn ?_ (by simp) (by simp) (by simp [Place.weight])⟩
    rw [hplace]
    simp only [Place.weight]
    omega

/-- A copy released while others remain. -/
theorem releaseShared (hc : s.copies[i]? = some c) (hr : c.exchange.sharedRef = some r)
    (hpos : ((s.copies.eraseIdx i).map (weight r)).sum > 0) :
    Inv { s with
      refs := s.refs.set r (some ((s.copies.eraseIdx i).map (weight r)).sum)
      copies := s.copies.eraseIdx i } := by
  have hs := Pick.perm_of_getElem? hc
  have hlt := deref_lt (hi.count_split hs hr)
  have hi' := hi.perm hs
  obtain ⟨hpair, hrest⟩ := pairwise_cons.mp hi'.together
  -- somebody else shares the counter, and carries the same payloads
  obtain ⟨d, hd, hdr⟩ : ∃ d ∈ s.copies.eraseIdx i, d.exchange.sharedRef = some r := by
    obtain ⟨w, hw, hwpos⟩ := List.sum_pos_iff_exists_pos_nat.mp hpos
    obtain ⟨d, hd, rfl⟩ := List.mem_map.mp hw
    refine ⟨d, hd, Classical.byContradiction fun hne => ?_⟩
    simp [weight, hne] at hwpos
  obtain ⟨hblocks, -, -⟩ := (hpair d hd).2 r hr hdr
  have hrefers : ∀ q, refers (c :: s.copies.eraseIdx i) q = refers (s.copies.eraseIdx i) q := by
    intro q
    simp only [refers, any_cons]
    by_cases hq : c.exchange.sharedRef = some q
    · have : (s.copies.eraseIdx i).any (fun c => decide (c.exchange.sharedRef = some q)) = true :=
        List.any_eq_true.mpr ⟨d, hd, by simpa [hdr, hr] using hq⟩
      simp [this]
    · simp [hq]
  constructor
  · exact fun d hd => hi'.ok d (.tail _ hd)
  · exact hrest
  · intro q m hm
    rw [deref_set hlt] at hm
    by_cases hq : r = q
    · subst hq
      simpa using hm.symm
    · have hcount := hi'.counted q m (by simpa [hq] using hm)
      simpa [weight, hr, hq] using hcount
  · intro q
    rw [deref_set hlt, ← hrefers]
    by_cases hq : r = q
    · subst hq
      simp [refers, hr]
    · simpa [hq] using hi'.live q
  · exact hi.owed_once
  · exact hi.fresh
  · intro b
    rw [← hi'.payloads b]
    simp only [holds, any_cons]
    by_cases hb : b ∈ c.blocks
    · have : (s.copies.eraseIdx i).any (fun c => decide (b ∈ c.blocks)) = true :=
        List.any_eq_true.mpr ⟨d, hd, by simpa [hblocks] using hb⟩
      simp [this]
    · simp [hb]
  · intro q
    rw [← hrefers, length_set]
    exact hi'.counters q

theorem release (hc : s.copies[i]? = some c)
    (hplace : c.place = .release) : ∃ s', step s (.release i) = some s' ∧ Inv s' := by
  simp only [step, hc, hplace, if_true, bind_eq_bind, bind_some]
  cases hr : c.exchange.sharedRef with
  | none =>
    simp only [freeReference, bind_some, if_true]
    exact ⟨_, rfl, hi.relabel hc (by simp [hr]) (by simp [hr]) (by simp) (by simp [hr])⟩
  | some r =>
    have hn := hi.count_split (Pick.perm_of_getElem? hc) hr
    rw [hplace] at hn
    have hpos : Place.release.weight + ((s.copies.eraseIdx i).map (weight r)).sum > 0 := by
      simp only [Place.weight]
      omega
    have hsub : Place.release.weight + ((s.copies.eraseIdx i).map (weight r)).sum - 1 =
        ((s.copies.eraseIdx i).map (weight r)).sum := by
      simp only [Place.weight]
      omega
    simp only [freeReference, hn, bind_eq_bind, bind_some, hpos, hsub, if_true]
    by_cases hlast : ((s.copies.eraseIdx i).map (weight r)).sum > 0
    · simp only [hlast, decide_true, Bool.not_true, Bool.false_eq_true, if_false]
      exact ⟨_, rfl, hi.releaseShared hc hr hlast⟩
    · simp only [hlast, decide_false, Bool.not_false, if_true]
      refine ⟨_, rfl, hi.replaceCount hc hr hn ?_ (by simp) (by simp) fun _ =>
        hi.alone_of_sum_zero (Pick.perm_of_getElem? hc) hr (by omega)⟩
      rw [hplace]
      simp only [Place.weight]
      omega

/-- `QUEUE_Put` of the answer: one copy becomes two. -/
theorem putOk (hc : s.copies[i]? = some c) (hplace : c.place = .put) :
    Inv ((s.set i { c with place := .handling }).add { c with place := .requesterQueue }) := by
  have hs := Pick.perm_of_getElem? hc
  have hi' := hi.perm hs
  have hok := hi'.ok c (.head _)
  obtain ⟨hpair, hrest⟩ := pairwise_cons.mp hi'.together
  have hl : (s.copies.set i { c with place := .handling } ++ [{ c with place := .requesterQueue }]).Perm
      ({ c with place := .requesterQueue } :: { c with place := .handling } ::
        s.copies.eraseIdx i) :=
    (perm_append_comm).trans (((Pick.set_perm hc _).cons _))
  refine Inv.perm (s := { s with copies := _ :: _ :: s.copies.eraseIdx i }) ?_ hl.symm
  -- neither copy differs from the one before except in its place
  have htogether : ∀ place : Place, place.weight ≠ 0 → ∀ d ∈ s.copies.eraseIdx i,
      Together { c with place } d := by
    intro place hplace d hd
    refine ⟨(hpair d hd).1, fun r hr hr' => ?_⟩
    obtain ⟨hb, -, hwd⟩ := (hpair d hd).2 r hr hr'
    exact ⟨hb, hplace, hwd⟩
  constructor
  · intro d hd
    rcases mem_cons.mp hd with rfl | hd
    · exact ⟨hok.nodup, hok.unshared, hok.unanswered, by simp, by simp⟩
    rcases mem_cons.mp hd with rfl | hd
    · exact ⟨hok.nodup, hok.unshared, hok.unanswered, by simp, by simp⟩
    · exact hi'.ok d (.tail _ hd)
  · refine pairwise_cons.mpr ⟨fun d hd => ?_, pairwise_cons.mpr
      ⟨htogether .handling (by simp [Place.weight]), hrest⟩⟩
    rcases mem_cons.mp hd with rfl | hd
    · refine ⟨fun b hb _ => ⟨fun hnone => ?_, rfl⟩, fun _ _ _ =>
        ⟨rfl, by simp [Place.weight], by simp [Place.weight]⟩⟩
      have hb : b ∈ c.blocks := hb
      simp [hok.direct hplace hnone] at hb
    · exact htogether .requesterQueue (by simp [Place.weight]) d hd
  · intro r n hn
    have hcount := hi'.counted r n hn
    simp only [map_cons, sum_cons, weight, hplace, Place.weight] at hcount ⊢
    split at hcount
    · simp_all
      omega
    · simp_all
  · intro r
    rw [show refers _ r = refers (c :: s.copies.eraseIdx i) r by simp [refers]]
    exact hi'.live r
  · exact hi.owed_once
  · exact hi.fresh
  · intro b
    rw [show holds _ b = holds (c :: s.copies.eraseIdx i) b by simp [holds, Copy.blocks]]
    exact hi'.payloads b
  · intro r
    rw [show refers _ r = refers (c :: s.copies.eraseIdx i) r by simp [refers]]
    exact hi'.counters r

/-- The answer is given: the exchange takes the response over, and perhaps a counter. -/
theorem answered {c c' : Copy} {refs' : List (Option ℕ)}
    (hc : s.copies[i]? = some c) (htype : c.exchange.type = .MSG_CON)
    (hp : ∀ b ∈ p.block.toList, b = s.nextBlock) (htype' : c'.exchange.type = .MSG_ACK)
    (hrequest : c'.exchange.request = c.exchange.request) (hresponse : c'.exchange.response = p)
    (href : c'.exchange.sharedRef = none ∧ refs' = s.refs ∨
      c'.exchange.sharedRef = some s.refs.length ∧ refs' = s.refs ++ [some c'.place.weight])
    (hdirect : c'.place = .put → c'.exchange.sharedRef = none → c'.blocks = [])
    (hplace' : c'.place ≠ .freeing false) : Inv ({ s.take p with refs := refs' }.set i c') := by
  have hs := Pick.perm_of_getElem? hc
  have hi' := hi.perm hs
  have hok := hi'.ok c (.head _)
  obtain ⟨hpair, hrest⟩ := pairwise_cons.mp hi'.together
  have hnone := hok.unshared (by simp [htype])
  have hblocks : c'.blocks = c.blocks ++ p.block.toList := by
    simp [Copy.blocks, hrequest, hresponse, hok.unanswered (by simp [htype]), Payload.null,
      Payload.block]
  have hnew : ∀ b ∈ p.block.toList, ∀ d ∈ c :: s.copies.eraseIdx i, b ∉ d.blocks := by
    intro b hb d hd hbd
    exact hi.fresh_not_owed (hp b hb ▸ hi'.owned hd hbd)
  have hold : ∀ r, refers (c :: s.copies.eraseIdx i) r = true → r < s.refs.length := by
    intro r hr
    obtain ⟨n, hn⟩ := (hi'.live r).mp hr
    exact deref_lt hn
  have hrefers : ∀ r, refers (c' :: s.copies.eraseIdx i) r =
      (refers (c :: s.copies.eraseIdx i) r || decide (c'.exchange.sharedRef = some r)) := by
    intro r
    simp [refers, hnone, Bool.or_comm]
  refine Inv.perm (s := { s.take p with refs := refs', copies := c' :: s.copies.eraseIdx i }) ?_
    (Pick.set_perm hc c').symm
  constructor
  · intro d hd
    rcases mem_cons.mp hd with rfl | hd
    · refine ⟨?_, by simp [htype'], by simp [htype'], hdirect, fun h => absurd h hplace'⟩
      rw [hblocks]
      refine nodup_append.mpr ⟨hok.nodup, by cases p.block <;> simp, fun b hb d hd heq => ?_⟩
      exact hnew d hd c (.head _) (heq ▸ hb)
    · exact hi'.ok d (.tail _ hd)
  · refine pairwise_cons.mpr ⟨fun d hd => ⟨fun b hb hb' => ?_, fun r hr hr' => ?_⟩, hrest⟩
    · rw [hblocks] at hb
      rcases mem_append.mp hb with hb | hb
      · exact absurd hnone ((hpair d hd).1 b hb hb').1
      · exact absurd hb' (hnew b hb d (.tail _ hd))
    · rcases href with ⟨h, -⟩ | ⟨h, -⟩
      · simp [h] at hr
      · obtain rfl : s.refs.length = r := by simpa [h] using hr
        refine absurd (hold _ ?_) (Nat.lt_irrefl _)
        simp only [refers, any_cons, Bool.or_eq_true, List.any_eq_true, decide_eq_true_eq]
        exact .inr ⟨d, hd, hr'⟩
  · intro r n hn
    rcases href with ⟨h, rfl⟩ | ⟨h, rfl⟩
    · have hcount := hi'.counted r n hn
      simpa [weight, hnone, h] using hcount
    · rw [deref_append] at hn
      by_cases hr : r = s.refs.length
      · obtain rfl : c'.place.weight = n := by simpa [hr] using hn
        have hothers : ((s.copies.eraseIdx i).map (weight r)).sum = 0 := by
          refine List.sum_eq_zero_iff_forall_eq_nat.mpr fun w hw => ?_
          obtain ⟨d, hd, rfl⟩ := List.mem_map.mp hw
          have hne : d.exchange.sharedRef ≠ some r := fun hdr =>
            Nat.lt_irrefl _ (hr ▸ hold r (List.any_eq_true.mpr ⟨d, .tail _ hd, by simpa using hdr⟩))
          simp [weight, hne]
        simp [weight, h, hr ▸ hothers, hr]
      · have hcount := hi'.counted r n (by simpa [hr] using hn)
        simpa [weight, hnone, h, Ne.symm hr] using hcount
  · intro r
    rw [hrefers, Bool.or_eq_true, hi'.live r]
    rcases href with ⟨h, rfl⟩ | ⟨h, rfl⟩
    · simp [h]
    · rw [deref_append, h]
      by_cases hr : r = s.refs.length
      · simp [hr]
      · simp [hr, Ne.symm hr]
  · exact hi.take_owed_once hp
  · exact hi.take_fresh hp
  · refine hi'.take_payloads hp fun b => ?_
    simp only [holds, any_cons, hblocks, mem_append, Bool.decide_or]
    rw [Bool.or_assoc, Bool.or_assoc, Bool.or_comm (decide (b ∈ p.block.toList))]
  · intro r
    rw [hrefers]
    have hcounters := hi'.counters r
    rcases href with ⟨h, rfl⟩ | ⟨h, rfl⟩
    · simpa [h] using hcounters
    · have hlt := hold r
      simp only [h, some.injEq, length_append, length_singleton] at hcounters ⊢
      by_cases hr : r = s.refs.length
      · subst hr
        cases hrf : refers (c :: s.copies.eraseIdx i) s.refs.length with
        | true => exact absurd (hlt hrf) (Nat.lt_irrefl _)
        | false => simpa [hrf] using hcounters
      · have hiff : (r < s.refs.length + 1) = (r < s.refs.length) :=
          propext ⟨fun h => Nat.lt_of_le_of_ne (Nat.le_of_lt_succ h) hr, Nat.lt_succ_of_lt⟩
        simpa [hiff, Ne.symm hr] using hcounters

/-- The last copy is released: what it leads to is freed, and nothing else leads there. -/
theorem freeLast (hc : s.copies[i]? = some c)
    (hplace : c.place = .freeing true) : ∃ s', step s (.free i) = some s' ∧ Inv s' := by
  have hs := Pick.perm_of_getElem? hc
  have hi' := hi.perm hs
  have hok := hi'.ok c (.head _)
  obtain ⟨hpair, hrest⟩ := pairwise_cons.mp hi'.together
  have hweight : c.place.weight = 0 := by simp [hplace, Place.weight]
  have hblocks : ∀ b ∈ c.blocks, holds (s.copies.eraseIdx i) b = false := by
    intro b hb
    refine List.any_eq_false.mpr fun d hd hbd => ?_
    obtain ⟨hne, heq⟩ := (hpair d hd).1 b hb (by simpa using hbd)
    obtain ⟨r, hr⟩ := ne_none_iff_exists'.mp hne
    exact ((hpair d hd).2 r hr (heq ▸ hr)).2.1 hweight
  have hrefers : ∀ r, c.exchange.sharedRef = some r → refers (s.copies.eraseIdx i) r = false := by
    intro r hr
    refine List.any_eq_false.mpr fun d hd hdr => ?_
    exact ((hpair d hd).2 r hr (by simpa using hdr)).2.1 hweight
  have hpayloads : ∀ b, (s.freed ++ c.blocks).count b + (holds (s.copies.eraseIdx i) b).toNat =
      s.owed.count b := by
    intro b
    rw [← hi'.payloads b, count_append]
    simp only [holds, any_cons]
    by_cases hb : b ∈ c.blocks
    · have hfalse := hblocks b hb
      simp only [holds] at hfalse
      simp [hb, hfalse, hok.nodup.count]
    · simp [hb, count_eq_zero.mpr hb]
  simp only [step, hc, hplace, bind_eq_bind, bind_some, if_true]
  cases hr : c.exchange.sharedRef with
  | none =>
    have hsame : ∀ r, refers (c :: s.copies.eraseIdx i) r = refers (s.copies.eraseIdx i) r := by
      simp [refers, hr]
    refine ⟨_, rfl, fun d hd => hi'.ok d (.tail _ hd), hrest, fun r n hn => ?_,
      fun r => (hsame r) ▸ hi'.live r, hi.owed_once, hi.fresh, hpayloads,
      fun r => (hsame r) ▸ hi'.counters r⟩
    simpa [weight, hr] using hi'.counted r n hn
  | some r =>
    have hlt := deref_lt (hi.count_split hs hr)
    have hsame : ∀ q, r ≠ q →
        refers (c :: s.copies.eraseIdx i) q = refers (s.copies.eraseIdx i) q := by
      intro q hq
      simp [refers, hr, hq]
    refine ⟨_, rfl, fun d hd => hi'.ok d (.tail _ hd), hrest, fun q n hn => ?_, fun q => ?_,
      hi.owed_once, hi.fresh, hpayloads, fun q => ?_⟩
    · simp only [deref_set hlt] at hn
      by_cases hq : r = q
      · simp [hq] at hn
      · have hcount := hi'.counted q n (by simpa [hq] using hn)
        simpa [weight, hr, hq] using hcount
    · simp only [deref_set hlt]
      by_cases hq : r = q
      · subst hq
        simp [hrefers r hr]
      · simp only [← hsame q hq, hq, if_false]
        exact hi'.live q
    · have hcounters := hi'.counters q
      simp only [count_append, length_set]
      by_cases hq : r = q
      · subst hq
        have htrue : refers (c :: s.copies.eraseIdx i) r = true := by simp [refers, hr]
        rw [hrefers r hr]
        rw [htrue] at hcounters
        simpa using hcounters
      · rw [← hsame q hq]
        simpa [hq, Ne.symm hq] using hcounters

theorem freeNull (hc : s.copies[i]? = some c)
    (hplace : c.place = .freeing false) (hr : c.exchange.sharedRef = none) :
    ∃ s', step s (.free i) = some s' ∧ Inv s' := by
  simp only [step, hc, hplace, bind_eq_bind, bind_some, hr, Bool.false_eq_true, if_false]
  have hsame : ({ c.exchange with sharedRef := none } : Exchange) = c.exchange := by rw [← hr]
  rw [hsame]
  exact ⟨_, rfl, hi.relabel hc (by simp [hr]) (by simp [hr]) (by simp) (by simp [hr])⟩

theorem answer (hc : s.copies[i]? = some c)
    (htype : c.exchange.type = .MSG_CON) (hp : ∀ b ∈ p.block.toList, b = s.nextBlock)
    (malloc : Bool) : ∃ s', Message.answer s i c.exchange p malloc = some s' ∧ Inv s' := by
  have hok := hi.ok c (mem_of_getElem? hc)
  have hnone := hok.unshared (by simp [htype])
  unfold Message.answer
  cases hqueue : c.exchange.queueId with
  | false =>
    simp only [Bool.not_false, if_true]
    exact ⟨_, rfl, hi.answered hc htype hp rfl rfl rfl (.inl ⟨hnone, rfl⟩) (by simp) (by simp)⟩
  | true =>
    simp only [Bool.not_true, Bool.false_eq_true, if_false, sharedSend, hnone,
      isNone_none, Bool.and_true, bind_eq_bind]
    by_cases hempty : (c.exchange.request.isEmpty && p.isEmpty) = true
    · simp only [hempty, if_true, bind_some]
      refine ⟨_, rfl, hi.answered hc htype hp rfl rfl rfl (.inl ⟨rfl, rfl⟩) (fun _ _ => ?_)
        (by simp)⟩
      obtain ⟨hrequest, hresponse⟩ := Bool.and_eq_true_iff.mp hempty
      simp only [Copy.blocks, block_of_isEmpty hrequest, block_of_isEmpty hresponse]
      rfl
    · simp only [hempty, Bool.false_eq_true, if_false]
      cases malloc with
      | true =>
        simp only [if_true, bind_some]
        exact ⟨_, rfl, hi.answered hc htype hp rfl rfl rfl (.inr ⟨rfl, rfl⟩) (by simp) (by simp)⟩
      | false =>
        simp only [Bool.false_eq_true, if_false, bind_some]
        exact ⟨_, rfl, hi.answered hc htype hp rfl rfl rfl (.inl ⟨rfl, rfl⟩) (by simp) (by simp)⟩

end

end Inv

/-! ## Every step keeps the invariant -/

theorem inv_endHandle {s : MsgState} (hi : Inv s) {c : Copy} {i : ℕ} (hc : s.copies[i]? = some c)
    (hplace : c.place = .handling) (malloc : Bool) : ∃ s', step s (.endHandle i malloc) = some s' ∧ Inv s' := by
  simp only [step, hc, hplace, if_true, bind_eq_bind, bind_some]
  by_cases hanswer : (decide (c.exchange.type = .MSG_CON) && c.exchange.handler) = true
  · simp only [hanswer, if_true]
    have htype : c.exchange.type = .MSG_CON := by
      simpa using (Bool.and_eq_true_iff.mp hanswer).1
    exact hi.answer hc htype (by simp [Payload.null, Payload.block]) malloc
  · simp only [hanswer, Bool.false_eq_true, if_false]
    exact ⟨_, rfl, hi.relabel hc (by simp [hplace, Place.weight]) (by simp [Place.weight]) (by simp)
      (by simp)⟩

theorem inv_step (s : MsgState) (a : Action) (s' : MsgState) (hi : Inv s)
    (h : step s a = some s') : Inv s' := by
  cases a with
  | sendRequest null len handler currentQueue ok =>
    cases ok with
    | true =>
      cases h
      exact hi.sendRequest null len _ rfl rfl rfl
    | false =>
      cases h
      exact hi
  | popService i serviceImpl =>
    obtain ⟨c, hc, h⟩ := bind_eq_some_iff.mp h
    by_cases hplace : c.place = .serviceQueue
    · simp only [hplace, if_true, some.injEq] at h
      subst h
      refine hi.relabel hc (fun _ => ?_) (fun _ => ?_) ?_ ?_ <;>
        cases serviceImpl <;> simp [hplace, Place.weight]
    · simp [hplace] at h
  | popRequester i =>
    obtain ⟨c, hc, h⟩ := bind_eq_some_iff.mp h
    by_cases hplace : c.place = .requesterQueue
    · simp only [hplace, if_true, some.injEq] at h
      subst h
      exact hi.relabel hc (by simp [hplace, Place.weight]) (by simp [Place.weight]) (by simp)
        (by simp)
    · simp [hplace] at h
  | sendResponse i null len malloc =>
    obtain ⟨c, hc, h⟩ := bind_eq_some_iff.mp h
    by_cases hplace : c.place = .handling
    · simp only [hplace, if_true] at h
      by_cases htype : c.exchange.type = .MSG_CON
      · simp only [htype, ne_eq, not_true_eq_false, if_false] at h
        by_cases hhandler : c.exchange.handler = true
        · simp only [hhandler, Bool.not_true, Bool.false_eq_true, if_false] at h
          obtain ⟨t, ht, hinv⟩ :=
            hi.answer (p := s.payload null len) hc htype (fun _ => Inv.payload_block) malloc
          cases ht.symm.trans h
          exact hinv
        · simp only [hhandler, Bool.not_false, if_true, some.injEq] at h
          exact h ▸ hi
      · simp only [htype, ne_eq, not_false_eq_true, if_true, some.injEq] at h
        exact h ▸ hi
    · simp [hplace] at h
  | endHandle i malloc =>
    obtain ⟨c, hc, h'⟩ := bind_eq_some_iff.mp h
    by_cases hplace : c.place = .handling
    · obtain ⟨t, ht, hinv⟩ := inv_endHandle hi hc hplace malloc
      cases ht.symm.trans h
      exact hinv
    · simp [hplace] at h'
  | put i ok =>
    obtain ⟨c, hc, h⟩ := bind_eq_some_iff.mp h
    by_cases hplace : c.place = .put
    · cases ok with
      | true =>
        simp only [hplace, if_true, some.injEq] at h
        subst h
        exact hi.putOk hc hplace
      | false =>
        simp only [hplace, if_true, Bool.false_eq_true, if_false, some.injEq] at h
        subst h
        exact hi.relabel hc (by simp [hplace, Place.weight]) (by simp [Place.weight]) (by simp)
          (by simp)
    · simp [hplace] at h
  | undo i =>
    obtain ⟨c, hc, h'⟩ := bind_eq_some_iff.mp h
    by_cases hplace : c.place = .failed
    · obtain ⟨t, ht, hinv⟩ := hi.undo hc hplace
      cases ht.symm.trans h
      exact hinv
    · simp [hplace] at h'
  | release i =>
    obtain ⟨c, hc, h'⟩ := bind_eq_some_iff.mp h
    by_cases hplace : c.place = .release
    · obtain ⟨t, ht, hinv⟩ := hi.release hc hplace
      cases ht.symm.trans h
      exact hinv
    · simp [hplace] at h'
  | free i =>
    obtain ⟨c, hc, h'⟩ := bind_eq_some_iff.mp h
    cases hplace : c.place with
    | freeing payloads =>
      cases payloads with
      | true =>
        obtain ⟨t, ht, hinv⟩ := hi.freeLast hc hplace
        cases ht.symm.trans h
        exact hinv
      | false =>
        have hnone := (hi.ok c (mem_of_getElem? hc)).undone hplace
        obtain ⟨t, ht, hinv⟩ := hi.freeNull hc hplace hnone
        cases ht.symm.trans h
        exact hinv
    | _ => simp [hplace] at h'

theorem inv_run {as : List Action} {s : MsgState} (run : Runs step AnyStep init as s) : Inv s :=
  run.invariant_of_step inv_step inv_init

/-! ## Payload ownership -/

/-- **Payload ownership.**  In every reachable state a payload taken over (of a request
that was sent, or of a response that was accepted) has been freed exactly once if no
copy of its exchange is left, and not at all as long as there is one; nothing else has
been freed.  The same holds of the reference counters, and the counter of every copy is
still there. -/
theorem payload_ownership {as : List Action} {s : MsgState} (run : Runs step AnyStep init as s) :
    (∀ b ∈ s.owed, s.freed.count b = if ∃ c ∈ s.copies, b ∈ c.blocks then 0 else 1) ∧
    (∀ b ∈ s.freed, b ∈ s.owed) ∧
    (∀ r < s.refs.length, s.freedRefs.count r =
      if ∃ c ∈ s.copies, c.exchange.sharedRef = some r then 0 else 1) ∧
    (∀ r ∈ s.freedRefs, r < s.refs.length) ∧
    (∀ c ∈ s.copies, ∀ r, c.exchange.sharedRef = some r → ∃ n, deref s.refs r = some n) := by
  have hi := inv_run run
  refine ⟨fun b hb => ?_, fun b hb => ?_, fun r hr => ?_, fun r hr => ?_,
    fun c hc r => hi.live_of_mem hc⟩
  · have hpay := hi.payloads b
    rw [hi.owed_once.count, if_pos hb] at hpay
    by_cases hheld : ∃ c ∈ s.copies, b ∈ c.blocks
    · have hholds : holds s.copies b = true := by simpa [holds] using hheld
      rw [if_pos hheld]
      simpa [hholds] using hpay
    · have hholds : holds s.copies b = false := by simpa [holds] using hheld
      rw [if_neg hheld]
      simpa [hholds] using hpay
  · have hpay := hi.payloads b
    have := count_pos_iff.mpr hb
    exact count_pos_iff.mp (by omega)
  · have hcounters := hi.counters r
    by_cases href : ∃ c ∈ s.copies, c.exchange.sharedRef = some r
    · have hrefers : refers s.copies r = true := by simpa [refers] using href
      rw [if_pos href]
      simpa [hrefers, hr] using hcounters
    · have hrefers : refers s.copies r = false := by simpa [refers] using href
      rw [if_neg href]
      simpa [hrefers, hr] using hcounters
  · have hcounters := hi.counters r
    have := count_pos_iff.mpr hr
    by_contra hge
    simp [hge] at hcounters
    omega

/-- A request with a payload is answered with another; the requester releases its copy
before the service does. -/
def requesterFirst : List Action :=
  [.sendRequest false 8 true true true, .popService 0 true, .sendResponse 0 false 4 true,
    .put 0 true, .popRequester 1, .release 1, .endHandle 0 true, .release 0, .free 0]

/-- After `requesterFirst` both payloads have been freed once, and so has the counter. -/
theorem payload_ownership_requesterFirst :
    ∃ s, Runs step AnyStep init requesterFirst s ∧ s.freed.count 0 = 1 ∧ s.freed.count 1 = 1 ∧
      s.freedRefs.count 0 = 1 := by
  let s : MsgState := ⟨[], [none], [0, 1], [0, 1], [0], 2⟩
  have run : Runs step AnyStep init requesterFirst s := runs_of_exec (by decide)
  obtain ⟨hpayloads, -, hcounters, -⟩ := payload_ownership run
  exact ⟨s, run, hpayloads 0 (by decide), hpayloads 1 (by decide), hcounters 0 (by decide)⟩

end Protoc.Samgr.Message
