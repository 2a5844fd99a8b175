import Spark.Lib.FixedCodec

/-!
# The control frames of a tensor-parallel pair

The leader mirrors every call on a session to the worker as a frame on the control socket
(`tensor_parallel.c`): a header with a magic word, a type and a length, and a payload whose layout the
type decides. A write puts bytes behind the stream, a read takes bytes off its front, and a read that
finds the stream ended fails.
-/

namespace Spark.Tp

open FixedCodec

/-- `tensor_parallel_batch_item`. -/
structure BatchItem where
  sessionId : UInt64
  token : Int32
  reserved : UInt32
  deriving DecidableEq, Repr

/-- `tensor_parallel_command`, each type with the fields that its frame fills. -/
inductive Command where
  | sync (sessionId : UInt64) (tokens : List Int32)
  | verify (sessionId : UInt64) (tokens : List Int32)
  | eval (sessionId seq : UInt64) (value : Int32)
  | rewind (sessionId : UInt64) (value : Int32)
  | invalidate (sessionId : UInt64)
  | stop
  | sessionCreate (sessionId : UInt64) (value : Int32)
  | sessionDestroy (sessionId : UInt64)
  | evalBatch (items : List BatchItem)
  | mixedBatch (sessionId : UInt64) (tokens : List Int32) (items : List BatchItem)
  deriving DecidableEq, Repr

/-! ## Layouts -/

/-- `DS4_TP_MAGIC`. -/
def tpMagic : UInt32 := 0x44533454

def int32 : FixedCodec Int32 :=
  word32.map UInt32.toInt32 Int32.toUInt32 (fun _ => rfl) fun _ => rfl

/-- `tensor_parallel_frame_header`: magic, type and bytes. -/
def frameHeader : FixedCodec (UInt32 × UInt32 × UInt32) := word32.pair (word32.pair word32)

/-- `tensor_parallel_token_command_header`: session, count and a reserved word. -/
def tokenCommandHeader : FixedCodec (UInt64 × UInt32 × UInt32) := word64.pair (word32.pair word32)

/-- `tensor_parallel_value_command`. -/
def valueCommand : FixedCodec (UInt64 × Int32 × UInt32) := word64.pair (int32.pair word32)

/-- `tensor_parallel_eval_command`. -/
def evalCommand : FixedCodec (UInt64 × UInt64 × Int32 × UInt32) := word64.pair (word64.pair (int32.pair word32))

/-- `tensor_parallel_batch_command_header`. -/
def batchCommandHeader : FixedCodec (UInt32 × UInt32) := word32.pair word32

/-- `tensor_parallel_mixed_command_header`: session, prompt count and item count. -/
def mixedCommandHeader : FixedCodec (UInt64 × UInt32 × UInt32) := word64.pair (word32.pair word32)

def batchItem : FixedCodec BatchItem :=
  (word64.pair (int32.pair word32)).map (fun v => ⟨v.1, v.2.1, v.2.2⟩)
    (fun item => (item.sessionId, item.token, item.reserved)) (fun _ => rfl) fun _ => rfl

/-! ## The leader's sends -/

def uint32Max : Nat := 2 ^ 32 - 1

/-- `tp_send_frame`. -/
def sendFrame (type : UInt32) (payload : List UInt8) : List UInt8 :=
  frameHeader.enc (tpMagic, type, UInt32.ofNat payload.length) ++ payload

/-- `tp_send_token_command`. -/
def sendTokenCommand (type : UInt32) (sessionId : UInt64) (tokens : List Int32) : Option (List UInt8) :=
  if tokenCommandHeader.size + tokens.length * int32.size > uint32Max then
    none
  else
    some (sendFrame type
      (tokenCommandHeader.enc (sessionId, UInt32.ofNat tokens.length, 0) ++ int32.encAll tokens))

def sendSync (sessionId : UInt64) (tokens : List Int32) : Option (List UInt8) := sendTokenCommand 1 sessionId tokens

def sendVerify (sessionId : UInt64) (drafts : List Int32) : Option (List UInt8) :=
  sendTokenCommand 11 sessionId drafts

def sendEval (sessionId seq : UInt64) (token : Int32) : Option (List UInt8) :=
  some (sendFrame 2 (evalCommand.enc (sessionId, seq, token, 0)))

def sendRewind (sessionId : UInt64) (pos : Int32) : Option (List UInt8) :=
  some (sendFrame 3 (valueCommand.enc (sessionId, pos, 0)))

def sendInvalidate (sessionId : UInt64) : Option (List UInt8) := some (sendFrame 4 (word64.enc sessionId))

def sendStop : Option (List UInt8) := some (sendFrame 5 [])

def sendSessionCreate (sessionId : UInt64) (ctxSize : Int32) : Option (List UInt8) :=
  some (sendFrame 13 (valueCommand.enc (sessionId, ctxSize, 0)))

def sendSessionDestroy (sessionId : UInt64) : Option (List UInt8) := some (sendFrame 14 (word64.enc sessionId))

/-- `tensor_parallel_send_eval_batch`. -/
def sendEvalBatch (items : List BatchItem) : Option (List UInt8) :=
  if items = [] ∨ batchCommandHeader.size + items.length * batchItem.size > uint32Max then
    none
  else
    some (sendFrame 15 (batchCommandHeader.enc (UInt32.ofNat items.length, 0) ++ batchItem.encAll items))

/-- `tensor_parallel_send_mixed_batch`. -/
def sendMixedBatch (sessionId : UInt64) (prompt : List Int32) (items : List BatchItem) : Option (List UInt8) :=
  if prompt = [] ∨ items = [] ∨
      mixedCommandHeader.size + prompt.length * int32.size + items.length * batchItem.size > uint32Max then
    none
  else
    some (sendFrame 16
      (mixedCommandHeader.enc (sessionId, UInt32.ofNat prompt.length, UInt32.ofNat items.length) ++
        (int32.encAll prompt ++ batchItem.encAll items)))

/-- The send for each command. -/
def send : Command → Option (List UInt8)
  | .sync id tokens => sendSync id tokens
  | .verify id drafts => sendVerify id drafts
  | .eval id seq token => sendEval id seq token
  | .rewind id pos => sendRewind id pos
  | .invalidate id => sendInvalidate id
  | .stop => sendStop
  | .sessionCreate id ctxSize => sendSessionCreate id ctxSize
  | .sessionDestroy id => sendSessionDestroy id
  | .evalBatch items => sendEvalBatch items
  | .mixedBatch id prompt items => sendMixedBatch id prompt items

/-! ## The worker's receive -/

/-- `tp_read_full`. -/
def readFull (n : Nat) (stream : List UInt8) : Option (List UInt8 × List UInt8) :=
  if n ≤ stream.length then some (stream.take n, stream.drop n) else none

/-- `tp_read_frame_header`: the type, the bytes, and what is behind the header. -/
def readFrameHeader (stream : List UInt8) : Option (UInt32 × UInt32 × List UInt8) := do
  let (h, stream) ← readFull frameHeader.size stream
  let (magic, type, bytes) := frameHeader.dec h
  if magic ≠ tpMagic then none else some (type, bytes, stream)

/-- `tp_command_decode_tokens`. -/
def decodeTokens (payload : List UInt8) : Option (UInt64 × List Int32) :=
  if payload.length < tokenCommandHeader.size then
    none
  else
    let (sessionId, count, _) := tokenCommandHeader.dec (payload.take tokenCommandHeader.size)
    if tokenCommandHeader.size + count.toNat * int32.size ≠ payload.length then none
    else some (sessionId, int32.decAll count.toNat (payload.drop tokenCommandHeader.size))

def decodeValue (payload : List UInt8) : Option (UInt64 × Int32) :=
  if payload.length ≠ valueCommand.size then none
  else
    let (sessionId, value, _) := valueCommand.dec payload
    some (sessionId, value)

def decodeSessionId (payload : List UInt8) : Option UInt64 :=
  if payload.length ≠ word64.size then none else some (word64.dec payload)

def decodeEval (payload : List UInt8) : Option (UInt64 × UInt64 × Int32) :=
  if payload.length ≠ evalCommand.size then none
  else
    let (sessionId, seq, token, _) := evalCommand.dec payload
    some (sessionId, seq, token)

def decodeBatch (payload : List UInt8) : Option (List BatchItem) :=
  if payload.length < batchCommandHeader.size then none
  else
    let (count, _) := batchCommandHeader.dec (payload.take batchCommandHeader.size)
    if count = 0 ∨ batchCommandHeader.size + count.toNat * batchItem.size ≠ payload.length then none
    else some (batchItem.decAll count.toNat (payload.drop batchCommandHeader.size))

def decodeMixed (payload : List UInt8) : Option (UInt64 × List Int32 × List BatchItem) :=
  if payload.length < mixedCommandHeader.size then none
  else
    let (sessionId, promptCount, itemCount) := mixedCommandHeader.dec (payload.take mixedCommandHeader.size)
    let tokenBytes := promptCount.toNat * int32.size
    if promptCount = 0 ∨ itemCount = 0 ∨
        mixedCommandHeader.size + tokenBytes + itemCount.toNat * batchItem.size ≠ payload.length then none
    else
      let body := payload.drop mixedCommandHeader.size
      some (sessionId, int32.decAll promptCount.toNat body, batchItem.decAll itemCount.toNat (body.drop tokenBytes))

/-- The switch of `tensor_parallel_recv_command`. -/
def decodeCommand (type : UInt32) (payload : List UInt8) : Option Command :=
  if type = 1 then (decodeTokens payload).map fun v => .sync v.1 v.2
  else if type = 11 then (decodeTokens payload).map fun v => .verify v.1 v.2
  else if type = 13 then (decodeValue payload).map fun v => .sessionCreate v.1 v.2
  else if type = 3 then (decodeValue payload).map fun v => .rewind v.1 v.2
  else if type = 14 then (decodeSessionId payload).map .sessionDestroy
  else if type = 4 then (decodeSessionId payload).map .invalidate
  else if type = 2 then (decodeEval payload).map fun v => .eval v.1 v.2.1 v.2.2
  else if type = 15 then (decodeBatch payload).map .evalBatch
  else if type = 16 then (decodeMixed payload).map fun v => .mixedBatch v.1 v.2.1 v.2.2
  else if type = 5 then (if payload.length ≠ 0 then none else some .stop)
  else none

/-- `tensor_parallel_recv_command`: the command, and what is behind its frame. -/
def recvCommand (stream : List UInt8) : Option (Command × List UInt8) := do
  let (type, bytes, stream) ← readFrameHeader stream
  let (payload, stream) ← readFull bytes.toNat stream
  let command ← decodeCommand type payload
  some (command, stream)

/-! ## What a frame holds -/

def typeCode : Command → UInt32
  | .sync .. => 1
  | .verify .. => 11
  | .eval .. => 2
  | .rewind .. => 3
  | .invalidate .. => 4
  | .stop => 5
  | .sessionCreate .. => 13
  | .sessionDestroy .. => 14
  | .evalBatch .. => 15
  | .mixedBatch .. => 16

/-- The payload of a command; the leader writes zero into the word that is kept free. -/
def payloadOf (reserved : UInt32) : Command → List UInt8
  | .sync id tokens | .verify id tokens =>
    tokenCommandHeader.enc (id, UInt32.ofNat tokens.length, reserved) ++ int32.encAll tokens
  | .eval id seq token => evalCommand.enc (id, seq, token, reserved)
  | .rewind id value | .sessionCreate id value => valueCommand.enc (id, value, reserved)
  | .invalidate id | .sessionDestroy id => word64.enc id
  | .stop => []
  | .evalBatch items => batchCommandHeader.enc (UInt32.ofNat items.length, reserved) ++ batchItem.encAll items
  | .mixedBatch id prompt items =>
    mixedCommandHeader.enc (id, UInt32.ofNat prompt.length, UInt32.ofNat items.length) ++
      (int32.encAll prompt ++ batchItem.encAll items)

/-- A batch has items, and a mixed one a prompt too. -/
def Filled : Command → Prop
  | .evalBatch items => items ≠ []
  | .mixedBatch _ prompt items => prompt ≠ [] ∧ items ≠ []
  | _ => True

/-- What the leader can put into a frame. -/
def Sendable (c : Command) : Prop := Filled c ∧ (payloadOf 0 c).length ≤ uint32Max

theorem length_payloadOf (reserved : UInt32) (c : Command) :
    (payloadOf reserved c).length = (payloadOf 0 c).length := by
  cases c <;> simp [payloadOf]

theorem length_tokens (id : UInt64) (count reserved : UInt32) (tokens : List Int32) :
    (tokenCommandHeader.enc (id, count, reserved) ++ int32.encAll tokens).length =
      tokenCommandHeader.size + tokens.length * int32.size := by
  simp

/-- The leader sends what fits a frame, with zero in the free word. -/
theorem send_eq_some_iff {c : Command} {frame : List UInt8} :
    send c = some frame ↔ Sendable c ∧ frame = sendFrame (typeCode c) (payloadOf 0 c) := by
  have hsend : ∀ bad : Prop, ∀ [Decidable bad], (Sendable c ↔ ¬bad) →
      send c = (if bad then none else some (sendFrame (typeCode c) (payloadOf 0 c))) →
      (send c = some frame ↔ Sendable c ∧ frame = sendFrame (typeCode c) (payloadOf 0 c)) := by
    intro bad _ hbad heq
    rw [heq, hbad]
    by_cases hb : bad
    · simp [hb]
    · simp [hb, eq_comm]
  cases c with
  | sync id tokens | verify id tokens =>
    apply hsend (tokenCommandHeader.size + tokens.length * int32.size > uint32Max) _ rfl
    rw [Sendable, payloadOf, length_tokens]
    simp [Filled]
  | evalBatch items =>
    apply hsend (items = [] ∨ batchCommandHeader.size + items.length * batchItem.size > uint32Max) _ rfl
    simp [Sendable, Filled, payloadOf]
  | mixedBatch id prompt items =>
    apply hsend (prompt = [] ∨ items = [] ∨
      mixedCommandHeader.size + prompt.length * int32.size + items.length * batchItem.size > uint32Max) _ rfl
    simp [Sendable, Filled, payloadOf, and_assoc, Nat.add_assoc]
  | eval id seq token =>
    exact hsend False (iff_of_true ⟨trivial, by rw [payloadOf, evalCommand.length_enc]; decide⟩ not_false) rfl
  | rewind id value | sessionCreate id value =>
    exact hsend False (iff_of_true ⟨trivial, by rw [payloadOf, valueCommand.length_enc]; decide⟩ not_false) rfl
  | invalidate id | sessionDestroy id =>
    exact hsend False (iff_of_true ⟨trivial, by rw [payloadOf, word64.length_enc]; decide⟩ not_false) rfl
  | stop => exact hsend False (iff_of_true ⟨trivial, by decide⟩ not_false) rfl

/-! ## Reading a payload -/

/-- A header in front of a body. -/
theorem split_header {η : Type} (h : FixedCodec η) {payload : List UInt8} (hlen : h.size ≤ payload.length) :
    payload = h.enc (h.dec (payload.take h.size)) ++ payload.drop h.size := by
  have hfront : (payload.take h.size).length = h.size := by
    rw [List.length_take]
    omega
  rw [h.enc_dec _ hfront, List.take_append_drop]

theorem toNat_ofNat_length {α : Type} {l : List α} (h : l.length < 2 ^ 32) :
    (UInt32.ofNat l.length).toNat = l.length := UInt32.toNat_ofNat_of_lt' h

theorem ofNat_length_ne_zero {α : Type} {l : List α} (hlen : l.length < 2 ^ 32) (hne : l ≠ []) :
    UInt32.ofNat l.length ≠ 0 := by
  intro hzero
  have hlen' := toNat_ofNat_length hlen
  rw [hzero] at hlen'
  exact hne (List.eq_nil_of_length_eq_zero hlen'.symm)

theorem decAll_ne_nil {α : Type} (c : FixedCodec α) {n : UInt32} (b : List UInt8) (hn : n ≠ 0) :
    c.decAll n.toNat b ≠ [] := by
  intro hnil
  have hzero := length_decAll c n.toNat b
  rw [hnil] at hzero
  exact hn (UInt32.toNat.inj hzero.symm)

theorem decodeTokens_iff {payload : List UInt8} {id : UInt64} {tokens : List Int32} :
    decodeTokens payload = some (id, tokens) ↔ tokens.length < 2 ^ 32 ∧
      ∃ reserved, payload =
        tokenCommandHeader.enc (id, UInt32.ofNat tokens.length, reserved) ++ int32.encAll tokens := by
  constructor
  · intro hdec
    unfold decodeTokens at hdec
    split at hdec
    · exact absurd hdec (by simp)
    · rename_i hshort
      have hsplit := split_header tokenCommandHeader (Nat.le_of_not_lt hshort)
      generalize tokenCommandHeader.dec (payload.take tokenCommandHeader.size) = head at hdec hsplit
      obtain ⟨id', count, reserved⟩ := head
      simp only at hdec
      split at hdec
      · exact absurd hdec (by simp)
      · rename_i hwant
        obtain ⟨rfl, rfl⟩ := Prod.mk.inj (Option.some.inj hdec)
        have hbody : (payload.drop tokenCommandHeader.size).length = count.toNat * int32.size := by
          rw [List.length_drop, ← not_ne_iff.mp hwant, Nat.add_sub_cancel_left]
        rw [length_decAll, encAll_decAll _ _ _ hbody, UInt32.ofNat_toNat]
        exact ⟨count.toNat_lt, reserved, hsplit⟩
  · rintro ⟨hlen, reserved, rfl⟩
    obtain ⟨hhead, hbody⟩ := take_drop_enc tokenCommandHeader (id, UInt32.ofNat tokens.length, reserved)
      (int32.encAll tokens)
    unfold decodeTokens
    rw [if_neg (by simp), hhead, hbody]
    simp only [toNat_ofNat_length hlen]
    rw [if_neg (by simp), decAll_encAll]

theorem decodeBatch_iff {payload : List UInt8} {items : List BatchItem} :
    decodeBatch payload = some items ↔ (items.length < 2 ^ 32 ∧ items ≠ []) ∧
      ∃ reserved, payload =
        batchCommandHeader.enc (UInt32.ofNat items.length, reserved) ++ batchItem.encAll items := by
  constructor
  · intro hdec
    unfold decodeBatch at hdec
    split at hdec
    · exact absurd hdec (by simp)
    · rename_i hshort
      have hsplit := split_header batchCommandHeader (Nat.le_of_not_lt hshort)
      generalize batchCommandHeader.dec (payload.take batchCommandHeader.size) = head at hdec hsplit
      obtain ⟨count, reserved⟩ := head
      simp only at hdec
      split at hdec
      · exact absurd hdec (by simp)
      · rename_i hwant
        rw [not_or, not_ne_iff] at hwant
        obtain ⟨hcount, hwant⟩ := hwant
        obtain rfl := Option.some.inj hdec
        have hbody : (payload.drop batchCommandHeader.size).length = count.toNat * batchItem.size := by
          rw [List.length_drop, ← hwant, Nat.add_sub_cancel_left]
        rw [length_decAll, encAll_decAll _ _ _ hbody, UInt32.ofNat_toNat]
        exact ⟨⟨count.toNat_lt, decAll_ne_nil _ _ hcount⟩, reserved, hsplit⟩
  · rintro ⟨⟨hlen, hne⟩, reserved, rfl⟩
    obtain ⟨hhead, hbody⟩ := take_drop_enc batchCommandHeader (UInt32.ofNat items.length, reserved)
      (batchItem.encAll items)
    unfold decodeBatch
    rw [if_neg (by simp), hhead, hbody]
    simp only [toNat_ofNat_length hlen]
    rw [if_neg (by simp [ofNat_length_ne_zero hlen hne]), decAll_encAll]

theorem decodeMixed_iff {payload : List UInt8} {id : UInt64} {prompt : List Int32} {items : List BatchItem} :
    decodeMixed payload = some (id, prompt, items) ↔
      (prompt.length < 2 ^ 32 ∧ items.length < 2 ^ 32 ∧ prompt ≠ [] ∧ items ≠ []) ∧
        payload = mixedCommandHeader.enc (id, UInt32.ofNat prompt.length, UInt32.ofNat items.length) ++
          (int32.encAll prompt ++ batchItem.encAll items) := by
  constructor
  · intro hdec
    unfold decodeMixed at hdec
    split at hdec
    · exact absurd hdec (by simp)
    · rename_i hshort
      have hsplit := split_header mixedCommandHeader (Nat.le_of_not_lt hshort)
      generalize mixedCommandHeader.dec (payload.take mixedCommandHeader.size) = head at hdec hsplit
      obtain ⟨id', promptCount, itemCount⟩ := head
      simp only at hdec
      split at hdec
      · exact absurd hdec (by simp)
      · rename_i hwant
        rw [not_or, not_or, not_ne_iff] at hwant
        obtain ⟨hprompt, hitem, hwant⟩ := hwant
        obtain ⟨rfl, hrest⟩ := Prod.mk.inj (Option.some.inj hdec)
        obtain ⟨rfl, rfl⟩ := Prod.mk.inj hrest
        have hbody : (payload.drop mixedCommandHeader.size).length =
            promptCount.toNat * int32.size + itemCount.toNat * batchItem.size := by
          rw [List.length_drop, ← hwant, Nat.add_assoc, Nat.add_sub_cancel_left]
        generalize payload.drop mixedCommandHeader.size = body at hbody hsplit
        have htokens : body = int32.encAll (int32.decAll promptCount.toNat body) ++
            body.drop (promptCount.toNat * int32.size) := by
          have htake : int32.decAll promptCount.toNat body =
              int32.decAll promptCount.toNat (body.take (promptCount.toNat * int32.size)) :=
            (decAll_take int32 promptCount.toNat body).symm
          have hlen : (body.take (promptCount.toNat * int32.size)).length = promptCount.toNat * int32.size := by
            rw [List.length_take]
            omega
          rw [htake, encAll_decAll _ _ _ hlen, List.take_append_drop]
        have hitems : (body.drop (promptCount.toNat * int32.size)).length = itemCount.toNat * batchItem.size := by
          rw [List.length_drop]
          omega
        rw [length_decAll, length_decAll, encAll_decAll _ _ _ hitems, UInt32.ofNat_toNat, UInt32.ofNat_toNat,
          ← htokens]
        exact ⟨⟨promptCount.toNat_lt, itemCount.toNat_lt, decAll_ne_nil _ _ hprompt,
          decAll_ne_nil _ _ hitem⟩, hsplit⟩
  · rintro ⟨⟨hlenPrompt, hlenItems, hprompt, hitems⟩, rfl⟩
    obtain ⟨hhead, hbody⟩ := take_drop_enc mixedCommandHeader
      (id, UInt32.ofNat prompt.length, UInt32.ofNat items.length) (int32.encAll prompt ++ batchItem.encAll items)
    have htokens : int32.decAll prompt.length (int32.encAll prompt ++ batchItem.encAll items) = prompt := by
      rw [← decAll_take, ← length_encAll, List.take_left, decAll_encAll]
    have hdrop : (int32.encAll prompt ++ batchItem.encAll items).drop (prompt.length * int32.size) =
        batchItem.encAll items := by
      rw [← length_encAll, List.drop_left]
    unfold decodeMixed
    rw [if_neg (by simp), hhead, hbody]
    simp only [toNat_ofNat_length hlenPrompt, toNat_ofNat_length hlenItems]
    have hfilled := ofNat_length_ne_zero hlenPrompt hprompt
    have hfilled' := ofNat_length_ne_zero hlenItems hitems
    rw [if_neg (by simp [hfilled, hfilled', Nat.add_assoc]), htokens, hdrop, decAll_encAll]

theorem decodeValue_iff {payload : List UInt8} {id : UInt64} {value : Int32} :
    decodeValue payload = some (id, value) ↔ ∃ reserved, payload = valueCommand.enc (id, value, reserved) := by
  constructor
  · intro hdec
    unfold decodeValue at hdec
    split at hdec
    · exact absurd hdec (by simp)
    · rename_i hlen
      have henc := valueCommand.enc_dec payload (not_ne_iff.mp hlen)
      generalize valueCommand.dec payload = v at hdec henc
      obtain ⟨id', value', reserved⟩ := v
      obtain ⟨rfl, rfl⟩ := Prod.mk.inj (Option.some.inj hdec)
      exact ⟨reserved, henc.symm⟩
  · rintro ⟨reserved, rfl⟩
    rw [decodeValue, if_neg (by simp), dec_enc]

theorem decodeSessionId_iff {payload : List UInt8} {id : UInt64} :
    decodeSessionId payload = some id ↔ payload = word64.enc id := by
  constructor
  · intro hdec
    unfold decodeSessionId at hdec
    split at hdec
    · exact absurd hdec (by simp)
    · rename_i hlen
      rw [← Option.some.inj hdec, word64.enc_dec payload (not_ne_iff.mp hlen)]
  · rintro rfl
    rw [decodeSessionId, if_neg (by simp), dec_enc]

theorem decodeEval_iff {payload : List UInt8} {id seq : UInt64} {token : Int32} :
    decodeEval payload = some (id, seq, token) ↔
      ∃ reserved, payload = evalCommand.enc (id, seq, token, reserved) := by
  constructor
  · intro hdec
    unfold decodeEval at hdec
    split at hdec
    · exact absurd hdec (by simp)
    · rename_i hlen
      have henc := evalCommand.enc_dec payload (not_ne_iff.mp hlen)
      generalize evalCommand.dec payload = v at hdec henc
      obtain ⟨id', seq', token', reserved⟩ := v
      obtain ⟨rfl, hrest⟩ := Prod.mk.inj (Option.some.inj hdec)
      obtain ⟨rfl, rfl⟩ := Prod.mk.inj hrest
      exact ⟨reserved, henc.symm⟩
  · rintro ⟨reserved, rfl⟩
    rw [decodeEval, if_neg (by simp), dec_enc]

/-- The counts of a payload that fits a frame. -/
theorem counts_of_fits {c : Command} {reserved : UInt32} (hlen : (payloadOf reserved c).length ≤ uint32Max) :
    (∀ id tokens, c = .sync id tokens ∨ c = .verify id tokens → tokens.length < 2 ^ 32) ∧
      (∀ items, c = .evalBatch items → items.length < 2 ^ 32) ∧
      ∀ id prompt items, c = .mixedBatch id prompt items → prompt.length < 2 ^ 32 ∧ items.length < 2 ^ 32 := by
  have hint : int32.size = 4 := rfl
  have hitem : batchItem.size = 16 := rfl
  unfold uint32Max at hlen
  refine ⟨?_, ?_, ?_⟩
  · rintro id tokens (rfl | rfl)
    · simp only [payloadOf, List.length_append, length_enc, length_encAll, hint] at hlen
      omega
    · simp only [payloadOf, List.length_append, length_enc, length_encAll, hint] at hlen
      omega
  · rintro items rfl
    simp only [payloadOf, List.length_append, length_enc, length_encAll, hitem] at hlen
    omega
  · rintro id prompt items rfl
    simp only [payloadOf, List.length_append, length_enc, length_encAll, hint, hitem] at hlen
    omega

/-- What a payload is accepted as. -/
theorem decodeCommand_iff {type : UInt32} {payload : List UInt8} (hlen : payload.length ≤ uint32Max) {c : Command} :
    decodeCommand type payload = some c ↔
      type = typeCode c ∧ Filled c ∧ ∃ reserved, payload = payloadOf reserved c := by
  constructor
  · intro hdec
    unfold decodeCommand at hdec
    split at hdec
    · obtain ⟨⟨id, tokens⟩, htokens, rfl⟩ := Option.map_eq_some_iff.mp hdec
      exact ⟨‹_›, trivial, (decodeTokens_iff.mp htokens).2⟩
    split at hdec
    · obtain ⟨⟨id, tokens⟩, htokens, rfl⟩ := Option.map_eq_some_iff.mp hdec
      exact ⟨‹_›, trivial, (decodeTokens_iff.mp htokens).2⟩
    split at hdec
    · obtain ⟨⟨id, value⟩, hvalue, rfl⟩ := Option.map_eq_some_iff.mp hdec
      exact ⟨‹_›, trivial, decodeValue_iff.mp hvalue⟩
    split at hdec
    · obtain ⟨⟨id, value⟩, hvalue, rfl⟩ := Option.map_eq_some_iff.mp hdec
      exact ⟨‹_›, trivial, decodeValue_iff.mp hvalue⟩
    split at hdec
    · obtain ⟨id, hid, rfl⟩ := Option.map_eq_some_iff.mp hdec
      exact ⟨‹_›, trivial, 0, decodeSessionId_iff.mp hid⟩
    split at hdec
    · obtain ⟨id, hid, rfl⟩ := Option.map_eq_some_iff.mp hdec
      exact ⟨‹_›, trivial, 0, decodeSessionId_iff.mp hid⟩
    split at hdec
    · obtain ⟨⟨id, seq, token⟩, heval, rfl⟩ := Option.map_eq_some_iff.mp hdec
      exact ⟨‹_›, trivial, decodeEval_iff.mp heval⟩
    split at hdec
    · obtain ⟨items, hitems, rfl⟩ := Option.map_eq_some_iff.mp hdec
      obtain ⟨⟨-, hne⟩, hpayload⟩ := decodeBatch_iff.mp hitems
      exact ⟨‹_›, hne, hpayload⟩
    split at hdec
    · obtain ⟨⟨id, prompt, items⟩, hmixed, rfl⟩ := Option.map_eq_some_iff.mp hdec
      obtain ⟨⟨-, -, hprompt, hitems⟩, hpayload⟩ := decodeMixed_iff.mp hmixed
      exact ⟨‹_›, ⟨hprompt, hitems⟩, 0, hpayload⟩
    split at hdec
    · split at hdec
      · exact absurd hdec (by simp)
      · rename_i hempty
        obtain rfl := Option.some.inj hdec
        exact ⟨‹_›, trivial, 0, List.eq_nil_of_length_eq_zero (not_ne_iff.mp hempty)⟩
    · exact absurd hdec (by simp)
  · rintro ⟨rfl, hfilled, reserved, rfl⟩
    obtain ⟨htokens, hitems, hmixed⟩ := counts_of_fits hlen
    cases c with
    | sync id tokens =>
      have hdec : decodeTokens (payloadOf reserved (.sync id tokens)) = some (id, tokens) :=
        decodeTokens_iff.mpr ⟨htokens id tokens (.inl rfl), reserved, rfl⟩
      simp [decodeCommand, typeCode, hdec]
    | verify id tokens =>
      have hdec : decodeTokens (payloadOf reserved (.verify id tokens)) = some (id, tokens) :=
        decodeTokens_iff.mpr ⟨htokens id tokens (.inr rfl), reserved, rfl⟩
      simp [decodeCommand, typeCode, hdec]
    | eval id seq token =>
      have hdec : decodeEval (payloadOf reserved (.eval id seq token)) = some (id, seq, token) :=
        decodeEval_iff.mpr ⟨reserved, rfl⟩
      simp [decodeCommand, typeCode, hdec]
    | rewind id value =>
      have hdec : decodeValue (payloadOf reserved (.rewind id value)) = some (id, value) :=
        decodeValue_iff.mpr ⟨reserved, rfl⟩
      simp [decodeCommand, typeCode, hdec]
    | invalidate id =>
      have hdec : decodeSessionId (payloadOf reserved (.invalidate id)) = some id := decodeSessionId_iff.mpr rfl
      simp [decodeCommand, typeCode, hdec]
    | stop => rfl
    | sessionCreate id value =>
      have hdec : decodeValue (payloadOf reserved (.sessionCreate id value)) = some (id, value) :=
        decodeValue_iff.mpr ⟨reserved, rfl⟩
      simp [decodeCommand, typeCode, hdec]
    | sessionDestroy id =>
      have hdec : decodeSessionId (payloadOf reserved (.sessionDestroy id)) = some id := decodeSessionId_iff.mpr rfl
      simp [decodeCommand, typeCode, hdec]
    | evalBatch items =>
      have hdec : decodeBatch (payloadOf reserved (.evalBatch items)) = some items :=
        decodeBatch_iff.mpr ⟨⟨hitems items rfl, hfilled⟩, reserved, rfl⟩
      simp [decodeCommand, typeCode, hdec]
    | mixedBatch id prompt items =>
      obtain ⟨hlenPrompt, hlenItems⟩ := hmixed id prompt items rfl
      have hdec : decodeMixed (payloadOf reserved (.mixedBatch id prompt items)) = some (id, prompt, items) :=
        decodeMixed_iff.mpr ⟨⟨hlenPrompt, hlenItems, hfilled.1, hfilled.2⟩, rfl⟩
      simp [decodeCommand, typeCode, hdec]

/-! ## Frames in a stream -/

theorem readFull_append {n : Nat} {front : List UInt8} (hlen : front.length = n) (rest : List UInt8) :
    readFull n (front ++ rest) = some (front, rest) := by
  subst hlen
  rw [readFull, if_pos (by simp), List.take_left, List.drop_left]

theorem readFull_eq_some {n : Nat} {stream front rest : List UInt8} (h : readFull n stream = some (front, rest)) :
    stream = front ++ rest ∧ front.length = n := by
  unfold readFull at h
  split at h
  · obtain ⟨rfl, rfl⟩ := Prod.mk.inj (Option.some.inj h)
    refine ⟨(List.take_append_drop n stream).symm, ?_⟩
    rw [List.length_take]
    omega
  · exact absurd h (by simp)

theorem readFrameHeader_eq_some {stream rest : List UInt8} {type bytes : UInt32}
    (h : readFrameHeader stream = some (type, bytes, rest)) :
    stream = frameHeader.enc (tpMagic, type, bytes) ++ rest := by
  obtain ⟨⟨head, stream'⟩, hhead, hmagic⟩ := Option.bind_eq_some_iff.mp h
  obtain ⟨rfl, hheadLen⟩ := readFull_eq_some hhead
  have henc := frameHeader.enc_dec head hheadLen
  have hif : (if (frameHeader.dec head).1 ≠ tpMagic then none
      else some ((frameHeader.dec head).2.1, (frameHeader.dec head).2.2, stream')) = some (type, bytes, rest) := hmagic
  generalize frameHeader.dec head = v at hif henc
  obtain ⟨magic, type', bytes'⟩ := v
  split at hif
  · exact absurd hif (by simp)
  · rename_i hmagic'
    obtain ⟨rfl, hrest⟩ := Prod.mk.inj (Option.some.inj hif)
    obtain ⟨rfl, rfl⟩ := Prod.mk.inj hrest
    rw [← henc, ← not_ne_iff.mp hmagic']

/-- A frame is accepted exactly where its payload is that of a command. -/
theorem recvCommand_iff {stream rest : List UInt8} {c : Command} :
    recvCommand stream = some (c, rest) ↔ Filled c ∧ ∃ reserved, (payloadOf reserved c).length ≤ uint32Max ∧
      stream = sendFrame (typeCode c) (payloadOf reserved c) ++ rest := by
  constructor
  · intro hrecv
    obtain ⟨⟨type, bytes, stream'⟩, hheader, hrecv⟩ := Option.bind_eq_some_iff.mp hrecv
    obtain ⟨⟨payload, stream''⟩, hpayload, hrecv⟩ := Option.bind_eq_some_iff.mp hrecv
    obtain ⟨c', hdec, hrest⟩ := Option.bind_eq_some_iff.mp hrecv
    obtain ⟨rfl, rfl⟩ := Prod.mk.inj (Option.some.inj hrest)
    obtain rfl := readFrameHeader_eq_some hheader
    obtain ⟨rfl, hpayloadLen⟩ := readFull_eq_some hpayload
    have hlen : payload.length ≤ uint32Max := by
      have hlt := bytes.toNat_lt
      rw [hpayloadLen]
      unfold uint32Max
      omega
    obtain ⟨rfl, hfilled, reserved, rfl⟩ := (decodeCommand_iff hlen).mp hdec
    refine ⟨hfilled, reserved, hlen, ?_⟩
    rw [sendFrame, hpayloadLen, UInt32.ofNat_toNat, List.append_assoc]
  · rintro ⟨hfilled, reserved, hlen, rfl⟩
    have hbytes : (UInt32.ofNat (payloadOf reserved c).length).toNat = (payloadOf reserved c).length := by
      apply UInt32.toNat_ofNat_of_lt'
      unfold uint32Max at hlen
      show _ < 2 ^ 32
      omega
    have hheader : readFrameHeader (sendFrame (typeCode c) (payloadOf reserved c) ++ rest) =
        some (typeCode c, UInt32.ofNat (payloadOf reserved c).length, payloadOf reserved c ++ rest) := by
      rw [readFrameHeader, sendFrame, List.append_assoc, readFull_append (frameHeader.length_enc _)]
      simp
    rw [recvCommand, hheader]
    simp only [Option.bind_eq_bind, Option.bind_some, hbytes]
    rw [readFull_append rfl, Option.bind_some, (decodeCommand_iff hlen).mpr ⟨rfl, hfilled, reserved, rfl⟩]
    rfl

/-- The worker's reads, one command after the other. -/
def recvCommands : Nat → List UInt8 → Option (List Command × List UInt8)
  | 0, stream => some ([], stream)
  | n + 1, stream => do
    let (c, stream) ← recvCommand stream
    let (cs, stream) ← recvCommands n stream
    some (c :: cs, stream)

/-- What the leader writes is read back, command by command. -/
theorem recvCommands_send (cs : List Command) {frames : List (List UInt8)} (h : cs.mapM send = some frames)
    (rest : List UInt8) : recvCommands cs.length (frames.flatten ++ rest) = some (cs, rest) := by
  induction cs generalizing frames with
  | nil =>
    obtain rfl : [] = frames := by simpa using h
    rfl
  | cons c cs ih =>
    rw [List.mapM_cons] at h
    obtain ⟨frame, hframe, h⟩ := Option.bind_eq_some_iff.mp h
    obtain ⟨frames', hframes, h⟩ := Option.bind_eq_some_iff.mp h
    obtain rfl := Option.some.inj h
    obtain ⟨⟨hfilled, hlen⟩, rfl⟩ := send_eq_some_iff.mp hframe
    rw [List.flatten_cons, List.append_assoc, List.length_cons, recvCommands,
      recvCommand_iff.mpr ⟨hfilled, 0, hlen, rfl⟩]
    show (recvCommands cs.length (frames'.flatten ++ rest)).bind _ = _
    rw [ih hframes]
    rfl

/-- The frames of the control stream: a frame is accepted exactly where it is that of a command, the leader
sends exactly the commands that fit a frame, and a stream of sent frames is read back as these commands. -/
theorem control_stream_codec :
    (∀ stream rest c, recvCommand stream = some (c, rest) ↔ Filled c ∧ ∃ reserved,
      (payloadOf reserved c).length ≤ uint32Max ∧
        stream = sendFrame (typeCode c) (payloadOf reserved c) ++ rest) ∧
    (∀ c frame, send c = some frame ↔ Sendable c ∧ frame = sendFrame (typeCode c) (payloadOf 0 c)) ∧
    ∀ cs frames rest, cs.mapM send = some frames →
      recvCommands cs.length (frames.flatten ++ rest) = some (cs, rest) :=
  ⟨fun _ _ _ => recvCommand_iff, fun _ _ => send_eq_some_iff, fun cs _ rest h => recvCommands_send cs h rest⟩

end Spark.Tp
