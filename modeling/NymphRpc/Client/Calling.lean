import NymphRpc.Base.Buffer
import NymphRpc.Client.CallMethod
import NymphRpc.Client.Sync

/-!
# Calling a method of a server instance

What `callMethod` and `callMethodId` do to their out-parameters and to the pending requests of
their listener, from beginning to end. The first sets every member of a new request that it
reads later; the second leaves `exception` as it was in memory.

What the rest of the program does meanwhile is given beforehand: whether the bytes are sent, how
the wait ends, and what happens to the other pending requests. The callback flag of a method is
a member that no table of methods shows; it is looked up by the number of the node.
-/

namespace NymphRpc

/-- The characters of a text. -/
def characters (text : String) : Bytes := text.toList.map fun c => .ofNat c.toNat

/-- What becomes of the bytes of a request. -/
inductive Sending
  | whole
  | fewer
  | threw (message : Bytes)

/-- How the wait for the response ends. -/
inductive Waiting
  | timedOut
  | signalled (m : NymphMessage)

/-- What a call meets with. -/
structure CallEnvironment where
  isCallback : ℕ → Bool
  um : MessageUninit
  freshId : UInt64
  heap : ℕ → UInt8
  listed : Bool
  sending : Sending
  waiting : Waiting
  meanwhile : OrderedMap.Map UInt64 ℕ → OrderedMap.Map UInt64 ℕ
  listedAfter : Bool

/-- The out-parameters of a call. -/
structure CallOut where
  returnvalue : Option NymphType
  result : Bytes

/-- What a call comes back with and leaves behind; `sent` is what was given to the socket. -/
structure CallEnd where
  returned : Bool
  returnvalue : Option NymphType
  result : Bytes
  messages : OrderedMap.Map UInt64 ℕ
  sent : Option Bytes

/-- What `NymphMethod::call` comes back with and leaves behind. -/
structure Called where
  returned : Bool
  request : NymphRequest
  result : Bytes
  messages : OrderedMap.Map UInt64 ℕ
  sent : Option Bytes

namespace NymphMethod

/-- The text for an argument of the wrong type. -/
def mismatchText (m : NymphMethod) (i : ℕ) (expected got : NymphTypes) : Bytes :=
  characters s!"Type mismatch on parameter {i} for method " ++ m.name ++
    characters s!". Expected: {expected.toByte.toNat}, got: {got.toByte.toNat}."

/-- The loop over the arguments, which checks each and adds it to the message. -/
def addArguments (m : NymphMethod) :
    ℕ → List NymphType → List NymphTypes → NymphMessage → Except Bytes NymphMessage
  | i, value :: values, parameter :: parameters, msg =>
    if value.valuetype ≠ parameter ∧ parameter ≠ .any then
      .error (m.mismatchText i parameter value.valuetype)
    else addArguments m (i + 1) values parameters (msg.addValue value)
  | _, _, _, msg => .ok msg

/-- The message that a call begins with. -/
def newMessage (m : NymphMethod) (isCallback : Bool) (um : MessageUninit) : NymphMessage :=
  let msg := NymphMessage.ofMethodId um m.id
  if isCallback then msg.setCallback m.name else msg

/-- The `int` that keeps the size of a vector. -/
@[irreducible] def intSize (n : ℕ) : ℤ := Buffer.int32 n

/-- The `int` that keeps a size below 2^31 is the size. -/
theorem intSize_eq {n : ℕ} (hn : n < 2 ^ 31) : intSize n = n := by
  delta intSize
  rw [Buffer.int32_eq] <;> omega

/-- The message of a call, or the text of what is wrong with the arguments. -/
def composeMessage (m : NymphMethod) (isCallback : Bool) (um : MessageUninit)
    (values : List NymphType) : Except Bytes NymphMessage :=
  if intSize values.length ≠ intSize m.parameters.length then
    .error (characters "Provided value array length does not match method signature.")
  else
    m.addArguments 0 (values.take (intSize values.length).toNat) m.parameters
      (m.newMessage isCallback um)

/-- Serialise the message of the call `j`, add its request to the listener, and send it; or come
back with the text of what is wrong. -/
def sendMessage (env : CallEnvironment) (j : ℕ) (request : NymphRequest)
    (messages : OrderedMap.Map UInt64 ℕ) (result : Bytes) : Except Bytes NymphMessage → Called
  | .error text => ⟨false, request, text, messages, none⟩
  | .ok msg =>
    let msg := (msg.serialize env.freshId env.heap).getD msg
    let request := { request with messageId := msg.messageId }
    let messages := if env.listed then messages.insert request.messageId j else messages
    match env.sending with
    | .whole => ⟨true, request, result, messages, some msg.frame⟩
    | .fewer => ⟨false, request, characters "Failed to send message: ", messages, some msg.frame⟩
    | .threw message =>
      ⟨false, request, characters "Failed to send message: " ++ message, messages, some msg.frame⟩

/-- `call`, for the request of the call `j`. -/
def call (m : NymphMethod) (isCallback : Bool) (env : CallEnvironment) (j : ℕ)
    (request : NymphRequest) (values : List NymphType) (messages : OrderedMap.Map UInt64 ℕ)
    (result : Bytes) : Called :=
  sendMessage env j request messages result (m.composeMessage isCallback env.um values)

/-- An argument fits a parameter. -/
def Fits (value : NymphType) (parameter : NymphTypes) : Prop :=
  value.valuetype = parameter ∨ parameter = .any

instance (value : NymphType) (parameter : NymphTypes) : Decidable (Fits value parameter) :=
  inferInstanceAs (Decidable (_ ∨ _))

/-- There are as many arguments as parameters, counted in `int`s, and those that are looked at
fit. -/
def Accepts (m : NymphMethod) (values : List NymphType) : Prop :=
  intSize values.length = intSize m.parameters.length ∧
    ∀ p ∈ (values.take (intSize values.length).toNat).zip m.parameters, Fits p.1 p.2

instance (m : NymphMethod) (values : List NymphType) : Decidable (m.Accepts values) :=
  inferInstanceAs (Decidable (_ ∧ _))

end NymphMethod

/-- The text of an exception. -/
def NymphException.text (e : NymphException) : Bytes :=
  characters s!"{e.id.toNat} - " ++ e.value

/-- The request that is waited for is no longer pending. -/
def removeMessage (env : CallEnvironment) (messageId : UInt64)
    (messages : OrderedMap.Map UInt64 ℕ) : OrderedMap.Map UInt64 ℕ :=
  if env.listedAfter then (env.meanwhile messages).erase messageId else env.meanwhile messages

/-- What both functions do once the request was sent, or not: they wait for the response, remove
the request, and hand over what is in it. -/
def awaitResponse (env : CallEnvironment) (called : Called) (out : CallOut) (timeOutText : Bytes) :
    CallEnd :=
  if called.returned = false then
    ⟨false, out.returnvalue, called.result, called.messages, called.sent⟩
  else
    let messages := removeMessage env called.request.messageId called.messages
    match env.waiting with
    | .timedOut => ⟨false, out.returnvalue, timeOutText, messages, called.sent⟩
    | .signalled m =>
      let request := called.request.store 0 m
      if request.exception then
        ⟨true, none, request.exceptionData.text, messages, called.sent⟩
      else ⟨true, request.response.bind fun _ => m.response, called.result, messages, called.sent⟩

namespace NymphServerInstance

/-- The text of a time-out of `callMethod`. -/
def timeOutText (name : Bytes) : Bytes :=
  characters "Method call for " ++ name ++ characters " timed out while waiting for response."

/-- The text of a time-out of `callMethodId`. -/
def timeOutTextId (id : UInt32) : Bytes :=
  characters s!"Method call for ID {id.toNat} timed out while waiting for response."

/-- What comes back when there is no such method. -/
def notFound (messages : OrderedMap.Map UInt64 ℕ) (out : CallOut) : CallEnd :=
  ⟨false, out.returnvalue, characters "Specified method name was not found.", messages, none⟩

section

variable (c : NymphServerInstance) (handle : ℕ) (env : CallEnvironment) (j : ℕ)
  (memory : NymphRequest) (messages : OrderedMap.Map UInt64 ℕ)

/-- `callMethod`, as the call `j` whose request is allocated in some memory. -/
def callMethod (name : Bytes) (values : List NymphType) (out : CallOut) : CallEnd :=
  match c.methods.find? name with
  | none => notFound messages out
  | some node =>
    let request := { memory with
      response := none
      exception := false
      handle := handle
      mutex := some .caller }
    awaitResponse env (node.method.call (env.isCallback node.number) env j request values messages
      out.result) out (timeOutText name)

/-- `callMethodId`, as the call `j` whose request is allocated in some memory. There is no end if
the method was freed. -/
def callMethodId (id : UInt32) (values : List NymphType) (out : CallOut) : Option CallEnd :=
  match c.methodIds.find? id with
  | none => some (notFound messages out)
  | some p => (c.node? p).map fun node =>
    let request := { memory with
      response := none
      handle := handle
      mutex := some .caller }
    awaitResponse env (node.method.call (env.isCallback node.number) env j request values messages
      out.result) out (timeOutTextId id)

end

end NymphServerInstance

/-! ### What `call` does -/

namespace NymphMethod

variable {m : NymphMethod} {isCallback : Bool} {env : CallEnvironment} {j : ℕ}
  {request : NymphRequest} {values : List NymphType} {messages : OrderedMap.Map UInt64 ℕ}
  {result : Bytes}

/-- The loop comes to its end if the arguments fit. -/
theorem addArguments_ok_iff {i : ℕ} {parameters : List NymphTypes} {msg : NymphMessage} :
    (∃ msg', m.addArguments i values parameters msg = .ok msg') ↔
      ∀ p ∈ values.zip parameters, Fits p.1 p.2 := by
  induction values generalizing i parameters msg with
  | nil => simp [addArguments]
  | cons value values ih =>
    cases parameters with
    | nil => simp [addArguments]
    | cons parameter parameters =>
      rw [addArguments, List.zip_cons_cons, List.forall_mem_cons]
      by_cases hfits : Fits value parameter
      · rw [if_neg (by rintro ⟨hne, hany⟩; exact hfits.elim hne hany), ih]
        exact ⟨fun hrest => ⟨hfits, hrest⟩, fun hall => hall.2⟩
      · have hmismatch : value.valuetype ≠ parameter ∧ parameter ≠ .any := not_or.mp hfits
        rw [if_pos hmismatch]
        exact ⟨fun ⟨_, herror⟩ => (by cases herror), fun hall => absurd hall.1 hfits⟩

/-- Adding arguments makes no reply of a message. -/
theorem isReply_addArguments {i : ℕ} {parameters : List NymphTypes} {msg msg' : NymphMessage}
    (h : m.addArguments i values parameters msg = .ok msg') : msg'.isReply = msg.isReply := by
  induction values generalizing i parameters msg with
  | nil =>
    rw [addArguments] at h
    · cases h
      rfl
    · intro _ _ _ _ hvalues
      cases hvalues
  | cons value values ih =>
    cases parameters with
    | nil =>
      rw [addArguments] at h
      · cases h
        rfl
      · intro _ _ _ _ _ hparameters
        cases hparameters
    | cons parameter parameters =>
      rw [addArguments] at h
      split_ifs at h
      exact (ih h).trans rfl

/-- A call begins with a message that is no reply. -/
theorem isReply_newMessage (um : MessageUninit) :
    (m.newMessage isCallback um).isReply = false := by
  cases isCallback with
  | false =>
    change decide ((0 : UInt32) &&& flagReply ≠ 0) = false
    decide
  | true =>
    change decide (((0 : UInt32) ||| flagCallback) &&& flagReply ≠ 0) = false
    decide

/-- A message is composed if the arguments are accepted. -/
theorem composeMessage_ok_iff {um : MessageUninit} :
    (∃ msg, m.composeMessage isCallback um values = .ok msg) ↔ m.Accepts values := by
  rw [Accepts, composeMessage]
  split_ifs with hcount
  · exact ⟨fun ⟨_, herror⟩ => (by cases herror), fun haccepts => absurd haccepts.1 hcount⟩
  · rw [addArguments_ok_iff, and_iff_right (not_not.mp hcount)]

/-- A message that is composed is no reply. -/
theorem isReply_composeMessage {um : MessageUninit} {msg : NymphMessage}
    (h : m.composeMessage isCallback um values = .ok msg) : msg.isReply = false := by
  rw [composeMessage] at h
  split_ifs at h
  exact (isReply_addArguments h).trans (isReply_newMessage um)

/-- A message that is composed can be serialised. -/
theorem serialize_of_composeMessage {um : MessageUninit} {msg : NymphMessage}
    (h : m.composeMessage isCallback um values = .ok msg) (freshId : UInt64) (heap : ℕ → UInt8) :
    ∃ s, msg.serialize freshId heap = some s := by
  rw [NymphMessage.serialize, NymphMessage.payload, isReply_composeMessage h,
    if_neg Bool.false_ne_true]
  split_ifs <;> exact ⟨_, rfl⟩

/-- What is given to the socket is a message that was serialised. -/
theorem sent_call {bytes : Bytes}
    (h : (m.call isCallback env j request values messages result).sent = some bytes) :
    ∃ msg s : NymphMessage, m.composeMessage isCallback env.um values = .ok msg ∧
      msg.serialize env.freshId env.heap = some s ∧ bytes = s.frame := by
  rw [call] at h
  cases hcompose : m.composeMessage isCallback env.um values with
  | error text =>
    rw [hcompose] at h
    cases h
  | ok msg =>
    obtain ⟨s, hs⟩ := serialize_of_composeMessage hcompose env.freshId env.heap
    refine ⟨msg, s, rfl, hs, ?_⟩
    rw [hcompose, sendMessage, hs, Option.getD_some] at h
    cases hsending : env.sending <;> rw [hsending] at h <;> exact (Option.some.inj h).symm

/-- A call succeeds if its arguments are accepted and its bytes are sent. -/
theorem returned_call : (m.call isCallback env j request values messages result).returned = true ↔
    m.Accepts values ∧ env.sending = .whole := by
  have hok : (∃ msg, m.composeMessage isCallback env.um values = .ok msg) ↔ m.Accepts values :=
    composeMessage_ok_iff
  rw [← hok, call]
  cases m.composeMessage isCallback env.um values with
  | error text => simp [sendMessage]
  | ok msg => cases hsending : env.sending <;> simp [sendMessage, hsending]

/-- A call that succeeds writes no text. -/
theorem result_call
    (h : (m.call isCallback env j request values messages result).returned = true) :
    (m.call isCallback env j request values messages result).result = result := by
  rw [call] at h ⊢
  cases hcompose : m.composeMessage isCallback env.um values with
  | error text =>
    rw [hcompose] at h
    cases h
  | ok msg =>
    rw [hcompose] at h
    cases hsending : env.sending <;> simp_all [sendMessage]

/-- A call writes no member of its request but the message ID. -/
theorem request_call : ∃ messageId,
    (m.call isCallback env j request values messages result).request =
      { request with messageId := messageId } := by
  rw [call]
  cases m.composeMessage isCallback env.um values with
  | error text => exact ⟨request.messageId, rfl⟩
  | ok msg =>
    refine ⟨((msg.serialize env.freshId env.heap).getD msg).messageId, ?_⟩
    rw [sendMessage]
    cases env.sending <;> rfl

/-- A call does not look at the exception flag of its request. -/
theorem call_exception (exception : Bool) :
    m.call isCallback env j { request with exception := exception } values messages result =
      let called := m.call isCallback env j request values messages result
      { called with request := { called.request with exception := exception } } := by
  rw [call, call]
  cases m.composeMessage isCallback env.um values with
  | error text => rfl
  | ok msg =>
    rw [sendMessage, sendMessage]
    cases env.sending <;> rfl

end NymphMethod

/-! ### How a call ends -/

/-- The response of a reply is stored, and otherwise none. -/
theorem NymphRequest.response_store (request : NymphRequest) (k : ℕ) (m : NymphMessage) :
    (request.store k m).response = if m.isReply then m.response.map fun _ => k else none := by
  rw [store]
  split_ifs <;> rfl

section

variable {env : CallEnvironment} {called : Called} {out : CallOut} {text : Bytes}

/-- A request that was not sent is not waited for, nor removed. -/
theorem awaitResponse_unsent (h : called.returned = false) : awaitResponse env called out text =
    ⟨false, out.returnvalue, called.result, called.messages, called.sent⟩ := by
  rw [awaitResponse, if_pos h]

/-- A wait that times out. -/
theorem awaitResponse_timedOut (h : called.returned = true) (hwaiting : env.waiting = .timedOut) :
    awaitResponse env called out text = ⟨false, out.returnvalue, text,
      removeMessage env called.request.messageId called.messages, called.sent⟩ := by
  rw [awaitResponse, if_neg (by simp [h]), hwaiting]

/-- A wait that ends with a message which leaves an exception in the request. -/
theorem awaitResponse_exception {m : NymphMessage} (h : called.returned = true)
    (hwaiting : env.waiting = .signalled m)
    (hexception : (called.request.store 0 m).exception = true) :
    awaitResponse env called out text =
      ⟨true, none, (called.request.store 0 m).exceptionData.text,
        removeMessage env called.request.messageId called.messages, called.sent⟩ := by
  rw [awaitResponse, if_neg (by simp [h]), hwaiting]
  exact if_pos hexception

/-- A wait that ends with a message which leaves no exception in the request. -/
theorem awaitResponse_response {m : NymphMessage} (h : called.returned = true)
    (hwaiting : env.waiting = .signalled m)
    (hexception : (called.request.store 0 m).exception = false) :
    awaitResponse env called out text =
      ⟨true, (called.request.store 0 m).response.bind fun _ => m.response, called.result,
        removeMessage env called.request.messageId called.messages, called.sent⟩ := by
  rw [awaitResponse, if_neg (by simp [h]), hwaiting]
  exact if_neg (by simp [hexception])

/-- A call whose request had no exception flag hands the response of a reply over, and nothing of
another message. -/
theorem returnvalue_awaitResponse {m : NymphMessage} (h : called.returned = true)
    (hwaiting : env.waiting = .signalled m) (hflag : called.request.exception = false) :
    (awaitResponse env called out text).returned = true ∧
      (awaitResponse env called out text).returnvalue =
        if m.isReply then m.response else none := by
  have hresponse := called.request.response_store 0 m
  cases hexception : (called.request.store 0 m).exception with
  | true =>
    have hreply : ¬m.isReply := by
      intro hreply
      rw [NymphRequest.store, if_pos hreply] at hexception
      exact Bool.false_ne_true (hflag.symm.trans hexception)
    rw [awaitResponse_exception h hwaiting hexception, if_neg hreply]
    exact ⟨rfl, rfl⟩
  | false =>
    rw [awaitResponse_response h hwaiting hexception, hresponse]
    refine ⟨rfl, ?_⟩
    split_ifs
    · cases m.response <;> rfl
    · rfl

end

end NymphRpc
