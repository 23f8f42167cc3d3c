import NymphRpc.Message.Decode
import NymphRpc.Server.Dispatch
import NymphRpc.Session.Framing

/-!
# Sessions

`NymphSession::run` decodes each body it receives, calls the method of its ID and sends the
response; whatever goes wrong with a message, the loop goes on with the next one. What is
received does not depend on what is sent, so the bodies are those of the receive loop. Every
send is accepted here.

A message that is corrupt is deleted and no more is said of it: that `delete msg` enters the
destructor twice where it holds a string, an array or a struct is left to the destruction of
messages, and to the session table, where it is a fault.
-/

namespace NymphRpc

open NymphMessage NymphRemoteClient

/-- What a session meets when it serves a body: uninitialised members of the values and of the
messages it makes, the ID the counter hands out next, and the contents of fresh memory. -/
structure Surroundings where
  uninit : ℤ → Uninit
  request : MessageUninit
  response : MessageUninit
  freshId : UInt64
  heap : ℕ → UInt8

/-- What ends a session other than the end of the stream. -/
inductive SessionFault
  | receive (fault : ReceiveFault)
  | deletedBody
  | decode (fault : Fault)
  | call (fault : CallFault)
  | nullResponse

/-- A part of a session, which logs the messages it sends. -/
abbrev Session := Traced SessionFault NymphMessage

namespace NymphSession

/-- Send a response. -/
def respond (w : Surroundings) (response : NymphMessage) : Session Unit :=
  match response.serialize w.freshId w.heap with
  | none => Traced.fault .nullResponse
  | some sent => Traced.tell sent

variable (s : NymphRemoteClient) (handle : ℤ) (fuel : ℕ)

/-- Serve a decoded message. -/
def serveMessage (w : Surroundings) (call : ℕ) (msg : NymphMessage) : Session Unit :=
  if msg.corrupt then pure ()
  else if msg.state ≠ 0 then pure ()
  else
    match callMethodCallback s w.response call handle msg.methodId msg with
    | .error fault => Traced.fault (.call fault)
    | .ok none => pure ()
    | .ok (some response) => respond w response

/-- Serve a body. -/
def serve (w : Surroundings) (call : ℕ) (body : Bytes) : Session Unit :=
  match (decode w.uninit w.request fuel body).result with
  | .error fault => Traced.fault (.decode fault)
  | .ok msg => serveMessage s handle w call msg

/-- Serve what is handed over, from some call on. -/
def serveAll (w : ℕ → Surroundings) : ℕ → List Handed → Session Unit
  | _, [] => pure ()
  | _, .deleted _ :: _ => Traced.fault .deletedBody
  | call, .body body :: rest => do
    serve s handle fuel (w call) call body
    serveAll w (call + 1) rest

/-- `NymphSession::run`. -/
def run (w : ℕ → Surroundings) (arrived : ℕ → ℕ) (stream : Bytes) : Session Unit := do
  let received := NymphSession.receive arrived fuel stream
  serveAll s handle fuel w 0 received.log
  match received.result with
  | .error fault => Traced.fault (.receive fault)
  | .ok () => pure ()

variable {s : NymphRemoteClient} {handle : ℤ} {fuel : ℕ}

/-- Serving a body that decodes is serving the message. -/
theorem serve_of_decode {w : Surroundings} {call : ℕ} {body : Bytes} {msg : NymphMessage}
    (h : (decode w.uninit w.request fuel body).result = .ok msg) :
    serve s handle fuel w call body = serveMessage s handle w call msg := by
  rw [serve, h]

/-- A message in a good state is served by the method of its ID. -/
theorem serveMessage_of_ok {w : Surroundings} {call : ℕ} {msg : NymphMessage}
    {response : Option NymphMessage} (hcorrupt : msg.corrupt = false) (hstate : msg.state = 0)
    (h : callMethodCallback s w.response call handle msg.methodId msg = .ok response) :
    serveMessage s handle w call msg = response.elim (pure ()) (respond w) := by
  rw [serveMessage, hcorrupt, hstate, h]
  cases response <;> rfl

/-- If the body of every frame can be served, all are served in order, and each on its own. -/
theorem serveAll_frames {w : ℕ → Surroundings} {frames : List Bytes} (call : ℕ)
    (h : ∀ i f, frames[i]? = some f →
      (serve s handle fuel (w (call + i)) (call + i) (f.drop 8)).result = .ok ()) :
    (serveAll s handle fuel w call (frames.map fun f => .body (f.drop 8))).result = .ok () ∧
      (serveAll s handle fuel w call (frames.map fun f => .body (f.drop 8))).log =
        (frames.mapIdx fun i f =>
          (serve s handle fuel (w (call + i)) (call + i) (f.drop 8)).log).flatten := by
  induction frames generalizing call with
  | nil => exact ⟨rfl, rfl⟩
  | cons f frames ih =>
    have hfirst := h 0 f rfl
    rw [Nat.add_zero] at hfirst
    have hnext : ∀ i, call + 1 + i = call + (i + 1) := fun i => by omega
    obtain ⟨hresult, hlog⟩ := ih (call + 1) fun i body hbody => by
      rw [hnext]
      exact h (i + 1) body hbody
    simp only [hnext] at hlog
    rw [List.map_cons, serveAll, Traced.result_bind_of_ok hfirst, Traced.log_bind_of_ok hfirst,
      List.mapIdx_cons, List.flatten_cons, hlog, Nat.add_zero]
    exact ⟨hresult, rfl⟩

/-- A session serves the frames whose headers arrive whole. -/
theorem run_frames {w : ℕ → Surroundings} {arrived : ℕ → ℕ} {frames : List Bytes}
    (hframed : ∀ f ∈ frames, Framed f) (harrive : ArriveWhole arrived frames)
    (hfuel : frames.flatten.length < fuel)
    (h : ∀ i f, frames[i]? = some f → (serve s handle fuel (w i) i (f.drop 8)).result = .ok ()) :
    (run s handle fuel w arrived frames.flatten).result = .ok () ∧
      (run s handle fuel w arrived frames.flatten).log =
        (frames.mapIdx fun i f => (serve s handle fuel (w i) i (f.drop 8)).log).flatten := by
  obtain ⟨hlog, hresult⟩ : (NymphSession.receive arrived fuel frames.flatten).log =
      frames.map (fun f => .body (f.drop 8)) ∧
        (NymphSession.receive arrived fuel frames.flatten).result = .ok () :=
    receiveLoop_frames hframed harrive hfuel
  have hserve : ∀ i f, frames[i]? = some f →
      (serve s handle fuel (w (0 + i)) (0 + i) (f.drop 8)).result = .ok () := by
    intro i f hf
    rw [Nat.zero_add]
    exact h i f hf
  obtain ⟨hserved, hlogs⟩ := serveAll_frames 0 hserve
  simp only [Nat.zero_add] at hlogs
  rw [run]
  rw [hlog, hresult, Traced.result_bind_of_ok hserved, Traced.log_bind_of_ok hserved, hlogs]
  exact ⟨rfl, List.append_nil _⟩

end NymphSession

end NymphRpc
