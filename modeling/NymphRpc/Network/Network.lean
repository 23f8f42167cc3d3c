import NymphRpc.Base.Runs
import NymphRpc.Client.Calling
import NymphRpc.Client.InStep
import NymphRpc.Client.OwnReply
import NymphRpc.Client.Rest
import NymphRpc.Message.Destruction
import NymphRpc.Session.Answers

/-!
# A client and its servers

All calls and listeners of a client, the session at the other end of each connection, and the
frames between them. What is sent whole comes in whole and in order, as the receive loops hand it
over when every header arrives whole; so a stream is the list of its frames here. A session takes
the frame of a request, serves its body and sends what it serves; a listener takes the frame of a
reply, decodes its body and looks the response ID up. Nothing is assumed about the replies, since
the sessions are part of the network.

The links are reliable: no socket closes, throws or sends part of a message. And a run goes on only
as long as the process does: it ends where a listener would delete a message for which `delete msg`
enters the destructor twice. Such a message holds a string, an array or a struct, and nobody waits
for it any more.

The constructor of a message may read as many bytes as there are in the frame, which is more than
it ever needs.
-/

namespace NymphRpc

open NymphMessage NymphRemoteClient NymphServerInstance

/-- What a connection leads to: the methods of the server, the handle of the session and what
the session meets with each body; and the methods that the client has of it. -/
structure Peer where
  server : NymphRemoteClient
  session : ℤ
  surroundings : ℕ → Surroundings
  known : NymphServerInstance

/-- The messages whose frames are between a connection and its session, each way, and those that
the session has served. -/
structure Link where
  requests : List NymphMessage
  served : List NymphMessage
  replies : List NymphMessage

/-- The arguments of a call, which were constructed for some values that a message has room for. -/
structure CallArguments where
  values : List NymphType
  content : List Value
  constructed : ConstructsAll content values
  short : (Content.regular content).size < 2 ^ 31

/-- The client, the links of its connections, and the name and the arguments each call was made
with. -/
structure Network where
  client : Calls
  links : ℕ → Link
  asked : ℕ → Bytes × CallArguments

/-- The session of a peer serves the frame of a request, which is its `n`-th. -/
def Peer.serve (p : Peer) (n : ℕ) (q : NymphMessage) : Session Unit :=
  NymphSession.serve p.server p.session q.frame.length (p.surroundings n) n (q.frame.drop 8)

/-- A call enters with the handle of its connection. -/
def Calls.enter (s : Calls) (j h : ℕ) (sync : Bool) : Calls :=
  { s.setCall j fun c => { c with handle := h, sync := sync, phase := .entered } with
    instancesMutex := if sync then s.instancesMutex else some j }

/-- The client has made the request of a call, which is serialised. -/
def Calls.request (s : Calls) (j : ℕ) (e : NymphException) (sent : NymphMessage) : Calls :=
  { (s.setCall j fun c => { c with
      phase := .serialized
      message := some sent
      request := .prepare e c.handle sent.messageId }).setConnection (s.calls j).handle
        fun c => { c with requested := sent.messageId :: c.requested } with
    messageId := s.messageId + 1 }

namespace Calls

variable (s : Calls) (j h i : ℕ) (sync : Bool) (e : NymphException) (sent : NymphMessage)

@[simp, grind =] theorem calls_enter : (s.enter j h sync).calls i =
    (s.setCall j fun c => { c with handle := h, sync := sync, phase := .entered }).calls i := rfl

@[simp, grind =] theorem connections_enter :
    (s.enter j h sync).connections i = s.connections i := rfl

@[simp, grind =] theorem received_enter : (s.enter j h sync).received = s.received := rfl

@[simp, grind =] theorem calls_request : (s.request j e sent).calls i =
    (s.setCall j fun c => { c with
      phase := .serialized
      message := some sent
      request := .prepare e c.handle sent.messageId }).calls i := rfl

@[simp, grind =] theorem connections_request : (s.request j e sent).connections i =
    (s.setConnection (s.calls j).handle fun c =>
      { c with requested := sent.messageId :: c.requested }).connections i := rfl

@[simp, grind =] theorem received_request : (s.request j e sent).received = s.received := rfl

end Calls

namespace Network

/-- The network before the first call. -/
def initial : Network where
  client := .initial
  links _ := ⟨[], [], []⟩
  asked _ := ([], ⟨[], [], .nil, by decide⟩)

/-- Change a link. -/
def setLink (t : Network) (h : ℕ) (f : Link → Link) : Network :=
  { t with links := Function.update t.links h (f (t.links h)) }

section

variable (t : Network) (h : ℕ) (f : Link → Link)

@[simp, grind =] theorem client_setLink : (t.setLink h f).client = t.client := rfl

@[simp, grind =] theorem asked_setLink : (t.setLink h f).asked = t.asked := rfl

@[simp, grind =] theorem links_setLink (i : ℕ) :
    (t.setLink h f).links i = if i = h then f (t.links i) else t.links i := by
  simp only [setLink, Function.update_apply]
  split_ifs with hi
  · rw [hi]
  · rfl

end

/-- The client does not have the method that a call asks for, or the arguments do not match its
signature. -/
def Refuses (peers : ℕ → Peer) (t : Network) (j : ℕ) : Prop :=
  ∀ node, (peers (t.client.calls j).handle).known.methods.find? (t.asked j).1 = some node →
    ¬node.method.Accepts (t.asked j).2.values

end Network

/-- The steps of a client and its servers. -/
inductive NetworkStep (peers : ℕ → Peer) : Network → Network → Prop
  /-- Any step of the client by which no call enters, nothing is composed, sent or received. The
  handle of a call is found. -/
  | client {t : Network} {c : Calls} (hstep : CallStep t.client c)
      (hphase : ∀ j, (t.client.calls j).phase = .ready ∨ (t.client.calls j).phase = .checking ∨
        (t.client.calls j).phase = .added → (c.calls j).phase = (t.client.calls j).phase)
      (hknown : ∀ j, (t.client.calls j).phase = .entered → (c.calls j).phase ≠ .returned .refused)
      (hreceived : c.received = t.client.received) : NetworkStep peers t { t with client := c }
  /-- A call is made on a connection that has its listener. -/
  | enter {t : Network} (j h : ℕ) (sync : Bool) (name : Bytes) (args : CallArguments)
      (hphase : (t.client.calls j).phase = .ready)
      (hfree : sync = false → t.client.instancesMutex = none)
      (hlisted : (t.client.connections h).listed = true) :
      NetworkStep peers t { t with
        client := t.client.enter j h sync
        asked := Function.update t.asked j (name, args) }
  | refuse {t : Network} (j : ℕ) (hphase : (t.client.calls j).phase = .checking)
      (hrefuses : t.Refuses peers j) :
      NetworkStep peers t { t with client := t.client.comeBackFromMethod j .refused }
  | compose {t : Network} (j : ℕ) (node : MethodNode) (um : MessageUninit) (e : NymphException)
      (heap : ℕ → UInt8) (msg sent : NymphMessage) (hphase : (t.client.calls j).phase = .checking)
      (hname : (peers (t.client.calls j).handle).known.methods.find? (t.asked j).1 = some node)
      (hmsg : node.method.composeMessage false um (t.asked j).2.values = .ok msg)
      (hcounter : t.client.messageId + 1 < 2 ^ 63)
      (hsent : msg.serialize (.ofNat t.client.messageId) heap = some sent) :
      NetworkStep peers t { t with client := t.client.request j e sent }
  /-- All bytes are sent. -/
  | send {t : Network} (j : ℕ) (q : NymphMessage) (hphase : (t.client.calls j).phase = .added)
      (hq : (t.client.calls j).message = some q) :
      NetworkStep peers t ({ t with
        client := (t.client.goTo j .sent).setConnection (t.client.calls j).handle fun c =>
          { c with methodsMutex := none } }.setLink (t.client.calls j).handle fun l =>
        { l with requests := l.requests ++ [q] })
  /-- The session takes a request, serves it and sends what it answers. -/
  | serve {t : Network} (h : ℕ) (q : NymphMessage) (rest : List NymphMessage)
      (hq : (t.links h).requests = q :: rest)
      (hserve : ((peers h).serve (t.links h).served.length q).result = .ok ()) :
      NetworkStep peers t (t.setLink h fun l =>
        { requests := rest
          served := l.served ++ [q]
          replies := l.replies ++ ((peers h).serve l.served.length q).log })
  /-- The listener takes a message that is corrupt, and deletes it, or a callback. -/
  | drop {t : Network} (h : ℕ) (r : NymphMessage) (rest : List NymphMessage) (m : NymphMessage)
      (u : ℤ → Uninit) (um : MessageUninit) (hr : (t.links h).replies = r :: rest)
      (hdecode : (decode u um r.frame.length (r.frame.drop 8)).result = .ok m)
      (hidle : (t.client.connections h).listener = .idle)
      (hm : m.corrupt = true ∨ m.isCallback = true)
      (hdelete : m.corrupt = true → DestroyedOnce m .delete) :
      NetworkStep peers t (t.setLink h fun l => { l with replies := rest })
  /-- The listener takes a message that nobody waits for, and deletes it. -/
  | notFound {t : Network} (h : ℕ) (r : NymphMessage) (rest : List NymphMessage)
      (m : NymphMessage) (u : ℤ → Uninit) (um : MessageUninit)
      (hr : (t.links h).replies = r :: rest)
      (hdecode : (decode u um r.frame.length (r.frame.drop 8)).result = .ok m)
      (hidle : (t.client.connections h).listener = .idle)
      (hm : m.corrupt = false ∧ m.isCallback = false)
      (hfree : (t.client.connections h).messagesMutex = false)
      (hlookup : (t.client.connections h).messages.find? m.responseId = none)
      (hdelete : DestroyedOnce m .delete) :
      NetworkStep peers t ({ t with client := t.client.receive h m }.setLink h fun l =>
        { l with replies := rest })
  /-- The listener takes a message and finds the request it belongs to. -/
  | find {t : Network} (h : ℕ) (r : NymphMessage) (rest : List NymphMessage)
      (m : NymphMessage) (j : ℕ) (u : ℤ → Uninit) (um : MessageUninit)
      (hr : (t.links h).replies = r :: rest)
      (hdecode : (decode u um r.frame.length (r.frame.drop 8)).result = .ok m)
      (hidle : (t.client.connections h).listener = .idle)
      (hm : m.corrupt = false ∧ m.isCallback = false)
      (hfree : (t.client.connections h).messagesMutex = false)
      (hlookup : (t.client.connections h).messages.find? m.responseId = some j) :
      NetworkStep peers t ({ t with
        client := (t.client.receive h m).setConnection h fun c =>
          { c with messagesMutex := true, listener := .found t.client.received.length j }
        }.setLink h fun l => { l with replies := rest })

/-- The states the network can get into. -/
def Network.Reachable (peers : ℕ → Peer) (t : Network) : Prop :=
  Relation.ReflTransGen (NetworkStep peers) initial t

/-- What the client has under a name, the server has under that name and under its ID. -/
def Reaches (s : NymphRemoteClient) (c : NymphServerInstance) : Prop :=
  ∀ name called, c.methods.find? name = some called →
    ∃ node, s.methods.find? name = some node ∧ s.methodOf called.method.id = some node.method

/-- A name that a client has keeps its node while others are added. -/
theorem find?_foldl_addEntry {name : Bytes} {node : MethodNode} (l : List (UInt32 × NymphMethod))
    {c : NymphServerInstance} (h : c.methods.find? name = some node) :
    (l.foldl addEntry c).methods.find? name = some node := by
  induction l generalizing c with
  | nil => exact h
  | cons e l ih =>
    apply ih
    rw [addEntry, addMethod, MethodTable.find?_insert]
    split_ifs with hname
    · rw [MethodTable.inserted, hname, h]
      rfl
    · exact h

/-- A client that has synchronised with a server whose clients are in step reaches it. -/
theorem NymphRemoteClient.Aligned.reaches {s : NymphRemoteClient} (hs : Aligned s)
    {c : NymphServerInstance} (hc : Synchronised s c) : Reaches s c := by
  intro name called hcalled
  by_cases hname : name = nymphsync
  · have hadded := hs.synchronised hc
    obtain ⟨⟨m, hm, hcallback⟩, -⟩ := hc
    obtain ⟨p, hp, hpointed⟩ := Option.bind_eq_some_iff.mp hm
    obtain ⟨node, hnode, rfl⟩ := Option.map_eq_some_iff.mp hpointed
    have hfind := (MethodTable.node?_eq_some.mp hnode).1
    have hbuiltIn := hs.builtIn _ _ hfind hcallback
    -- the client has given the built-in method the ID 0 before it added any other
    have hconnected : connected.methods.find? nymphsync = some _ := rfl
    have hknown := find?_foldl_addEntry (callable s) hconnected
    rw [hadded, hname, hknown] at hcalled
    refine ⟨node, by rw [hname, ← hbuiltIn, hfind], ?_⟩
    rw [← Option.some.inj hcalled]
    exact hm
  · obtain ⟨node, hnode, hid, -⟩ := hs.callsReach hc name called hname hcalled
    refine ⟨node, hnode, ?_⟩
    rw [methodOf, hid, Option.bind_some, MethodTable.node?_eq_some.mpr ⟨hnode, rfl⟩]
    rfl

/-- The application of the server has made harmless calls of `registerMethod` and `removeMethod`
before the client connected; the client has synchronised with the server; and the methods of the
server reply with values that leave room for what is around them. -/
structure Peer.Answering (p : Peer) : Prop where
  registered : ∃ calls, (∀ call ∈ calls, RegistryCall.IsPublic call) ∧
    Throughout Harmless init calls ∧ applyAll init calls = some p.server
  synchronised : Synchronised p.server p.known
  replying : Replying p.server Fits
  syncTable : ∀ methods, serializedMethods p.server = some methods → Fits (.string methods)

namespace Peer.Answering

variable {p : Peer} (hp : p.Answering)

include hp

/-- The clients of such a server are in step. -/
theorem aligned : Aligned p.server := by
  obtain ⟨calls, hpublic, hharmless, hs⟩ := hp.registered
  exact aligned_of_harmless hpublic hharmless hs hp.synchronised

/-- So the client reaches its methods. -/
theorem reaches : Reaches p.server p.known := hp.aligned.reaches hp.synchronised

end Peer.Answering

end NymphRpc
