import NymphRpc.Network.HandledAll
import NymphRpc.Network.Rest

/-!
# Calls and callbacks on one connection

A session sends its replies and the callbacks of its server over one socket, so they come in one
after another as they were sent, and the listener is one thread: it looks a reply up only when
`addRequest` has returned for the callback before, and passes a callback only when it is through
with the reply before. Apart from that the calls and the callbacks take their steps as each do
alone.

So what comes in later was sent later, be it a reply or a callback.
-/

namespace NymphRpc

open NymphMessage

/-- What the listener of a connection takes next. -/
inductive FrameKind
  | reply
  | callback
  deriving DecidableEq

/-- The calls and the callbacks, and the order in which the replies and the callbacks on the links
were sent. -/
structure Traffic (ε : Type) where
  calls : Network
  callbacks : CallbackNetwork ε
  frames : ℕ → List FrameKind

namespace Network

/-- A session has sent these messages, and no listener has taken one. -/
def Adds (t t' : Network) (h : ℕ) (log : List NymphMessage) : Prop :=
  ∀ i, (t'.links i).replies = (t.links i).replies ++ if i = h then log else []

/-- The listener has taken the next message of its session, and no session has sent one. -/
def Takes (t t' : Network) (h : ℕ) : Prop :=
  ∃ r rest, (t.links h).replies = r :: rest ∧
    ∀ i, (t'.links i).replies = if i = h then rest else (t.links i).replies

end Network

namespace Traffic

/-- Before the first call. -/
def initial {ε : Type} : Traffic ε := ⟨.initial, .initial, fun _ => []⟩

/-- The kinds of what is on a link. -/
def setFrames {ε : Type} (t : Traffic ε) (h : ℕ) (frames : List FrameKind) : Traffic ε :=
  { t with frames := Function.update t.frames h frames }

section

variable {ε : Type} (t : Traffic ε) (h : ℕ) (frames : List FrameKind)

@[simp] theorem calls_setFrames : (t.setFrames h frames).calls = t.calls := rfl

@[simp] theorem callbacks_setFrames : (t.setFrames h frames).callbacks = t.callbacks := rfl

@[simp] theorem frames_setFrames (i : ℕ) :
    (t.setFrames h frames).frames i = if i = h then frames else t.frames i := by
  simp only [setFrames, Function.update_apply]

end

end Traffic

open Network Traffic

/-- The steps of the calls and the callbacks. -/
inductive TrafficStep {ε : Type} (peers : ℕ → Peer) (poolSize : ℕ) (data : ℕ → Option ℕ) :
    Traffic ε → Traffic ε → Prop
  /-- A step of the calls by which no reply is taken. -/
  | calls {t : Traffic ε} {n : Network} (h : ℕ) (log : List NymphMessage)
      (hstep : NetworkStep peers t.calls n) (hadds : t.calls.Adds n h log) :
      TrafficStep peers poolSize data t
        ({ t with calls := n }.setFrames h (t.frames h ++ log.map fun _ => FrameKind.reply))
  /-- The listener takes a reply. -/
  | reply {t : Traffic ε} {n : Network} (h : ℕ) (rest : List FrameKind)
      (hstep : NetworkStep peers t.calls n) (htakes : t.calls.Takes n h)
      (hframes : t.frames h = .reply :: rest)
      (hidle : ∀ (r : ℕ) (p : PassedRequest), t.callbacks.requests[r]? = some p → p.handle = h →
        t.callbacks.dispatcher.calls r = .returned) :
      TrafficStep peers poolSize data t ({ t with calls := n }.setFrames h rest)
  /-- A step of the callbacks by which none is sent or taken. -/
  | callbacks {t : Traffic ε} {c : CallbackNetwork ε}
      (hstep : CallbackStep poolSize (fun h => (peers h).session) data t.callbacks c)
      (hsent : c.sent = t.callbacks.sent) (htaken : c.taken = t.callbacks.taken) :
      TrafficStep peers poolSize data t { t with callbacks := c }
  /-- A server calls a callback. -/
  | callCallback {t : Traffic ε} {c : CallbackNetwork ε} (h : ℕ) (f : CallbackFrame)
      (hstep : CallbackStep poolSize (fun h => (peers h).session) data t.callbacks c)
      (hsent : c.sent = Function.update t.callbacks.sent h (t.callbacks.sent h ++ [f]))
      (htaken : c.taken = t.callbacks.taken) :
      TrafficStep peers poolSize data t
        ({ t with callbacks := c }.setFrames h (t.frames h ++ [FrameKind.callback]))
  /-- The listener takes a callback. -/
  | take {t : Traffic ε} {c : CallbackNetwork ε} (h : ℕ) (rest : List FrameKind)
      (hstep : CallbackStep poolSize (fun h => (peers h).session) data t.callbacks c)
      (hsent : c.sent = t.callbacks.sent)
      (htaken : c.taken = Function.update t.callbacks.taken h (t.callbacks.taken h + 1))
      (hframes : t.frames h = .callback :: rest)
      (hidle : (t.calls.client.connections h).listener = .idle) :
      TrafficStep peers poolSize data t ({ t with callbacks := c }.setFrames h rest)

/-- The states that the calls and the callbacks can get into together. -/
def Traffic.Reachable {ε : Type} (peers : ℕ → Peer) (poolSize : ℕ) (data : ℕ → Option ℕ)
    (t : Traffic ε) : Prop :=
  Relation.ReflTransGen (TrafficStep peers poolSize data) initial t

/-! ### What was sent -/

namespace Network

variable {peers : ℕ → Peer} {t t' : Network}

/-- Nothing comes in while no listener takes anything. -/
theorem received_of_adds {h : ℕ} {log : List NymphMessage} (hstep : NetworkStep peers t t')
    (hadds : t.Adds t' h log) : t'.client.received = t.client.received := by
  cases hstep with
  | client hstep hphase hknown hreceived => exact hreceived
  | enter | refuse | compose | send | serve | drop => rfl
  | notFound i r rest m u um hr | find i r rest m j u um hr =>
    have hlength := congrArg List.length (hadds i)
    simp [hr] at hlength
    omega

/-- What comes in is the next message of the session whose listener takes it. -/
theorem received_of_takes {h : ℕ} {r : NymphMessage} {rest : List NymphMessage}
    (hstep : NetworkStep peers t t') (hr : (t.links h).replies = r :: rest)
    (hrest : ∀ i, (t'.links i).replies = if i = h then rest else (t.links i).replies) {i : ℕ}
    {m : NymphMessage} (hm : (i, m) ∈ t'.client.received) :
    (i, m) ∈ t.client.received ∨ i = h ∧ Decodes r m := by
  cases hstep with
  | client hstep hphase hknown hreceived =>
    rw [hreceived] at hm
    exact .inl hm
  | enter | refuse | compose | send | serve | drop => exact .inl hm
  | notFound k r' rest' m' u um hr' hdecode | find k r' rest' m' j u um hr' hdecode =>
    obtain rfl : k = h := by
      by_contra hne
      have hlength := congrArg List.length (hrest k)
      simp [hne, hr'] at hlength
    cases hr.symm.trans hr'
    rcases List.mem_append.mp hm with hold | hnew
    · exact .inl hold
    · obtain ⟨rfl, rfl⟩ := Prod.mk.inj (List.mem_singleton.mp hnew)
      exact .inr ⟨rfl, u, um, hdecode⟩

/-- What was served stays so. -/
theorem served_step (hstep : NetworkStep peers t t') {h : ℕ} {q : NymphMessage}
    (hq : q ∈ (t.links h).served) : q ∈ (t'.links h).served := by
  cases hstep <;> grind

/-- What has come in for a request, the session has served before it was sent. -/
theorem Linked.served_of_decodes (hs : t.Linked peers) {h : ℕ} {r m : NymphMessage}
    (hr : r ∈ (t.links h).replies) (hm : Decodes r m) :
    ∃ q ∈ (t.links h).served, q.messageId = m.responseId := by
  obtain ⟨u, um, hdecode⟩ := hm
  obtain ⟨-, n, q, v, hq, hsends⟩ := hs.replies h r hr
  exact ⟨q, List.mem_of_getElem? hq, (hsends.received hdecode).carried.1.symm⟩

/-- So it is with what has come in before. -/
theorem Linked.served_of_received (hs : t.Linked peers) {h : ℕ} {m : NymphMessage}
    (hm : (h, m) ∈ t.client.received) : ∃ q ∈ (t.links h).served, q.messageId = m.responseId := by
  obtain ⟨n, q, r, v, hq, -, hreceived⟩ := hs.received h m hm
  exact ⟨q, List.mem_of_getElem? hq, hreceived.carried.1.symm⟩

/-- A served request with the message ID of a call is the one of that call. -/
theorem Linked.eq_of_messageId (hs : t.Linked peers) (hc : t.client.Matched) {j h : ℕ}
    {q q' : NymphMessage} (hj : (t.client.calls j).phase.identified)
    (hq : (t.client.calls j).message = some q) (hq' : q' ∈ (t.links h).served)
    (hid : q'.messageId = q.messageId) : q' = q := by
  obtain ⟨i, -, hsent, hmessage⟩ := hs.sent h q' (List.mem_append_left _ hq')
  have hi := CallPhase.identified_of_isSent hsent
  obtain ⟨x, hx, hxid⟩ := hc.serialized i hi
  obtain ⟨y, hy, hyid⟩ := hc.serialized j hj
  cases hmessage.symm.trans hx
  cases hq.symm.trans hy
  obtain rfl := hc.unique i j hi hj (hxid.symm.trans (hid.trans hyid))
  exact Option.some.inj (hmessage.symm.trans hq)

end Network

namespace CallbackNetwork

variable {ε : Type} {poolSize : ℕ} {session : ℕ → ℤ} {data : ℕ → Option ℕ}
  {t t' : CallbackNetwork ε}

/-- A request stays passed, and the call of `addRequest` that has returned for it stays so. -/
theorem passed_step (hstep : CallbackStep poolSize session data t t') {r : ℕ} {p : PassedRequest}
    (hp : t.requests[r]? = some p) (hr : t.dispatcher.calls r = .returned) :
    t'.requests[r]? = some p ∧ t'.dispatcher.calls r = .returned := by
  have hlt := (List.getElem?_eq_some_iff.mp hp).1
  cases hstep with
  | take h f m u um hf =>
    refine ⟨?_, ?_⟩
    · rw [List.getElem?_append_left hlt]
      exact hp
    · rw [Dispatcher.calls_setCall, if_neg (Nat.ne_of_lt hlt)]
      exact hr
  | dispatch hdispatch hfinish =>
    refine ⟨hp, ?_⟩
    obtain ⟨hdispatch, -⟩ := hdispatch
    cases hdispatch <;> grind
  | _ => exact ⟨hp, hr⟩

/-- The listener of a connection takes a frame when its calls of `addRequest` have returned. -/
theorem idle_of_take (hstep : CallbackStep poolSize session data t t') {h : ℕ}
    (htaken : t'.taken = Function.update t.taken h (t.taken h + 1)) {r : ℕ} {p : PassedRequest}
    (hp : t.requests[r]? = some p) (hhandle : p.handle = h) :
    t.dispatcher.calls r = .returned := by
  have hat := congrFun htaken h
  rw [Function.update_self] at hat
  cases hstep with
  | take i f m u um hf hdecode hm hidle =>
    obtain rfl : h = i := by
      by_contra hne
      simp [hne] at hat
    exact hidle r p hp hhandle
  | _ =>
    dsimp only at hat
    omega

end CallbackNetwork

namespace Traffic

variable {ε : Type} {peers : ℕ → Peer} {poolSize : ℕ} {data : ℕ → Option ℕ} {s t t' : Traffic ε}

/-- Seen from the calls, and from the callbacks, the run is one of their own. -/
theorem Reachable.parts (ht : t.Reachable peers poolSize data) :
    t.calls.Reachable peers ∧ t.callbacks.Reachable poolSize (fun h => (peers h).session) data := by
  induction ht with
  | refl => exact ⟨.refl, .refl⟩
  | tail _ h ih =>
    obtain ⟨hcalls, hcallbacks⟩ := ih
    cases h with
    | calls _ _ hstep | reply _ _ hstep => exact ⟨hcalls.tail hstep, hcallbacks⟩
    | callbacks hstep | callCallback _ _ hstep | take _ _ hstep =>
      exact ⟨hcalls, hcallbacks.tail hstep⟩

/-- The callbacks that the server had called at a state were all passed to the dispatcher. -/
def PassedSince (s t : Traffic ε) (h : ℕ) : Prop :=
  ∀ i < (s.callbacks.sent h).length, ∃ (r : ℕ) (p : PassedRequest),
    t.callbacks.requests[r]? = some p ∧ p.handle = h ∧ p.place = i ∧
      t.callbacks.dispatcher.calls r = .returned

/-- What was sent before that state comes first, and no reply has come in that was sent later. -/
structure Pending (s t : Traffic ε) (h : ℕ) (before after : List FrameKind)
    (old new : List NymphMessage) : Prop where
  frames : t.frames h = before ++ after
  replies : (t.calls.links h).replies = old ++ new
  countReplies : before.count .reply = old.length
  countCallbacks : before.count .callback + t.callbacks.taken h = (s.callbacks.sent h).length
  sent : ∀ r ∈ old, r ∈ (s.calls.links h).replies
  received : ∀ m, (h, m) ∈ t.calls.client.received → (h, m) ∈ s.calls.client.received ∨
    ∃ r ∈ (s.calls.links h).replies, Decodes r m

/-- Either the calls of the callbacks have all come before, or what was sent before comes first. -/
def Comes (s t : Traffic ε) (h : ℕ) : Prop :=
  PassedSince s t h ∨ ∃ before after old new, Pending s t h before after old new

/-- The callbacks that were passed stay so. -/
theorem PassedSince.step {h : ℕ} (hs : PassedSince s t h)
    (hstep : TrafficStep peers poolSize data t t') : PassedSince s t' h := by
  intro i hi
  obtain ⟨r, p, hp, hhandle, hplace, hreturned⟩ := hs i hi
  cases hstep with
  | calls | reply => exact ⟨r, p, hp, hhandle, hplace, hreturned⟩
  | callbacks hstep | callCallback _ _ hstep | take _ _ hstep =>
    obtain ⟨hp', hreturned'⟩ := CallbackNetwork.passed_step hstep hp hreturned
    exact ⟨r, p, hp', hhandle, hplace, hreturned'⟩

/-- Once the listener is through with what was sent before, all callbacks of it were passed. -/
theorem Pending.passedSince {h : ℕ} {after : List FrameKind} {old new : List NymphMessage}
    (hs : Pending s t h [] after old new) (hp : t.callbacks.Passed data)
    (hidle : ∀ (r : ℕ) (p : PassedRequest), t.callbacks.requests[r]? = some p → p.handle = h →
      t.callbacks.dispatcher.calls r = .returned) : PassedSince s t h := by
  intro i hi
  have htaken := hs.countCallbacks
  rw [List.count_nil, Nat.zero_add] at htaken
  obtain ⟨r, p, hr, hhandle, hplace⟩ := hp.passed h i (by omega)
  exact ⟨r, p, hr, hhandle, hplace, hidle r p hr hhandle⟩

/-- The listener takes what was sent before first. -/
theorem Pending.step {h : ℕ} {before after : List FrameKind} {old new : List NymphMessage}
    (hs : Pending s t h before after old new) (ht : t.Reachable peers poolSize data)
    (hstep : TrafficStep peers poolSize data t t') : Comes s t' h := by
  have hframes := hs.frames
  have hreplies := hs.replies
  have hcountReplies := hs.countReplies
  have hcountCallbacks := hs.countCallbacks
  have hsent := hs.sent
  have hreceived := hs.received
  have hagain := hstep
  cases hstep with
  | calls i log hstep hadds =>
    have hsame := received_of_adds hstep hadds
    refine .inr ⟨before, after ++ (if h = i then log.map fun _ => .reply else []), old,
      new ++ (if h = i then log else []), ?_, ?_, hcountReplies, hcountCallbacks, hsent, ?_⟩
    · rw [frames_setFrames]
      split_ifs with heq
      · rw [← heq, hframes, List.append_assoc]
      · rw [List.append_nil]
        exact hframes
    · have hlinks := hadds h
      rw [hreplies, List.append_assoc] at hlinks
      exact hlinks
    · intro m hm
      rw [calls_setFrames] at hm
      rw [hsame] at hm
      exact hreceived m hm
  | reply i rest hstep htakes hhead hidle =>
    obtain ⟨r, others, hr, hrest⟩ := htakes
    by_cases hi : h = i
    · subst hi
      cases before with
      | nil =>
        exact .inl ((hs.passedSince ht.parts.2.invariant.1 hidle).step hagain)
      | cons k before =>
        rw [hframes, List.cons_append, List.cons.injEq] at hhead
        obtain ⟨rfl, rfl⟩ := hhead
        rw [List.count_cons_self] at hcountReplies
        cases old with
        | nil => cases hcountReplies
        | cons r' old =>
          rw [hreplies, List.cons_append, List.cons.injEq] at hr
          obtain ⟨rfl, rfl⟩ := hr
          refine .inr ⟨before, after, old, new, ?_, ?_, Nat.succ.inj hcountReplies,
            hcountCallbacks, fun r hr => hsent r (List.mem_cons_of_mem _ hr), ?_⟩
          · rw [frames_setFrames, if_pos rfl]
          · rw [calls_setFrames, hrest h, if_pos rfl]
          · intro m hm
            rcases received_of_takes hstep hreplies hrest hm with hold | ⟨-, hdecodes⟩
            · exact hreceived m hold
            · exact .inr ⟨r', hsent r' List.mem_cons_self, hdecodes⟩
    · refine .inr ⟨before, after, old, new, ?_, ?_, hcountReplies, hcountCallbacks, hsent, ?_⟩
      · rw [frames_setFrames, if_neg hi]
        exact hframes
      · rw [calls_setFrames, hrest h, if_neg hi]
        exact hreplies
      · intro m hm
        rcases received_of_takes hstep hr hrest hm with hold | ⟨heq, -⟩
        · exact hreceived m hold
        · exact absurd heq hi
  | callbacks hstep hsent' htaken =>
    refine .inr ⟨before, after, old, new, hframes, hreplies, hcountReplies, ?_, hsent, hreceived⟩
    rw [htaken]
    exact hcountCallbacks
  | callCallback i f hstep hsent' htaken =>
    refine .inr ⟨before, after ++ (if h = i then [.callback] else []), old, new, ?_, hreplies,
      hcountReplies, ?_, hsent, hreceived⟩
    · rw [frames_setFrames]
      split_ifs with heq
      · rw [← heq, hframes, List.append_assoc]
      · rw [List.append_nil]
        exact hframes
    · rw [callbacks_setFrames, htaken]
      exact hcountCallbacks
  | take i rest hstep hsent' htaken hhead hidle =>
    by_cases hi : h = i
    · subst hi
      cases before with
      | nil =>
        have htook := fun r p => CallbackNetwork.idle_of_take (r := r) (p := p) hstep htaken
        exact .inl ((hs.passedSince ht.parts.2.invariant.1 htook).step hagain)
      | cons k before =>
        rw [hframes, List.cons_append, List.cons.injEq] at hhead
        obtain ⟨rfl, rfl⟩ := hhead
        rw [List.count_cons_self] at hcountCallbacks
        refine .inr ⟨before, after, old, new, ?_, hreplies, hcountReplies, ?_, hsent, hreceived⟩
        · rw [frames_setFrames, if_pos rfl]
        · rw [callbacks_setFrames, htaken, Function.update_self]
          omega
    · refine .inr ⟨before, after, old, new, ?_, hreplies, hcountReplies, ?_, hsent, hreceived⟩
      · rw [frames_setFrames, if_neg hi]
        exact hframes
      · rw [callbacks_setFrames, htaken, Function.update_of_ne hi]
        exact hcountCallbacks

/-- The order of what is on a link is that of its replies and its callbacks. -/
structure Merged (t : Traffic ε) : Prop where
  replies : ∀ h, (t.frames h).count .reply = (t.calls.links h).replies.length
  callbacks : ∀ h, (t.frames h).count .callback + t.callbacks.taken h =
    (t.callbacks.sent h).length

/-- The order is kept by every step. -/
theorem Merged.step (hs : t.Merged) (hstep : TrafficStep peers poolSize data t t') :
    t'.Merged := by
  obtain ⟨hreplies, hcallbacks⟩ := hs
  cases hstep with
  | calls i log hstep hadds =>
    have hlog : (log.map fun _ => FrameKind.reply) = List.replicate log.length .reply :=
      List.map_const' ..
    refine ⟨fun h => ?_, fun h => ?_⟩
    · rw [frames_setFrames, calls_setFrames, hadds h, List.length_append, ← hreplies h]
      split_ifs with heq
      · rw [heq, hlog, List.count_append, List.count_replicate_self]
      · rfl
    · rw [frames_setFrames]
      split_ifs with heq
      · rw [heq, hlog, List.count_append, List.count_replicate, if_neg (by decide)]
        exact hcallbacks i
      · exact hcallbacks h
  | reply i rest hstep htakes hhead hidle =>
    obtain ⟨r, others, hr, hrest⟩ := htakes
    refine ⟨fun h => ?_, fun h => ?_⟩
    · have hcount := hreplies i
      rw [hhead, hr, List.count_cons_self, List.length_cons] at hcount
      rw [frames_setFrames, calls_setFrames, hrest h]
      split_ifs
      · exact Nat.succ.inj hcount
      · exact hreplies h
    · have hcount := hcallbacks i
      rw [hhead, List.count_cons_of_ne (by decide)] at hcount
      rw [frames_setFrames]
      split_ifs with heq
      · rw [heq]
        exact hcount
      · exact hcallbacks h
  | callbacks hstep hsent htaken =>
    refine ⟨hreplies, fun h => ?_⟩
    rw [hsent, htaken]
    exact hcallbacks h
  | callCallback i f hstep hsent htaken =>
    refine ⟨fun h => ?_, fun h => ?_⟩
    · rw [frames_setFrames]
      split_ifs with heq
      · rw [heq, List.count_append, List.count_singleton, if_neg (by decide)]
        exact hreplies i
      · exact hreplies h
    · have hcount := hcallbacks i
      rw [frames_setFrames, callbacks_setFrames, hsent, htaken, Function.update_apply]
      split_ifs with heq
      · rw [heq, List.count_append, List.count_singleton_self, List.length_append,
          List.length_singleton]
        omega
      · exact hcallbacks h
  | take i rest hstep hsent htaken hhead hidle =>
    refine ⟨fun h => ?_, fun h => ?_⟩
    · have hcount := hreplies i
      rw [hhead, List.count_cons_of_ne (by decide)] at hcount
      rw [frames_setFrames]
      split_ifs with heq
      · rw [heq]
        exact hcount
      · exact hreplies h
    · have hcount := hcallbacks i
      rw [hhead, List.count_cons_self] at hcount
      rw [frames_setFrames, callbacks_setFrames, hsent, htaken, Function.update_apply]
      split_ifs with heq
      · rw [heq]
        omega
      · exact hcallbacks h

/-- The order is kept in every state. -/
theorem Reachable.merged (ht : t.Reachable peers poolSize data) : t.Merged := by
  refine Runs.invariant (fun _ _ hs h => hs.step h) ⟨fun _ => ?_, fun _ => ?_⟩ ht
  · rfl
  · rfl

/-- What was sent at a state comes first in every run from there, and what was served stays so. -/
theorem comes_of_run (hs : s.Reachable peers poolSize data)
    (hrun : Relation.ReflTransGen (TrafficStep peers poolSize data) s t) (h : ℕ) :
    t.Reachable peers poolSize data ∧ Comes s t h ∧
      ∀ q ∈ (s.calls.links h).served, q ∈ (t.calls.links h).served := by
  induction hrun with
  | refl =>
    have hmerged := hs.merged
    refine ⟨hs, .inr ⟨s.frames h, [], (s.calls.links h).replies, [], ?_⟩, fun _ hq => hq⟩
    exact ⟨(List.append_nil _).symm, (List.append_nil _).symm, hmerged.replies h,
      hmerged.callbacks h, fun _ hr => hr, fun _ hm => .inl hm⟩
  | tail hrun hstep ih =>
    obtain ⟨ht, hcomes, hserved⟩ := ih
    refine ⟨ht.tail hstep, ?_, fun q hq => ?_⟩
    · rcases hcomes with hpassed | ⟨before, after, old, new, hpending⟩
      · exact .inl (hpassed.step hstep)
      · exact hpending.step ht hstep
    · cases hstep with
      | calls _ _ hstep | reply _ _ hstep => exact served_step hstep (hserved q hq)
      | callbacks | callCallback | take => exact hserved q hq

end Traffic

end NymphRpc
