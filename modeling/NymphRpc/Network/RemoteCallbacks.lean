import NymphRpc.Client.CallById
import NymphRpc.Network.HandledAll

/-!
# Remote callbacks

What a server and its clients are for, the other way round: a callback that the server calls is
called by the client, with what it was called with and once; and if the dispatcher is not caught
between its sections, then every callback is handled, and by one worker in order. A message whose
name has no callback is deleted, which does no harm if it carries no string, array or struct.
-/

namespace NymphRpc

open NymphMessage CallbackNetwork

/-! ### Two callbacks after one another -/

namespace CallbackNetwork

variable {ε : Type} {poolSize : ℕ} {session : ℕ → ℤ} {data : ℕ → Option ℕ}
  {t t' : CallbackNetwork ε}

/-- One request is on its way, and a worker is there for it. -/
structure OnWay (poolSize r : ℕ) (t : CallbackNetwork ε) : Prop where
  taken : ∀ h, t.taken h = (t.sent h).length
  others : ∀ i, i ≠ r → t.dispatcher.calls i = .notCalled ∨ t.dispatcher.calls i = .returned
  deferred : t.dispatcher.calls r ≠ .deferred
  worker : t.dispatcher.calls r = .entered →
    t.dispatcher.workers ≠ [] ∨ t.dispatcher.threads < poolSize

/-- No gaps overlap while one request is on its way. -/
theorem OnWay.not_gapsOverlap {r : ℕ} (h : t.OnWay poolSize r) : ¬t.dispatcher.GapsOverlap := by
  apply Dispatcher.not_gapsOverlap
  intro i
  by_cases hi : i = r
  · rw [hi]
    exact h.deferred
  · rcases h.others i hi with hcall | hcall <;> simp [hcall]

/-- It stays the only one. -/
theorem OnWay.step {r : ℕ} (hw : t.OnWay poolSize r) (h : Onward poolSize session data t t') :
    t'.OnWay poolSize r := by
  obtain ⟨htaken, hothers, hdeferred, hworker⟩ := hw
  obtain ⟨hstep, hsent, hmoves⟩ := h
  cases hstep with
  | take i f m u um hf =>
    rw [htaken, List.getElem?_eq_none_iff.mpr le_rfl] at hf
    cases hf
  | callCallback i =>
    have hlength := congrArg (fun sent => (sent i).length) hsent
    simp at hlength
  | dispatch hdispatch =>
    obtain ⟨hdispatch, hnotCalled⟩ := hdispatch
    refine ⟨htaken, ?_, ?_, ?_⟩
    · cases hdispatch <;> grind
    · cases hdispatch <;> grind
    · cases hdispatch with
      | park => exact fun _ => .inl (by simp)
      | _ => grind
  | _ => exact ⟨htaken, hothers, hdeferred, hworker⟩

/-- The callback 'c', which has no parameters. -/
def plainCallback : FlaggedMethod :=
  ⟨.make [0x63] [] .null NymphServerInstance.dummyCallback, false⟩

/-- A server that has registered it. -/
def plainServer : Callbacks := Callbacks.registerCallback .empty [0x63] plainCallback

/-- A message is sent if the socket sends all its bytes. -/
theorem sendSession_whole {env : CallEnvironment} (hsending : env.sending = .whole)
    (result : Bytes) (msg : NymphMessage) :
    ∃ frame, NymphMethod.sendSession env result (.ok msg) = ⟨true, result, some frame⟩ := by
  rw [NymphMethod.sendSession]
  generalize (msg.serialize env.freshId env.heap).getD msg = sent
  exact ⟨sent.frame, by simp only [hsending]⟩

/-- So is a callback of the session if the method accepts its arguments. -/
theorem sends_of_accepts {c : Callbacks} {name : Bytes} {m : FlaggedMethod}
    (hm : c.find? name = some m) (env : CallEnvironment) (hsending : env.sending = .whole)
    (ts : List NymphType) (haccepts : m.method.Accepts ts) (handle : ℤ) (result : Bytes) :
    ∃ frame, c.callCallback [handle] env handle name ts result = ⟨true, result, some frame⟩ := by
  obtain ⟨msg, hmsg⟩ : ∃ msg, m.method.composeMessage m.isCallback env.um ts = .ok msg :=
    NymphMethod.composeMessage_ok_iff.mpr haccepts
  obtain ⟨frame, hframe⟩ := sendSession_whole hsending result msg
  refine ⟨frame, ?_⟩
  rw [Callbacks.callCallback, if_neg (by simp), hm]
  exact (congrArg (NymphMethod.sendSession env result) hmsg).trans hframe

/-- The server calls it, and nothing else happens. -/
theorem exists_called {t : CallbackNetwork ε} (hserver : t.servers 0 = plainServer) :
    ∃ f : CallbackFrame, f.name = [0x63] ∧ CallbackStep poolSize session data t
      { t with sent := Function.update t.sent 0 (t.sent 0 ++ [f]) } := by
  have hm : (t.servers 0).find? [0x63] = some plainCallback.enableCallback := by
    rw [hserver]
    rfl
  obtain ⟨frame, hframe⟩ := sends_of_accepts hm (NymphServerInstance.sentAndWaiting .timedOut) rfl
    [] ⟨rfl, by simp⟩ (session 0) []
  exact ⟨_, rfl, .callCallback 0 [0x63] _ [] [] _ [] frame hm .nil (by decide) hframe⟩

/-- The callback of a client that gives back the session it is called for. -/
def plainListener : NymphCallback UInt32 := ⟨[0x63], fun session _ _ => session, none⟩

/-- A server calls no other callback than this, and its client has it. -/
structure Hears (t : CallbackNetwork UInt32) : Prop where
  server : t.servers 0 = plainServer
  named : ∀ h, ∀ f ∈ t.sent h, f.name = [0x63]
  callback : t.callbacks.find? [0x63] = some plainListener
  called : ∀ x ∈ t.handled, x.outcome.isCalled = true

/-- No message is deleted. -/
theorem Hears.heard {t : CallbackNetwork UInt32} (h : t.Hears) : t.Heard where
  outcome x hx htwice := by
    have hcalled := h.called x hx
    rw [htwice] at hcalled
    cases hcalled
  frames i k f hf := by
    rw [h.named i f (List.mem_of_getElem? hf), h.callback]
    exact .inr (.inl rfl)

/-- The server calls the callback. -/
theorem Hears.exists_called {t : CallbackNetwork UInt32} (h : t.Hears) : ∃ f : CallbackFrame,
    CallbackStep poolSize session data t
      { t with sent := Function.update t.sent 0 (t.sent 0 ++ [f]) } ∧
    Hears { t with sent := Function.update t.sent 0 (t.sent 0 ++ [f]) } := by
  obtain ⟨f, hname, hcall⟩ := CallbackNetwork.exists_called h.server
  refine ⟨f, hcall, h.server, fun i f' hf => ?_, h.callback, h.called⟩
  dsimp only at hf
  rw [Function.update_apply] at hf
  split_ifs at hf
  · rcases List.mem_append.mp hf with hold | hnew
    · exact h.named _ f' hold
    · rw [List.mem_singleton.mp hnew]
      exact hname
  · exact h.named i f' hf

/-- The callback is called for every request. -/
theorem Hears.step {t t' : CallbackNetwork UInt32} (h : t.Hears) (hp : t.Passed data)
    (hstep : Onward poolSize session data t t') : t'.Hears := by
  obtain ⟨hserver, hnamed, hcallback, hcalled⟩ := h
  obtain ⟨hstep, hsent, hmoves⟩ := hstep
  cases hstep with
  | register | change => simp at hmoves
  | callCallback i =>
    have hlength := congrArg (fun sent => (sent i).length) hsent
    simp at hlength
  | process w r p outcome hw hcalls hpassed hfree hprocess =>
    obtain ⟨f, hf, hof⟩ := hp.origin r p hpassed
    have hname : p.request.msg.callbackName = [0x63] :=
      hof.brings.name.trans (hnamed _ f (List.mem_of_getElem? hf))
    refine ⟨hserver, hnamed, hcallback, fun x hx => ?_⟩
    rcases List.mem_append.mp hx with hold | hnew
    · exact hcalled x hold
    · obtain rfl := List.mem_singleton.mp hnew
      apply hprocess.isCalled_iff.mpr
      rw [hname, hcallback]
      rfl
  | _ => exact ⟨hserver, hnamed, hcallback, hcalled⟩

/-- A request on its way is handled without overlapping gaps. -/
theorem exists_rest_of_onWay {t : CallbackNetwork UInt32} {r : ℕ}
    (ht : Relation.ReflTransGen (Apart poolSize session data) initial t)
    (hw : t.OnWay poolSize r) (hh : t.Hears) :
    ∃ t' : CallbackNetwork UInt32,
      Relation.ReflTransGen (Apart poolSize session data) initial t' ∧
        Runs.AtRest (Onward poolSize session data) t' ∧ t'.sent = t.sent ∧ t'.Hears := by
  obtain ⟨t', hrun, hrest⟩ := Runs.exists_rest_of_acc (reachable_of_apart ht).ends
  let I (t' : CallbackNetwork UInt32) : Prop :=
    Relation.ReflTransGen (Apart poolSize session data) initial t' ∧ t'.OnWay poolSize r ∧
      t'.sent = t.sent ∧ t'.Hears
  have hstep : ∀ t₁ t₂, I t₁ → Onward poolSize session data t₁ t₂ → I t₂ := by
    rintro t₁ t₂ ⟨ht, hw, hsent, hh⟩ h
    exact ⟨ht.tail ⟨hw.not_gapsOverlap, h.step⟩, hw.step h, h.sent.trans hsent,
      hh.step (reachable_of_apart ht).invariant.1 h⟩
  obtain ⟨ht', -, hsent, hh'⟩ := Runs.invariant hstep ⟨ht, hw, rfl, hh⟩ hrun
  exact ⟨t', ht', hrest, hsent, hh'⟩

/-- A run of one worker without overlapping gaps that has come to rest. -/
structure Rested (t : CallbackNetwork UInt32) : Prop where
  run : Relation.ReflTransGen (Apart 1 (fun _ => 0) fun _ => none) initial t
  rest : Runs.AtRest (Onward 1 (fun _ => 0) fun _ => none) t
  hears : t.Hears

section

variable {t : CallbackNetwork UInt32}

/-- There is a worker for the next request, or one can be created. -/
theorem Rested.worker (h : t.Rested) : t.dispatcher.workers ≠ [] ∨ t.dispatcher.threads < 1 := by
  have ht := reachable_of_apart h.run
  have hreachable := ht.invariant.2.reachable
  rcases Nat.lt_or_ge t.dispatcher.threads 1 with hlt | hge
  · exact .inr hlt
  · left
    have hrest := dispatcher_of_settled (settled_of_rest h.rest) ht
    obtain ⟨hphase, hready⟩ := Dispatcher.waiting_of_rest hreachable hrest (w := 0) hge
    exact List.ne_nil_of_mem (hreachable.waits.parked 0 hphase hready)

/-- It can go on until the next callback is handled. -/
theorem Rested.next (h : t.Rested) :
    ∃ t' : CallbackNetwork UInt32, t'.Rested ∧ (t'.sent 0).length = (t.sent 0).length + 1 := by
  obtain ⟨hrun, hrest, hh⟩ := h
  have ht := reachable_of_apart hrun
  obtain ⟨hp, hs⟩ := ht.invariant
  have hall := taken_of_rest ht hrest
  have hdispatcher := dispatcher_of_settled (settled_of_rest hrest) ht
  have hcalls : ∀ r, t.dispatcher.calls r = .notCalled ∨ t.dispatcher.calls r = .returned := by
    intro r
    by_cases hr : t.dispatcher.calls r = .notCalled
    · exact .inl hr
    · exact .inr (Dispatcher.returned_of_rest hs.reachable hdispatcher hr)
  have hapart : ¬t.dispatcher.GapsOverlap := by
    apply Dispatcher.not_gapsOverlap
    intro r
    rcases hcalls r with hr | hr <;> simp [hr]
  -- the server calls the callback
  obtain ⟨t₁, f, hrun₁, hh₁, hsent₁, htaken₁, hrequests₁, hdispatcher₁⟩ :
      ∃ (t₁ : CallbackNetwork UInt32) (f : CallbackFrame),
        Relation.ReflTransGen (Apart 1 (fun _ => 0) fun _ => none) initial t₁ ∧ t₁.Hears ∧
        t₁.sent = Function.update t.sent 0 (t.sent 0 ++ [f]) ∧ t₁.taken = t.taken ∧
        t₁.requests = t.requests ∧ t₁.dispatcher = t.dispatcher := by
    obtain ⟨f, hcall, hh'⟩ := hh.exists_called
    exact ⟨_, f, hrun.tail ⟨hapart, hcall⟩, hh', rfl, rfl, rfl, rfl⟩
  have hlast : (t₁.sent 0)[t₁.taken 0]? = some f := by
    rw [hsent₁, htaken₁, Function.update_self, hall]
    exact List.getElem?_concat_length
  obtain ⟨m, hdecode, hbrings⟩ := (reachable_of_apart hrun₁).invariant.1.carries 0 f
    (List.mem_of_getElem? hlast) (fun _ => ⟨0, 0⟩) ⟨0, 0⟩
  -- the listener takes it
  obtain ⟨t₂, hrun₂, hh₂, hsent₂, htaken₂, hdispatcher₂⟩ : ∃ t₂ : CallbackNetwork UInt32,
      Relation.ReflTransGen (Apart 1 (fun _ => 0) fun _ => none) initial t₂ ∧ t₂.Hears ∧
      t₂.sent = t₁.sent ∧ t₂.taken = Function.update t₁.taken 0 (t₁.taken 0 + 1) ∧
      t₂.dispatcher = t₁.dispatcher.setCall t₁.requests.length .entered := by
    refine ⟨_, hrun₁.tail ⟨hdispatcher₁ ▸ hapart, .take 0 f m _ _ hlast hdecode
      ⟨hbrings.corrupt, hbrings.isCallback⟩ ?_⟩,
      ⟨hh₁.server, hh₁.named, hh₁.callback, hh₁.called⟩, rfl, rfl, rfl⟩
    intro r p hpassed _
    rw [hrequests₁] at hpassed
    rw [hdispatcher₁]
    have hcalled := (hp.called r).mpr (List.getElem?_eq_some_iff.mp hpassed).1
    exact (hcalls r).resolve_left hcalled
  have honWay : t₂.OnWay 1 t.requests.length := by
    have hworker := Rested.worker ⟨hrun, hrest, hh⟩
    rw [hdispatcher₁, hrequests₁] at hdispatcher₂
    refine ⟨fun i => ?_, fun i hi => ?_, ?_, fun _ => ?_⟩
    · rw [htaken₂, hsent₂, hsent₁, htaken₁, Function.update_apply, Function.update_apply]
      split_ifs
      · rw [hall, List.length_append]
        rfl
      · exact hall i
    · rw [hdispatcher₂, Dispatcher.calls_setCall, if_neg hi]
      exact hcalls i
    · rw [hdispatcher₂, Dispatcher.calls_setCall, if_pos rfl]
      exact AddRequestPhase.noConfusion
    · rw [hdispatcher₂]
      exact hworker
  obtain ⟨t', hrun', hrest', hsent', hh'⟩ := exists_rest_of_onWay hrun₂ honWay hh₂
  refine ⟨t', ⟨hrun', hrest', hh'⟩, ?_⟩
  rw [hsent', hsent₂, hsent₁, Function.update_self, List.length_append]
  rfl

end

/-- Before the first callback is called. -/
theorem exists_rested : ∃ t : CallbackNetwork UInt32, t.Rested := by
  have hidle : ¬(initial : CallbackNetwork UInt32).dispatcher.GapsOverlap :=
    Dispatcher.not_gapsOverlap fun r => by simp [initial, Dispatcher.initial]
  have hregistered := ((Relation.ReflTransGen.refl (a := (initial : CallbackNetwork UInt32))
    (r := Apart 1 (fun _ => 0) fun _ => none)).tail
      ⟨hidle, .register 0 (.registerCallback [0x63] plainCallback)⟩).tail
      ⟨hidle, .change (.addCallback plainListener)⟩
  obtain ⟨t, hrun, hrest, -, hh⟩ := exists_rest_of_onWay (r := 0) hregistered
    ⟨fun _ => rfl, fun _ _ => .inl rfl, AddRequestPhase.noConfusion, AddRequestPhase.noConfusion⟩
    ⟨rfl, by simp [initial], rfl, by simp [initial]⟩
  exact ⟨t, hrun, hrest, hh⟩

/-- Without overlapping gaps each frame is handled where such a run has come to rest. -/
theorem handled_of_sent {poolSize : ℕ} (hpool : 0 < poolSize)
    (ht : Relation.ReflTransGen (Apart poolSize session data) initial t)
    (hrest : Runs.AtRest (Onward poolSize session data) t) {h i : ℕ}
    (hi : i < (t.sent h).length) : ∃ (k : ℕ) (x : _), t.handled[k]? = some x ∧ t.For x h i := by
  have hreachable := reachable_of_apart ht
  have hsettled := settled_of_rest hrest
  rw [← taken_of_rest hreachable hrest h] at hi
  obtain ⟨r, p, hp, hhandle, hplace, ⟨x, hx, hrequest⟩ | hqueued⟩ :=
    passed_of_settled hsettled hreachable hi
  · obtain ⟨k, hk⟩ := List.mem_iff_getElem?.mp hx
    exact ⟨k, x, hk, p, hrequest ▸ hp, hhandle, hplace⟩
  · rw [Dispatcher.requests_of_apart hpool (apart_dispatcher ht)
      (dispatcher_of_settled hsettled hreachable)] at hqueued
    cases hqueued

/-- Two callbacks are called and handled. -/
theorem exists_rested_two : ∃ t : CallbackNetwork UInt32, t.Rested ∧ 1 < (t.sent 0).length := by
  obtain ⟨t₀, h₀⟩ := exists_rested
  obtain ⟨t₁, h₁, hlength₁⟩ := h₀.next
  obtain ⟨t₂, h₂, hlength₂⟩ := h₁.next
  exact ⟨t₂, h₂, by omega⟩

end CallbackNetwork

open CallbackNetwork

/-- A callback is called with what it was called with. Whatever the servers, the listeners, the
dispatcher and the workers do, for each request that was handled a server has sent a frame; and
a callback was called for it just if one was registered under its name after the changes that the
application had made by then, this one, with the values of the frame, the session of the
connection, and the data of its socket or its own. No two requests are handled for one frame. -/
theorem called_asSent {ε : Type} {poolSize : ℕ} {session : ℕ → ℤ} {data : ℕ → Option ℕ}
    {t : CallbackNetwork ε} (ht : t.Reachable poolSize session data) :
    (∀ x ∈ t.handled, ∃ (h i : ℕ) (f : CallbackFrame) (msg : NymphMessage), t.For x h i ∧
      (t.sent h)[i]? = some f ∧
      (∃ u um, (decode u um f.frame.length (f.frame.drop 8)).result = .ok msg) ∧
      msg.callbackName = f.name ∧ NymphType.valueAll msg.values = f.content ∧
      x.after ≤ t.changes.length ∧
      ∀ e, x.outcome = .called e ↔ ∃ callback : NymphCallback ε,
        (t.callbacksAfter x.after).find? f.name = some callback ∧ callback.name = f.name ∧
          .addCallback callback ∈ t.changes.take x.after ∧
          e = callback.method (.ofNat h) msg ((data h).or callback.data)) ∧
    ∀ (k k' : ℕ) (x x' : HandledRequest ε) (h i : ℕ), t.handled[k]? = some x →
      t.handled[k']? = some x' → t.For x h i → t.For x' h i → k = k' := by
  obtain ⟨hp, hs⟩ := ht.invariant
  refine ⟨fun x hx => ?_, fun k k' x x' h i hk hk' hfor hfor' =>
    ht.handled_unique hk hk' hfor hfor'⟩
  obtain ⟨hafter, p, hpassed, hprocess⟩ := hs.outcome x hx
  obtain ⟨f, hf, hof⟩ := hp.origin x.request p hpassed
  refine ⟨p.handle, p.place, f, p.request.msg, ⟨p, hpassed, rfl, rfl⟩, hf, hof.decoded,
    hof.brings.name, hof.brings.content, hafter, fun e => ?_⟩
  rw [hprocess.called_iff, ListenerCallbacks.callCallback_eq_some, hof.session, hof.data,
    hof.brings.name]
  constructor
  · rintro ⟨callback, hfind, he⟩
    obtain ⟨hname, hadded⟩ := ListenerCallbacks.added_of_find? hfind
    exact ⟨callback, hfind, hname, hadded, he⟩
  · rintro ⟨callback, hfind, -, -, he⟩
    exact ⟨callback, hfind, he⟩

/-- The callback 'c' is called with the session of the connection. -/
theorem called_asSent_two : ∃ (t : CallbackNetwork UInt32) (x : HandledRequest UInt32) (e : UInt32)
    (h i : ℕ) (f : CallbackFrame) (msg : NymphMessage) (callback : NymphCallback UInt32),
      x ∈ t.handled ∧ x.outcome = .called e ∧ t.For x h i ∧ (t.sent h)[i]? = some f ∧
      NymphType.valueAll msg.values = f.content ∧ callback.name = f.name ∧
      .addCallback callback ∈ t.changes.take x.after ∧
      e = callback.method (.ofNat h) msg callback.data := by
  obtain ⟨t, ht, hlength⟩ := exists_rested_two
  obtain ⟨k, x, hx, -⟩ := handled_of_sent Nat.zero_lt_one ht.run ht.rest (i := 1) hlength
  have hmem := List.mem_of_getElem? hx
  obtain ⟨e, he⟩ : ∃ e, x.outcome = .called e := by
    have hcalled := ht.hears.called x hmem
    cases houtcome : x.outcome with
    | called e => exact ⟨e, rfl⟩
    | deleted | deletedTwice =>
      rw [houtcome] at hcalled
      cases hcalled
  obtain ⟨h, i, f, msg, hfor, hf, -, -, hcontent, -, heffect⟩ :=
    (called_asSent (reachable_of_apart ht.run)).1 x hmem
  obtain ⟨callback, -, hname, hadded, hcall⟩ := (heffect e).mp he
  exact ⟨t, x, e, h, i, f, msg, callback, hmem, he, hfor, hf, hcontent, hname, hadded, hcall⟩

/-- Every callback is handled. From any state the callbacks can get into, if the servers send no
more, the callbacks of the client are not changed, and each frame that is still to be handled has
one, or carries no string, array or struct, then the listeners, the dispatcher and the workers come
to an end in whatever order they take their steps; and then no callback is being called, no message
was deleted twice, and each frame was passed as a request that was handled, or is left in the queue
beside a full pool of waiting workers. -/
theorem handled_of_rest {ε : Type} {poolSize : ℕ} {session : ℕ → ℤ} {data : ℕ → Option ℕ}
    {t : CallbackNetwork ε} (ht : t.Reachable poolSize session data) (hh : t.Heard) :
    Runs.ComesToRest (CallbackNetwork.Onward poolSize session data)
      (t.AllHandled poolSize) t where
  ends := ht.ends
  rest t' hrun hrest := by
    have hstep : ∀ t₁ t₂ : CallbackNetwork ε,
        t₁.Reachable poolSize session data ∧ t₁.sent = t.sent ∧ t₁.Heard →
        CallbackNetwork.Onward poolSize session data t₁ t₂ →
        t₂.Reachable poolSize session data ∧ t₂.sent = t.sent ∧ t₂.Heard := by
      rintro t₁ t₂ ⟨ht, hsent, hh⟩ h
      obtain ⟨hp, hs⟩ := ht.invariant
      exact ⟨ht.tail h.step, h.sent.trans hsent, hh.step hp hs h⟩
    obtain ⟨ht', hsent, hh'⟩ := Runs.invariant hstep ⟨ht, rfl, hh⟩ hrun
    exact (settled_of_rest hrest).allHandled ht' hh' (taken_of_rest ht' hrest) hsent

/-- Two frames wait for their listener, and none was taken. -/
theorem exists_waiting : ∃ t : CallbackNetwork UInt32, t.Reachable 1 (fun _ => 0) (fun _ => none) ∧
    t.Hears ∧ (t.sent 0).length = 2 ∧ t.taken 0 = 0 := by
  obtain ⟨t, ht, hh, hsent, htaken⟩ : ∃ t : CallbackNetwork UInt32,
      t.Reachable 1 (fun _ => 0) (fun _ => none) ∧ t.Hears ∧ t.sent 0 = [] ∧ t.taken 0 = 0 :=
    ⟨_, (Relation.ReflTransGen.single (.register 0 (.registerCallback [0x63] plainCallback))).tail
      (.change (.addCallback plainListener)), ⟨rfl, by simp [initial], rfl, by simp [initial]⟩,
      rfl, rfl⟩
  obtain ⟨f, hcall, hh⟩ := hh.exists_called
  obtain ⟨f', hcall', hh⟩ := hh.exists_called
  exact ⟨_, (ht.tail hcall).tail hcall', hh, by simp [hsent], htaken⟩

/-- The frames that wait are handled. -/
theorem handled_of_rest_two : ∃ t t' : CallbackNetwork UInt32,
    (t.sent 0).length = 2 ∧ t.taken 0 = 0 ∧
    Relation.ReflTransGen (CallbackNetwork.Onward 1 (fun _ => 0) fun _ => none) t t' ∧
      t.AllHandled 1 t' := by
  obtain ⟨t, ht, hh, hlength, htaken⟩ := exists_waiting
  obtain ⟨t', hrun, -, hhandled⟩ := (handled_of_rest ht hh.heard).exists_run
  exact ⟨t, t', hlength, htaken, hrun, hhandled⟩

/-- Each callback is handled exactly once if no gaps overlap: where such a run has come to rest,
one request was handled for every frame that a server has sent. -/
theorem handledOnce_of_apart {ε : Type} {poolSize : ℕ} (hpool : 0 < poolSize) {session : ℕ → ℤ}
    {data : ℕ → Option ℕ} {t : CallbackNetwork ε}
    (ht : Relation.ReflTransGen (Apart poolSize session data) initial t)
    (hrest : Runs.AtRest (CallbackNetwork.Onward poolSize session data) t) {h i : ℕ}
    (hi : i < (t.sent h).length) : ∃! k : ℕ, ∃ x, t.handled[k]? = some x ∧ t.For x h i := by
  obtain ⟨k, x, hx, hfor⟩ := handled_of_sent hpool ht hrest hi
  refine ⟨k, ⟨x, hx, hfor⟩, ?_⟩
  rintro k' ⟨x', hx', hfor'⟩
  exact (reachable_of_apart ht).handled_unique hx' hx hfor' hfor

/-- Both frames are handled once. -/
theorem handledOnce_of_apart_two : ∃ t : CallbackNetwork UInt32, 1 < (t.sent 0).length ∧
    ∀ i < 2, ∃! k : ℕ, ∃ x, t.handled[k]? = some x ∧ t.For x 0 i := by
  obtain ⟨t, ht, hlength⟩ := exists_rested_two
  refine ⟨t, hlength, fun i hi => ?_⟩
  exact handledOnce_of_apart Nat.zero_lt_one ht.run ht.rest (by omega)

/-- The callbacks of a connection are handled in order. If the pool has one worker and no gaps
overlap, then whenever a callback was handled, those that the server had sent before it on the
connection were handled before. -/
theorem handled_inOrder {ε : Type} {session : ℕ → ℤ} {data : ℕ → Option ℕ} {t : CallbackNetwork ε}
    (ht : Relation.ReflTransGen (Apart 1 session data) initial t) {k : ℕ} {x : HandledRequest ε}
    (hx : t.handled[k]? = some x) {h i : ℕ} (hfor : t.For x h i) {j : ℕ} (hj : j < i) :
    ∃ k' < k, ∃ x', t.handled[k']? = some x' ∧ t.For x' h j := by
  obtain ⟨hp, -⟩ := (reachable_of_apart ht).invariant
  obtain ⟨p, hpassed, rfl, rfl⟩ := hfor
  have hplace := hp.place _ p hpassed
  obtain ⟨r, q, hq, hhandle, hqplace⟩ := hp.passed p.handle j (by omega)
  have hlt : r < x.request := by
    rcases Nat.lt_trichotomy r x.request with hlt | rfl | hlt
    · exact hlt
    · cases hq.symm.trans hpassed
      omega
    · have hbefore := hp.inOrder _ _ p q hpassed hq hhandle.symm hlt
      omega
  obtain ⟨k', hk', x', hx', hrequest⟩ :=
    (ordered_of_apart ht).handled k x hx r ⟨hlt, q, p, hq, hpassed, hhandle⟩
  exact ⟨k', hk', x', hx', q, hrequest ▸ hq, hhandle, hqplace⟩

/-- The first frame is handled before the second. -/
theorem handled_inOrder_two : ∃ (t : CallbackNetwork UInt32) (k : ℕ) (x : HandledRequest UInt32),
    t.handled[k]? = some x ∧ t.For x 0 1 ∧
      ∃ k' < k, ∃ x', t.handled[k']? = some x' ∧ t.For x' 0 0 := by
  obtain ⟨t, ht, hlength⟩ := exists_rested_two
  obtain ⟨k, x, hx, hfor⟩ := handled_of_sent Nat.zero_lt_one ht.run ht.rest hlength
  exact ⟨t, k, x, hx, hfor, handled_inOrder ht.run hx hfor Nat.zero_lt_one⟩

end NymphRpc
