import NymphRpc.Base.Histories
import NymphRpc.Client.Rejection
import NymphRpc.Server.LastRegistered

/-!
# Callbacks

The callbacks that a server may call, and those that a client listens for. Both are kept under
their names, and like the methods they are inserted into a map that keeps the entry of a name, so
a callback that is registered again stays the older one.
-/

namespace NymphRpc

open OrderedMap

/-- A `NymphMethod` with its callback flag. -/
structure FlaggedMethod where
  method : NymphMethod
  isCallback : Bool

/-- `enableCallback`. -/
def FlaggedMethod.enableCallback (m : FlaggedMethod) : FlaggedMethod :=
  { m with isCallback := true }

/-! ### Callbacks of a server -/

/-- The callbacks of `NymphRemoteClient`. -/
abbrev Callbacks := Map Bytes FlaggedMethod

/-- A call that changes the callbacks of a server. -/
inductive CallbackCall
  | registerCallback (name : Bytes) (method : FlaggedMethod)
  | removeCallback (name : Bytes)

namespace Callbacks

/-- `registerCallback`. -/
def registerCallback (c : Callbacks) (name : Bytes) (method : FlaggedMethod) : Callbacks :=
  c.insert name method.enableCallback

/-- `removeCallback`. -/
def removeCallback (c : Callbacks) (name : Bytes) : Callbacks := c.erase name

/-- `callCallback`, for the handles of the sessions that there are. -/
def callCallback (c : Callbacks) (sessions : List ℤ) (env : CallEnvironment) (handle : ℤ)
    (name : Bytes) (values : List NymphType) (result : Bytes) : NymphMethod.SessionCalled :=
  if handle ∉ sessions then ⟨false, characters "Provided handle was not found.", none⟩
  else
    match c.find? name with
    | none => ⟨false, characters "Specified method name was not found.", none⟩
    | some m => m.method.callSession m.isCallback env values result

/-- Make a call. -/
def apply (c : Callbacks) : CallbackCall → Callbacks
  | .registerCallback name method => registerCallback c name method
  | .removeCallback name => removeCallback c name

/-- What a call does to the map. -/
def mapCall : CallbackCall → MapCall Bytes FlaggedMethod
  | .registerCallback name method => .insert name method.enableCallback
  | .removeCallback name => .erase name

/-- What was registered last under each name is what is called, and a name that was removed is not
found. -/
structure InEffect (c : Callbacks) (last : Bytes → Option FlaggedMethod) : Prop where
  registered : ∀ name m, last name = some m → c.find? name = some m ∧
    ∀ sessions env handle values result, handle ∈ sessions →
      callCallback c sessions env handle name values result =
        m.method.callSession m.isCallback env values result
  removed : ∀ name, last name = none → c.find? name = none ∧
    ∀ sessions env handle values result, handle ∈ sessions →
      callCallback c sessions env handle name values result =
        ⟨false, characters "Specified method name was not found.", none⟩

/-- The registrations take effect in every state of a run. -/
def TakeEffect (calls : List CallbackCall) : Prop :=
  ∀ pre, pre <+: calls → InEffect (pre.foldl apply .empty) (lastWritten (pre.map mapCall))

/-- A name is registered that has no callback, or this very one. -/
def Sparing (c : Callbacks) : CallbackCall → Prop
  | .registerCallback name method =>
    c.find? name = none ∨ c.find? name = some method.enableCallback
  | .removeCallback _ => True

/-- The last registrations are in effect if the map holds them. -/
theorem inEffect_iff {c : Callbacks} {last : Bytes → Option FlaggedMethod} :
    InEffect c last ↔ ∀ name, c.find? name = last name := by
  constructor
  · intro h name
    cases hlast : last name with
    | none => exact (h.removed name hlast).1
    | some m => exact (h.registered name m hlast).1
  · intro h
    constructor
    · intro name m hlast
      have hfind := (h name).trans hlast
      refine ⟨hfind, ?_⟩
      intro sessions env handle values result hmem
      rw [callCallback, if_neg (not_not.mpr hmem), hfind]
    · intro name hlast
      have hfind := (h name).trans hlast
      refine ⟨hfind, ?_⟩
      intro sessions env handle values result hmem
      rw [callCallback, if_neg (not_not.mpr hmem), hfind]

/-- A call is what it does to the map. -/
theorem apply_eq : apply = fun c call => Map.apply c (mapCall call) := by
  funext c call
  cases call <;> rfl

/-- A sparing call is one that writes. -/
theorem sparing_eq : Sparing = fun c call => Map.Writes c (mapCall call) := by
  funext c call
  cases call <;> rfl

/-- The registrations of a run take effect exactly as long as no name is registered while it has
another callback. -/
theorem takeEffect_iff (calls : List CallbackCall) :
    TakeEffect calls ↔ Histories.Throughout apply Sparing .empty calls := by
  rw [apply_eq, sparing_eq, ← Map.find?_eq_lastWritten_iff mapCall calls, ← apply_eq]
  exact forall_congr' fun pre => imp_congr_right fun _ => inEffect_iff

end Callbacks

/-! ### Callbacks that a client listens for -/

/-- `NymphCallback`: the name, the function, which is called with a session, a message and a
pointer to data, and the data of the user. -/
structure NymphCallback (ε : Type) where
  name : Bytes
  method : UInt32 → NymphMessage → Option ℕ → ε
  data : Option ℕ

/-- The callbacks of `NymphListener`. -/
abbrev ListenerCallbacks (ε : Type) := Map Bytes (NymphCallback ε)

/-- A call that changes the callbacks of a client. -/
inductive ListenerCall (ε : Type)
  | addCallback (callback : NymphCallback ε)
  | removeCallback (name : Bytes)

namespace ListenerCallbacks

variable {ε : Type}

/-- `addCallback`. -/
def addCallback (c : ListenerCallbacks ε) (callback : NymphCallback ε) : ListenerCallbacks ε :=
  c.insert callback.name callback

/-- `removeCallback`. -/
def removeCallback (c : ListenerCallbacks ε) (name : Bytes) : ListenerCallbacks ε := c.erase name

/-- `callCallback`, which uses the data it is given, or else those of the user. -/
def callCallback (c : ListenerCallbacks ε) (session : UInt32) (msg : NymphMessage)
    (data : Option ℕ) : Option ε :=
  match c.find? msg.callbackName with
  | none => none
  | some callback =>
    if data.isSome then some (callback.method session msg data)
    else some (callback.method session msg callback.data)

/-- Make a call. -/
def apply (c : ListenerCallbacks ε) : ListenerCall ε → ListenerCallbacks ε
  | .addCallback callback => addCallback c callback
  | .removeCallback name => removeCallback c name

/-- What a call does to the map. -/
def mapCall : ListenerCall ε → MapCall Bytes (NymphCallback ε)
  | .addCallback callback => .insert callback.name callback
  | .removeCallback name => .erase name

/-- What was added last under each name is what is called, with its data unless there are others,
and a name that was removed is not found. -/
structure InEffect (c : ListenerCallbacks ε) (last : Bytes → Option (NymphCallback ε)) :
    Prop where
  registered : ∀ name callback, last name = some callback → c.find? name = some callback ∧
    ∀ session msg data, msg.callbackName = name →
      callCallback c session msg data =
        some (callback.method session msg (data.or callback.data))
  removed : ∀ name, last name = none → c.find? name = none ∧
    ∀ session msg data, msg.callbackName = name → callCallback c session msg data = none

/-- The registrations take effect in every state of a run. -/
def TakeEffect (calls : List (ListenerCall ε)) : Prop :=
  ∀ pre, pre <+: calls → InEffect (pre.foldl apply .empty) (lastWritten (pre.map mapCall))

/-- A callback is added whose name has none, or this very one. -/
def Sparing (c : ListenerCallbacks ε) : ListenerCall ε → Prop
  | .addCallback callback =>
    c.find? callback.name = none ∨ c.find? callback.name = some callback
  | .removeCallback _ => True

/-- The last registrations are in effect if the map holds them. -/
theorem inEffect_iff {c : ListenerCallbacks ε} {last : Bytes → Option (NymphCallback ε)} :
    InEffect c last ↔ ∀ name, c.find? name = last name := by
  constructor
  · intro h name
    cases hlast : last name with
    | none => exact (h.removed name hlast).1
    | some callback => exact (h.registered name callback hlast).1
  · intro h
    constructor
    · intro name callback hlast
      have hfind := (h name).trans hlast
      refine ⟨hfind, ?_⟩
      rintro session msg data rfl
      rw [callCallback, hfind]
      cases data <;> rfl
    · intro name hlast
      have hfind := (h name).trans hlast
      refine ⟨hfind, ?_⟩
      rintro session msg data rfl
      rw [callCallback, hfind]

/-- A call is what it does to the map. -/
theorem apply_eq : apply (ε := ε) = fun c call => Map.apply c (mapCall call) := by
  funext c call
  cases call <;> rfl

/-- A sparing call is one that writes. -/
theorem sparing_eq : Sparing (ε := ε) = fun c call => Map.Writes c (mapCall call) := by
  funext c call
  cases call <;> rfl

/-- The registrations of a run take effect exactly as long as no name is registered while it has
another callback. -/
theorem takeEffect_iff (calls : List (ListenerCall ε)) :
    TakeEffect calls ↔ Histories.Throughout apply Sparing .empty calls := by
  rw [apply_eq, sparing_eq, ← Map.find?_eq_lastWritten_iff mapCall calls, ← apply_eq]
  exact forall_congr' fun pre => imp_congr_right fun _ => inEffect_iff

/-- What is called is registered under the name of the message. -/
theorem callCallback_eq_some {c : ListenerCallbacks ε} {session : UInt32} {msg : NymphMessage}
    {data : Option ℕ} {effect : ε} : c.callCallback session msg data = some effect ↔
      ∃ callback, c.find? msg.callbackName = some callback ∧
        effect = callback.method session msg (data.or callback.data) := by
  rw [callCallback]
  cases c.find? msg.callbackName with
  | none => simp
  | some callback => cases data <;> simp [eq_comm]

/-- What is found under a name was added under it. -/
theorem added_of_find? {calls : List (ListenerCall ε)} {name : Bytes}
    {callback : NymphCallback ε} (h : (calls.foldl apply .empty).find? name = some callback) :
    callback.name = name ∧ .addCallback callback ∈ calls := by
  induction calls using List.reverseRecOn with
  | nil => cases h
  | append_singleton calls call ih =>
    rw [List.foldl_append, List.foldl_cons, List.foldl_nil] at h
    have hold : (calls.foldl apply .empty).find? name = some callback →
        callback.name = name ∧ .addCallback callback ∈ calls ++ [call] := by
      intro hfound
      obtain ⟨hname, hmem⟩ := ih hfound
      exact ⟨hname, List.mem_append_left _ hmem⟩
    cases call with
    | addCallback added =>
      rw [apply, addCallback, Map.find?_insert] at h
      split_ifs at h with hname
      · rcases Option.or_eq_some_iff.mp h with hfound | ⟨-, hadded⟩
        · exact hold hfound
        · cases hadded
          exact ⟨hname, List.mem_append_right _ List.mem_cons_self⟩
      · exact hold h
    | removeCallback removed =>
      rw [apply, removeCallback, Map.find?_erase] at h
      split_ifs at h
      exact hold h

end ListenerCallbacks

/-! ### The three registries -/

/-- As long as the IDs of the methods do not wrap around, the registrations of each registry take
effect exactly if a name is registered while it has no entry (or has this very callback), and no
method is removed that is not there. -/
theorem registrations_takeEffect_iff {ε : Type} {methodCalls : List RegistryCall}
    (hcount : NymphRemoteClient.registrations methodCalls + 1 ≤ 2 ^ 32)
    (callbackCalls : List CallbackCall) (listenerCalls : List (ListenerCall ε)) :
    (NymphRemoteClient.TakeEffect methodCalls ↔
      NymphRemoteClient.Throughout NymphRemoteClient.Sparing NymphRemoteClient.init methodCalls) ∧
    (Callbacks.TakeEffect callbackCalls ↔
      Histories.Throughout Callbacks.apply Callbacks.Sparing .empty callbackCalls) ∧
    (ListenerCallbacks.TakeEffect listenerCalls ↔
      Histories.Throughout ListenerCallbacks.apply ListenerCallbacks.Sparing .empty
        listenerCalls) :=
  ⟨NymphRemoteClient.takeEffect_iff hcount, Callbacks.takeEffect_iff callbackCalls,
    ListenerCallbacks.takeEffect_iff listenerCalls⟩

/-- A method of the application that has a result. -/
def answeringMethod (name : Bytes) : NymphMethod :=
  .make name [] .bool (.application fun _ _ _ => none)

/-- A callback whose function comes back with a number. -/
def numberCallback (n : ℕ) : NymphCallback ℕ := ⟨[0x61], fun _ _ _ => n, none⟩

/-- A name that is registered once, and one that is registered again after its removal. -/
theorem registrations_takeEffect_inTurns :
    NymphRemoteClient.TakeEffect [.registerMethod [0x61] (answeringMethod [0x61]),
      .removeMethod [0x61], .registerMethod [0x61] (NymphRemoteClient.silentMethod [0x61])] ∧
    ListenerCallbacks.TakeEffect [.addCallback (numberCallback 1), .removeCallback [0x61],
      .addCallback (numberCallback 2)] := by
  have htake := registrations_takeEffect_iff (ε := ℕ)
    (show NymphRemoteClient.registrations [.registerMethod [0x61] (answeringMethod [0x61]),
      .removeMethod [0x61], .registerMethod [0x61] (NymphRemoteClient.silentMethod [0x61])] + 1 ≤
        2 ^ 32 by decide) []
    [.addCallback (numberCallback 1), .removeCallback [0x61], .addCallback (numberCallback 2)]
  refine ⟨htake.1.mpr ?_, htake.2.2.mpr ?_⟩
  · refine ⟨rfl, ?_⟩
    rintro s ⟨⟩
    refine ⟨Option.some_ne_none _, ?_⟩
    rintro s ⟨⟩
    exact ⟨rfl, fun _ _ => trivial⟩
  · exact ⟨.inl rfl, trivial, .inl rfl, trivial⟩

/-- In each registry the second registration of a name has no effect. -/
theorem not_takeEffect_again :
    ¬NymphRemoteClient.TakeEffect [.registerMethod [0x61] (answeringMethod [0x61]),
      .registerMethod [0x61] (NymphRemoteClient.silentMethod [0x61])] ∧
    ¬Callbacks.TakeEffect [.registerCallback [0x61] ⟨answeringMethod [0x61], false⟩,
      .registerCallback [0x61] ⟨NymphRemoteClient.silentMethod [0x61], false⟩] ∧
    ¬ListenerCallbacks.TakeEffect [.addCallback (numberCallback 1),
      .addCallback (numberCallback 2)] := by
  refine ⟨?_, ?_, ?_⟩
  · intro h
    obtain ⟨s, hs, heffect⟩ := h _ List.prefix_rfl
    cases hs
    have hof := (heffect.registered [0x61] 2 _ rfl).1
    cases congrArg (Option.map NymphMethod.returnType) hof
  · intro h
    have hfind := ((h _ List.prefix_rfl).registered [0x61] _ rfl).1
    cases congrArg (Option.map fun m : FlaggedMethod => m.method.returnType) hfind
  · intro h
    have hcall := ((h _ List.prefix_rfl).registered [0x61] _ rfl).2 0
      { NymphMessage.ofMethodId ⟨0, 0⟩ 0 with callbackName := [0x61] } none rfl
    cases hcall

end NymphRpc
