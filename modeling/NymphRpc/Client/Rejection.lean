import Mathlib.Logic.Relation
import NymphRpc.Client.CallById
import NymphRpc.Types.Objects

/-!
# Arguments that are refused

`NymphMethod::call` moves its arguments one by one into a local message, which deletes what it
holds when the function returns. So an argument that does not fit leaves those before it deleted
and those after it alive, except where it is the first, or the later ones hang below the earlier
ones. The lengths are compared as `int`s, and lists of 2^31 arguments or more get past that.
-/

namespace NymphRpc

/-! ### Deleting objects -/

/-- The destructor of the first object deletes the second. -/
def Objects.Owns (objs : Objects) (p q : ℕ) : Prop :=
  ∃ o, objs[p]? = some o ∧ o.members.own = true ∧ q ∈ o.data.pointers

/-- Deleting the first object deletes the second. -/
def Objects.Deletes (objs : Objects) : ℕ → ℕ → Prop := Relation.ReflTransGen objs.Owns

/-- The arguments of a call: pointers to objects, and the values that these lead to. -/
structure Arguments where
  objs : Objects
  pointers : List ℕ
  values : List NymphType
  follows : List.Forall₂ (fun p t => ∃ fuel, objs.follow fuel p = some t) pointers values

namespace Arguments

/-- An argument is deleted with one of the first `k`. -/
def DeletedWith (args : Arguments) (k p : ℕ) : Prop :=
  ∃ q ∈ args.pointers.take k, args.objs.Deletes q p

/-- If the first `k` arguments are deleted, then all are still alive, or none is. -/
def OneState (args : Arguments) (k : ℕ) : Prop :=
  (∀ p ∈ args.pointers, ¬args.DeletedWith k p) ∨ ∀ p ∈ args.pointers, args.DeletedWith k p

/-- There are as many pointers as values. -/
theorem length_pointers (args : Arguments) : args.pointers.length = args.values.length :=
  args.follows.length_eq

/-- Deleting the first `k` of some arguments leaves them in one state if `k` is 0 or the others
are deleted, too. -/
theorem oneState_iff {args : Arguments} {k : ℕ} (hk : k < args.values.length) :
    args.OneState k ↔ k = 0 ∨ ∀ p ∈ args.pointers, args.DeletedWith k p := by
  rw [← length_pointers] at hk
  refine or_congr_left' fun _ => ⟨?_, ?_⟩
  · intro halive
    by_contra hpos
    have hzero : 0 < args.pointers.length := by omega
    have hmem : args.pointers[0] ∈ args.pointers.take k :=
      List.mem_take_iff_getElem.mpr ⟨0, by omega, rfl⟩
    exact halive _ (List.getElem_mem hzero) ⟨_, hmem, Relation.ReflTransGen.refl⟩
  · rintro rfl p - ⟨q, hq, -⟩
    cases hq

end Arguments

namespace NymphMethod

/-! ### What becomes of the arguments -/

/-- The loop over the arguments, with the message that it leaves. -/
def takeArguments (m : NymphMethod) :
    ℕ → List NymphType → List NymphTypes → NymphMessage → NymphMessage × Option Bytes
  | i, value :: values, parameter :: parameters, msg =>
    if value.valuetype ≠ parameter ∧ parameter ≠ .any then
      (msg, some (m.mismatchText i parameter value.valuetype))
    else takeArguments m (i + 1) values parameters (msg.addValue value)
  | _, _, _, msg => (msg, none)

/-- The values that the local message of a call holds when the call returns. There is no message
yet where the lengths are compared. -/
def takenValues (m : NymphMethod) (isCallback : Bool) (um : MessageUninit)
    (values : List NymphType) : List NymphType :=
  if intSize values.length ≠ intSize m.parameters.length then []
  else
    (m.takeArguments 0 (values.take (intSize values.length).toNat) m.parameters
      (m.newMessage isCallback um)).1.values

/-- What the overload for a session comes back with, and what it gave to the session. -/
structure SessionCalled where
  returned : Bool
  result : Bytes
  sent : Option Bytes

/-- Serialise the message and give it to the session, or come back with the text of what is
wrong. -/
def sendSession (env : CallEnvironment) (result : Bytes) :
    Except Bytes NymphMessage → SessionCalled
  | .error text => ⟨false, text, none⟩
  | .ok msg =>
    let msg := (msg.serialize env.freshId env.heap).getD msg
    match env.sending with
    | .whole => ⟨true, result, some msg.frame⟩
    | .fewer => ⟨false, characters "Failed to send message.", some msg.frame⟩
    | .threw message =>
      ⟨false, characters "Failed to send message: " ++ message, some msg.frame⟩

/-- The overload of `call` for a session. -/
def callSession (m : NymphMethod) (isCallback : Bool) (env : CallEnvironment)
    (values : List NymphType) (result : Bytes) : SessionCalled :=
  sendSession env result (m.composeMessage isCallback env.um values)

/-- There are as many arguments as parameters, and all fit. -/
def Matches (m : NymphMethod) (values : List NymphType) : Prop :=
  List.Forall₂ Fits values m.parameters

/-- The pairs of argument and parameter that the loop looks at, if it finds no misfit. -/
def compared (m : NymphMethod) (values : List NymphType) : List (NymphType × NymphTypes) :=
  (values.take (intSize values.length).toNat).zip m.parameters

/-- The first pair that does not fit is at the index. -/
def FirstMisfit (l : List (NymphType × NymphTypes)) (i : ℕ) : Prop :=
  ∃ p, l[i]? = some p ∧ ¬Fits p.1 p.2 ∧ ∀ q ∈ l.take i, Fits q.1 q.2

/-- Neither overload changes something halfway: a message is sent only for arguments that match
the signature; and if the arguments are refused, then the call fails, nothing was sent, no request
was added, and the arguments are all in one state. -/
structure RefusesWhole (m : NymphMethod) (isCallback : Bool) (env : CallEnvironment) (j : ℕ)
    (request : NymphRequest) (args : Arguments) (messages : OrderedMap.Map UInt64 ℕ)
    (result : Bytes) : Prop where
  socketSent : (m.call isCallback env j request args.values messages result).sent ≠ none →
    m.Matches args.values
  sessionSent : (m.callSession isCallback env args.values result).sent ≠ none →
    m.Matches args.values
  socketRefused : ∀ text, m.composeMessage isCallback env.um args.values = .error text →
    m.call isCallback env j request args.values messages result =
      ⟨false, request, text, messages, none⟩
  sessionRefused : ∀ text, m.composeMessage isCallback env.um args.values = .error text →
    m.callSession isCallback env args.values result = ⟨false, text, none⟩
  oneState : ∀ text, m.composeMessage isCallback env.um args.values = .error text →
    args.OneState (m.takenValues isCallback env.um args.values).length

/-- The lengths differ as `int`s, or the arguments match the signature, or the first misfit is at
the first argument or leaves none behind that is not deleted with those before it. -/
def Clear (m : NymphMethod) (args : Arguments) : Prop :=
  intSize args.values.length ≠ intSize m.parameters.length ∨ m.Matches args.values ∨
    ∃ i, FirstMisfit (m.compared args.values) i ∧
      (i = 0 ∨ ∀ p ∈ args.pointers, args.DeletedWith i p)

variable {m : NymphMethod} {isCallback : Bool} {env : CallEnvironment} {j : ℕ}
  {request : NymphRequest} {values : List NymphType} {messages : OrderedMap.Map UInt64 ℕ}
  {result : Bytes}

/-- The loop ends in the same way if it leaves its message behind. -/
theorem addArguments_eq (i : ℕ) (values : List NymphType) (parameters : List NymphTypes)
    (msg : NymphMessage) : m.addArguments i values parameters msg =
      match m.takeArguments i values parameters msg with
      | (_, some text) => .error text
      | (msg, none) => .ok msg := by
  induction values generalizing i parameters msg with
  | nil => rfl
  | cons value values ih =>
    cases parameters with
    | nil => rfl
    | cons parameter parameters =>
      rw [addArguments, takeArguments]
      split_ifs
      · rfl
      · exact ih (i + 1) parameters (msg.addValue value)

/-- The loop takes the arguments before the first misfit, or all. -/
theorem takeArguments_values (i : ℕ) (values : List NymphType) (parameters : List NymphTypes)
    (msg : NymphMessage) :
    (∃ k text, FirstMisfit (values.zip parameters) k ∧
      (m.takeArguments i values parameters msg).2 = some text ∧
      (m.takeArguments i values parameters msg).1.values = msg.values ++ values.take k) ∨
    (∀ p ∈ values.zip parameters, Fits p.1 p.2) ∧
      (m.takeArguments i values parameters msg).2 = none := by
  induction values generalizing i parameters msg with
  | nil => exact .inr ⟨fun _ h => absurd h List.not_mem_nil, rfl⟩
  | cons value values ih =>
    cases parameters with
    | nil => exact .inr ⟨fun _ h => absurd h List.not_mem_nil, rfl⟩
    | cons parameter parameters =>
      rw [takeArguments]
      by_cases hfits : Fits value parameter
      · rw [if_neg (by rintro ⟨hne, hany⟩; exact hfits.elim hne hany), List.zip_cons_cons,
          List.forall_mem_cons]
        rcases ih (i + 1) parameters (msg.addValue value) with
          ⟨k, text, ⟨p, hp, hmisfit, hbefore⟩, htext, hvalues⟩ | ⟨hall, hnone⟩
        · refine .inl ⟨k + 1, text, ⟨p, hp, hmisfit, ?_⟩, htext, ?_⟩
          · rw [List.take_succ_cons, List.forall_mem_cons]
            exact ⟨hfits, hbefore⟩
          · rw [hvalues, List.take_succ_cons]
            exact List.append_assoc _ _ _
        · exact .inr ⟨⟨hfits, hall⟩, hnone⟩
      · have hmismatch : value.valuetype ≠ parameter ∧ parameter ≠ .any := not_or.mp hfits
        rw [if_pos hmismatch]
        refine .inl ⟨0, _, ⟨(value, parameter), rfl, hfits, ?_⟩, rfl, ?_⟩
        · exact fun q hq => absurd hq List.not_mem_nil
        · exact (List.append_nil _).symm

/-- A list has one first misfit. -/
theorem FirstMisfit.unique {l : List (NymphType × NymphTypes)} {i k : ℕ} (hi : FirstMisfit l i)
    (hk : FirstMisfit l k) : i = k := by
  have hle : ∀ {a b : ℕ}, FirstMisfit l a → FirstMisfit l b → a ≤ b := by
    rintro a b ⟨-, -, -, hbefore⟩ ⟨p, hp, hmisfit, -⟩
    by_contra hlt
    obtain ⟨hbound, rfl⟩ := List.getElem?_eq_some_iff.mp hp
    exact hmisfit (hbefore _ (List.mem_take_iff_getElem.mpr ⟨b, by omega, rfl⟩))
  exact Nat.le_antisymm (hle hi hk) (hle hk hi)

/-- A call begins with a message without values. -/
theorem values_newMessage (m : NymphMethod) (isCallback : Bool) (um : MessageUninit) :
    (m.newMessage isCallback um).values = [] := by
  cases isCallback <;> rfl

/-- Where the lengths are equal as `int`s, either the first misfit decides which arguments the
message has taken when the call refuses them, or there is none and the message is sent. -/
theorem composeMessage_cases (m : NymphMethod) (isCallback : Bool) (um : MessageUninit)
    (hsize : intSize values.length = intSize m.parameters.length) :
    (∃ k text, FirstMisfit (m.compared values) k ∧ k < values.length ∧
      m.composeMessage isCallback um values = .error text ∧
      (m.takenValues isCallback um values).length = k) ∨
    (∀ p ∈ m.compared values, Fits p.1 p.2) ∧
      ∃ msg, m.composeMessage isCallback um values = .ok msg := by
  have htaken := m.takeArguments_values 0 (values.take (intSize values.length).toNat)
    m.parameters (m.newMessage isCallback um)
  rw [composeMessage, takenValues, if_neg (not_not.mpr hsize), if_neg (not_not.mpr hsize),
    addArguments_eq]
  generalize m.takeArguments 0 (values.take (intSize values.length).toNat) m.parameters
    (m.newMessage isCallback um) = taken at htaken ⊢
  obtain ⟨msg, text?⟩ := taken
  rcases htaken with ⟨k, text, hfirst, htext, hvalues⟩ | ⟨hall, hnone⟩
  · cases htext
    obtain ⟨p, hp, hmisfit⟩ := hfirst
    obtain ⟨hbound, -⟩ := List.getElem?_eq_some_iff.mp hp
    rw [List.length_zip, List.length_take] at hbound
    refine .inl ⟨k, text, ⟨p, hp, hmisfit⟩, by omega, rfl, ?_⟩
    rw [values_newMessage, List.nil_append] at hvalues
    rw [hvalues, List.length_take, List.length_take]
    omega
  · cases hnone
    exact .inr ⟨hall, msg, rfl⟩

/-- What fits as a whole fits as far as it is looked at. -/
theorem Matches.fits (h : m.Matches values) : ∀ p ∈ m.compared values, Fits p.1 p.2 := by
  intro p hp
  obtain ⟨i, hi⟩ := List.mem_iff_getElem?.mp hp
  obtain ⟨hvalue, hparameter⟩ := List.getElem?_zip_eq_some.mp hi
  rw [List.getElem?_take] at hvalue
  split_ifs at hvalue
  obtain ⟨-, hzip⟩ := List.forall₂_iff_zip.mp h
  exact hzip (List.mem_of_getElem? (List.getElem?_zip_eq_some.mpr ⟨hvalue, hparameter⟩))

/-- A message is given to the socket if it was composed. -/
theorem sent_call_ne_none {msg : NymphMessage}
    (h : m.composeMessage isCallback env.um values = .ok msg) :
    (m.call isCallback env j request values messages result).sent ≠ none := by
  rw [call, h, sendMessage]
  cases env.sending <;> exact Option.some_ne_none _

/-- A refusal does nothing but write the text. -/
theorem call_refused {text : Bytes}
    (h : m.composeMessage isCallback env.um values = .error text) :
    m.call isCallback env j request values messages result =
      ⟨false, request, text, messages, none⟩ := by
  rw [call, h]
  rfl

/-- Nor does a refusal of the overload for a session. -/
theorem callSession_refused {text : Bytes}
    (h : m.composeMessage isCallback env.um values = .error text) :
    m.callSession isCallback env values result = ⟨false, text, none⟩ := by
  rw [callSession, h]
  rfl

/-- A refusal leaves nothing open but the state of the arguments. -/
theorem refusesWhole_of_error {args : Arguments} {text : Bytes}
    (htext : m.composeMessage isCallback env.um args.values = .error text) :
    m.RefusesWhole isCallback env j request args messages result ↔
      args.OneState (m.takenValues isCallback env.um args.values).length := by
  constructor
  · intro h
    exact h.oneState text htext
  · intro hstate
    constructor
    · rw [call_refused htext]
      exact fun hsent => absurd rfl hsent
    · rw [callSession_refused htext]
      exact fun hsent => absurd rfl hsent
    · exact fun _ htext' => call_refused htext'
    · exact fun _ htext' => callSession_refused htext'
    · exact fun _ _ => hstate

/-- Neither overload changes something halfway if and only if the arguments are clear. -/
theorem refusesWhole_iff (m : NymphMethod) (isCallback : Bool) (env : CallEnvironment) (j : ℕ)
    (request : NymphRequest) (args : Arguments) (messages : OrderedMap.Map UInt64 ℕ)
    (result : Bytes) :
    m.RefusesWhole isCallback env j request args messages result ↔ m.Clear args := by
  by_cases hsize : intSize args.values.length = intSize m.parameters.length
  · rcases m.composeMessage_cases isCallback env.um hsize with
      ⟨k, text, hfirst, hk, htext, hlength⟩ | ⟨hall, msg, hmsg⟩
    · have hmatches : ¬m.Matches args.values := by
        intro hmatches
        obtain ⟨p, hp, hmisfit, -⟩ := hfirst
        exact hmisfit (hmatches.fits p (List.mem_of_getElem? hp))
      rw [refusesWhole_of_error htext, hlength, Arguments.oneState_iff hk]
      constructor
      · intro hstate
        exact .inr (.inr ⟨k, hfirst, hstate⟩)
      · rintro (hne | hmatch | ⟨i, hi, hstate⟩)
        · exact absurd hsize hne
        · exact absurd hmatch hmatches
        · rw [hfirst.unique hi]
          exact hstate
    · have hsent : (m.call isCallback env j request args.values messages result).sent ≠ none :=
        sent_call_ne_none hmsg
      constructor
      · intro h
        exact .inr (.inl (h.socketSent hsent))
      · rintro (hne | hmatch | ⟨i, ⟨p, hp, hmisfit, -⟩, -⟩)
        · exact absurd hsize hne
        · constructor
          · exact fun _ => hmatch
          · exact fun _ => hmatch
          all_goals
            intro text htext
            cases hmsg.symm.trans htext
        · exact absurd (hall p (List.mem_of_getElem? hp)) hmisfit
  · have htext : m.composeMessage isCallback env.um args.values =
        .error (characters "Provided value array length does not match method signature.") := by
      rw [composeMessage, if_pos hsize]
    rw [refusesWhole_of_error htext, takenValues, if_pos hsize]
    refine iff_of_true (.inl ?_) (.inl hsize)
    rintro p - ⟨q, hq, -⟩
    cases hq

/-- A method with two parameters that are booleans. -/
def twoBooleans : NymphMethod := .make [0x61] [.bool, .bool] .null
  NymphServerInstance.dummyCallback

/-- A boolean and a null, in an object each. -/
def booleanAndNull : Arguments :=
  let m : Members := ⟨1, 0, false, false, false⟩
  ⟨[⟨m, .boolean true⟩, ⟨m, .null⟩], [0, 1], [.boolean m true, .null m],
    .cons ⟨1, rfl⟩ (.cons ⟨1, rfl⟩ .nil)⟩

/-- A call that refuses the second of two arguments has deleted the first. -/
theorem not_refusesWhole_second : ¬twoBooleans.RefusesWhole false
    (NymphServerInstance.sentAndWaiting .timedOut) 0 ⟨0, 0, none, none, false, ⟨0, []⟩⟩
    booleanAndNull .empty [] := by
  intro h
  have htwo : intSize 2 = (2 : ℕ) := intSize_eq (by omega)
  have hcompared : twoBooleans.compared booleanAndNull.values =
      [(.boolean ⟨1, 0, false, false, false⟩ true, .bool),
        (.null ⟨1, 0, false, false, false⟩, .bool)] := by
    rw [compared, show booleanAndNull.values.length = 2 from rfl, htwo]
    rfl
  have hsecond : FirstMisfit (twoBooleans.compared booleanAndNull.values) 1 := by
    rw [hcompared]
    exact ⟨_, rfl, by decide, by decide⟩
  rcases twoBooleans.composeMessage_cases false (NymphServerInstance.sentAndWaiting .timedOut).um
    (show intSize booleanAndNull.values.length = intSize twoBooleans.parameters.length from rfl)
    with ⟨k, text, hfirst, hk, htext, hlength⟩ | ⟨hall, -⟩
  · have hstate := h.oneState text htext
    rw [hlength, hfirst.unique hsecond, Arguments.oneState_iff (by decide)] at hstate
    obtain ⟨q, hq, hdeletes⟩ := (hstate.resolve_left (by decide)) 1 (by decide)
    rw [List.mem_singleton.mp hq] at hdeletes
    -- the boolean, which the first pointer leads to, owns nothing
    rcases hdeletes.cases_head with heq | ⟨p, ⟨o, ho, -, hp⟩, -⟩
    · cases heq
    · cases ho
      cases hp
  · obtain ⟨p, hp, hmisfit, -⟩ := hsecond
    exact hmisfit (hall p (List.mem_of_getElem? hp))

end NymphMethod

end NymphRpc
