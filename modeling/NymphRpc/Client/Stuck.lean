import NymphRpc.Client.Rest

/-!
# A listener that waits for ever

A call whose bytes were not all sent returns without giving the mutex of its request back, and
leaves the request with its listener. If a message with its ID comes in after all, then the
listener takes `messagesMutex`, finds the request and waits for a mutex that nobody will release.
From then on no call on that connection can put a request to the listener or take one away, and a
call that waits for this keeps `instancesMutex`, which every other call needs.
-/

namespace NymphRpc

open Calls

namespace CallPhase

/-- The next step of the call needs `messagesMutex`. -/
@[grind] def needsMessages : CallPhase → Bool
  | serialized | removing _ => true
  | ready | entered | checking | added | sent | waiting | waking _ | woken _ | returning _ => false
  | returned _ => false

end CallPhase

namespace Calls

variable {s s' : Calls}

/-- The listener has found the request of a call that returned with its mutex. -/
structure Stuck (s : Calls) (h k j : ℕ) : Prop where
  found : (s.connections h).listener = .found k j
  mutex : (s.calls j).request.mutex = some .caller
  returned : ∃ o, (s.calls j).phase = .returned o

/-- A listener that has found the request of a call whose bytes were not all sent. -/
theorem Held.stuck (hs : s.Held) {h k j : ℕ} (hfound : (s.connections h).listener = .found k j)
    (hfailed : (s.calls j).phase = .returned .sendFailed) : s.Stuck h k j where
  found := hfound
  mutex := hs.caller j (by rw [hfailed]; rfl)
  returned := ⟨_, hfailed⟩

namespace Stuck

/-- No step wakes the listener. -/
theorem step {h k j : ℕ} (hstuck : s.Stuck h k j) (hs : s.Held) {e : ClientEvent}
    (hstep : ClientStep e s s') : s'.Stuck h k j := by
  obtain ⟨hfound, hmutex, o, hreturned⟩ := hstuck
  have hlistener := hs.listener
  refine ⟨?_, ?_, o, ?_⟩
  · cases hstep with
    | other hstep hphase => cases hstep <;> grind
    | _ => grind
  · cases hstep with
    | other hstep hphase => cases hstep <;> grind
    | _ => grind
  · cases hstep with
    | other hstep hphase => cases hstep <;> grind
    | _ => grind

/-- The listener keeps `messagesMutex`. -/
theorem messagesMutex {h k j : ℕ} (hstuck : s.Stuck h k j) (hs : s.Held) :
    (s.connections h).messagesMutex = true :=
  (hs.works h k j (by rw [hstuck.found]; rfl)).1

end Stuck

/-- A call that needs `messagesMutex` stays where it is while somebody else keeps it. -/
theorem needsMessages_step {e : ClientEvent} (hstep : ClientStep e s s') {h i : ℕ}
    (hmutex : (s.connections h).messagesMutex = true) (hlisted : (s.connections h).listed = true)
    (hhandle : (s.calls i).handle = h) (hneeds : (s.calls i).phase.needsMessages) :
    (s'.calls i).phase = (s.calls i).phase ∧ (s'.calls i).handle = h ∧
      (s'.calls i).sync = (s.calls i).sync := by
  cases hstep with
  | other hstep hphase => cases hstep <;> grind
  | _ => grind

end Calls

/-- Once a listener has found the request of a call whose bytes were not all sent, it never gets
on, as long as its connection is not removed. The calls on the connection that are to put a
request to the listener or to take one away stay there; and while one of them is a call of the
application, no other such call is under way, on whatever connection. -/
theorem stuck_of_sendFailed {s t : Calls} {h k j : ℕ} (hs : Run initial s)
    (hfound : (s.connections h).listener = .found k j)
    (hfailed : (s.calls j).phase = .returned .sendFailed)
    (hrun : Relation.ReflTransGen
      (fun s s' => (s.connections h).listed = true ∧ ∃ e, ClientStep e s s') s t) :
    (t.connections h).listener = .found k j ∧ (t.connections h).messagesMutex = true ∧
      ∀ i, (s.calls i).handle = h → (s.calls i).phase.needsMessages →
        (t.calls i).phase = (s.calls i).phase ∧
        ((s.calls i).sync = false → ∀ l, l ≠ i → (t.calls l).sync = false →
          (t.calls l).phase.underWay = false) := by
  let I (t : Calls) : Prop :=
    (t.Held ∧ t.Kept) ∧ t.Stuck h k j ∧
      ∀ i, (s.calls i).handle = h → (s.calls i).phase.needsMessages →
        (t.calls i).phase = (s.calls i).phase ∧ (t.calls i).handle = h ∧
          (t.calls i).sync = (s.calls i).sync
  have hstep : ∀ t t', I t → ((t.connections h).listed = true ∧ ∃ e, ClientStep e t t') → I t' := by
    rintro t t' ⟨⟨hheld, hkept⟩, hstuck, hsame⟩ ⟨hlisted, e, hstep⟩
    refine ⟨⟨hheld.step hstep, hkept.step hstep⟩, hstuck.step hheld hstep, ?_⟩
    intro i hhandle hneeds
    obtain ⟨hphase, hhandle', hsync⟩ := hsame i hhandle hneeds
    obtain ⟨hphase', hhandle'', hsync'⟩ := needsMessages_step hstep (hstuck.messagesMutex hheld)
      hlisted hhandle' (hphase ▸ hneeds)
    exact ⟨hphase'.trans hphase, hhandle'', hsync'.trans hsync⟩
  have hstart : I s :=
    ⟨⟨hs.held, hs.kept⟩, hs.held.stuck hfound hfailed, fun _ hhandle _ => ⟨rfl, hhandle, rfl⟩⟩
  obtain ⟨⟨hheld, hkept⟩, hstuck, hsame⟩ := Runs.invariant hstep hstart hrun
  refine ⟨hstuck.found, hstuck.messagesMutex hheld, fun i hhandle hneeds => ?_⟩
  obtain ⟨hphase, -, hsync⟩ := hsame i hhandle hneeds
  refine ⟨hphase, fun happlication l hne hl => ?_⟩
  by_contra hunderWay
  have hi : t.instancesMutex = some i := by
    refine (hkept.instances i).mpr ⟨hsync.trans happlication, ?_⟩
    rw [hphase]
    revert hneeds
    cases (s.calls i).phase <;> simp [CallPhase.needsMessages, CallPhase.underWay]
  have hl' : t.instancesMutex = some l :=
    (hkept.instances l).mpr ⟨hl, by simpa using hunderWay⟩
  exact hne (Option.some.inj (hl'.symm.trans hi))

/-- One more step of a run. -/
theorem Calls.Run.event {s s' : Calls} {e : ClientEvent} (hrun : Run initial s)
    (h : ClientStep e s s') : Run initial s' :=
  hrun.tail ⟨e, h⟩

/-- A step of one call that neither composes nor sends. -/
theorem Calls.Run.other {s s' : Calls} (hrun : Run initial s) (h : CallStep s s') (i : ℕ)
    (hi : (s.calls i).phase ≠ .checking ∧ (s.calls i).phase ≠ .added)
    (hothers : ∀ j, j ≠ i → s'.calls j = s.calls j) : Run initial s' := by
  refine hrun.tail ⟨_, .other h fun j hj => ?_⟩
  obtain rfl | hne := eq_or_ne j i
  · exact absurd hj (not_or.mpr hi)
  · rw [hothers j hne]

/-- After a call without its bytes was answered, the next call stays before the listener. -/
theorem stuck_of_sendFailed_next : ∃ s t : Calls, Run initial s ∧ s ≠ t ∧
    (s.connections 0).listener = .found 0 0 ∧ (t.connections 0).listener = .found 0 0 ∧
      (t.calls 1).phase = .serialized := by
  have haccepts : NymphServerInstance.silent.Accepts [] := ⟨rfl, by simp⟩
  obtain ⟨msg, hmsg⟩ : ∃ msg, NymphServerInstance.silent.composeMessage false ⟨0, 0⟩ [] = .ok msg :=
    NymphMethod.composeMessage_ok_iff.mpr haccepts
  obtain ⟨sent, hsent⟩ := NymphMethod.serialize_of_composeMessage hmsg 1 fun _ => 0
  obtain ⟨sent', hsent'⟩ := NymphMethod.serialize_of_composeMessage hmsg 2 fun _ => 0
  have hlisted : Run initial _ := .single ⟨_, .other (.addConnection 0) (by simp)⟩
  have hentered := hlisted.other (.enter 0 0 true rfl nofun) 0 (by simp [initial])
    (by simp +contextual)
  have hchecking := hentered.other (.lockMethods 0 rfl rfl) 0 (by simp) (by simp +contextual)
  have hcomposed := hchecking.event (.compose 0 _ _ _ _ ⟨0, []⟩ false false _ msg sent rfl
    (by decide) hmsg hsent fun _ => rfl)
  have hadded := hcomposed.other (.addMessage 0 rfl rfl) 0 (by simp) (by simp +contextual)
  have hfailed := hadded.event (.sendFail 0 .fewer rfl (by simp))
  have hfound := hfailed.event (.find 0 { sent with responseId := sent.messageId } 0 rfl rfl
    (by
      change (OrderedMap.Map.empty.insert sent.messageId 0).find? sent.messageId = some 0
      rw [OrderedMap.Map.find?_insert, if_pos rfl]
      rfl))
  have hnext := hfound.other (.enter 1 0 false rfl fun _ => rfl) 1 (by simp [initial])
    (by simp +contextual)
  have hlocked := hnext.other (.lockMethods 1 rfl rfl) 1 (by simp) (by simp +contextual)
  have hserialized := hlocked.event (.compose 1 _ _ _ _ ⟨0, []⟩ false false _ msg sent' rfl
    (show (2 : ℕ) + 1 < 2 ^ 63 by omega) hmsg hsent' fun _ => rfl)
  have hlater := stuck_of_sendFailed (h := 0) (k := 0) (j := 0) hserialized rfl rfl
    (.single ⟨rfl, _, .other (.takeId (show (3 : ℕ) + 1 < 2 ^ 63 by omega)) fun _ _ => rfl⟩)
  refine ⟨_, _, hserialized, ?_, rfl, hlater.1, (hlater.2.2 1 rfl rfl).1⟩
  intro heq
  have hcounter : (3 : ℕ) = 4 := congrArg Calls.messageId heq
  omega

end NymphRpc
