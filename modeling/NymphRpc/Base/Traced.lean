import Mathlib.Data.List.Basic
import Mathlib.Data.List.Infix

/-!
# Computations with a fault and an event log

A traced computation either returns or stops with a fault, and keeps the events it logged
in both cases. Sequencing runs the continuation only after a return and appends its log.

Computations given more fuel refine those given less: `Refines stuck` relates a run that
stopped with the fault `stuck` to any run whose log extends its own, and otherwise is
equality. Sequencing is monotone for it, so a recursion on fuel is monotone as soon as
each of its calls is.

`Ensures` is a triple whose precondition is about the log: if every logged event meets an
assumption, then the returned value, the fault and every logged event meet their conditions.
Its rules follow the syntax of a computation, and the assumption is only used where an event
is logged. `Returns` is its counterpart for total correctness. `Transports` relates two runs of
which the second does what the first does, on values of another type.
-/

/-- The fault or the returned value of a computation, and the events it logged. -/
structure Traced (ε ω α : Type) where
  result : Except ε α
  log : List ω

namespace Traced

variable {ε ω α β : Type}

/-- Return a value and log nothing. -/
protected def pure (a : α) : Traced ε ω α := ⟨.ok a, []⟩

/-- Stop with a fault. -/
def fault (e : ε) : Traced ε ω α := ⟨.error e, []⟩

/-- A computation that logs nothing. -/
def ofExcept (x : Except ε α) : Traced ε ω α := ⟨x, []⟩

/-- Log one event. -/
def tell (w : ω) : Traced ε ω Unit := ⟨.ok (), [w]⟩

/-- Log some events. -/
def tellAll (ws : List ω) : Traced ε ω Unit := ⟨.ok (), ws⟩

/-- Run the continuation on a returned value, after the events logged so far. -/
protected def bind (x : Traced ε ω α) (f : α → Traced ε ω β) : Traced ε ω β :=
  match x.result with
  | .ok a => ⟨(f a).result, x.log ++ (f a).log⟩
  | .error e => ⟨.error e, x.log⟩

instance : Monad (Traced ε ω) where
  pure := Traced.pure
  bind := Traced.bind

@[simp] theorem result_pure (a : α) : (pure a : Traced ε ω α).result = .ok a := rfl

@[simp] theorem log_pure (a : α) : (pure a : Traced ε ω α).log = [] := rfl

@[simp] theorem result_fault (e : ε) : (fault e : Traced ε ω α).result = .error e := rfl

@[simp] theorem log_fault (e : ε) : (fault e : Traced ε ω α).log = [] := rfl

@[simp] theorem result_tell (w : ω) : (tell w : Traced ε ω Unit).result = .ok () := rfl

@[simp] theorem log_tell (w : ω) : (tell w : Traced ε ω Unit).log = [w] := rfl

@[simp] theorem result_tellAll_bind (ws : List ω) (f : Unit → Traced ε ω β) :
    (tellAll ws >>= f).result = (f ()).result := rfl

@[simp] theorem log_tellAll_bind (ws : List ω) (f : Unit → Traced ε ω β) :
    (tellAll ws >>= f).log = ws ++ (f ()).log := rfl

/-- Logging some events, and then some more. -/
theorem tellAll_append_bind (ws ws' : List ω) (f : Unit → Traced ε ω β) :
    tellAll (ws ++ ws') >>= f = tellAll ws >>= fun _ => tellAll ws' >>= f :=
  congrArg (Traced.mk (f ()).result) (List.append_assoc ws ws' (f ()).log)

/-- Logging some events before a value that is used. -/
theorem tellAll_pure_bind (ws : List ω) (a : α) (f : α → Traced ε ω β) :
    (tellAll ws >>= fun _ => pure a) >>= f = tellAll ws >>= fun _ => f a :=
  congrArg (fun ws => Traced.mk (f a).result (ws ++ (f a).log)) (List.append_nil ws)

@[simp] theorem pure_bind (a : α) (f : α → Traced ε ω β) : (pure a >>= f) = f a := rfl

@[simp] theorem fault_bind (e : ε) (f : α → Traced ε ω β) : (fault e >>= f) = fault e := rfl

@[simp] theorem result_ofExcept (x : Except ε α) :
    (ofExcept x : Traced ε ω α).result = x := rfl

@[simp] theorem ofExcept_ok (a : α) : (ofExcept (.ok a) : Traced ε ω α) = pure a := rfl

/-- The result of a sequence is that of the results. -/
theorem result_bind (x : Traced ε ω α) (f : α → Traced ε ω β) :
    (x >>= f).result = x.result >>= fun a => (f a).result := by
  change (Traced.bind x f).result = _
  rw [Traced.bind]
  cases x.result <;> rfl

/-- After a return the result is that of the continuation. -/
theorem result_bind_of_ok {x : Traced ε ω α} {a : α} (h : x.result = .ok a)
    (f : α → Traced ε ω β) : (x >>= f).result = (f a).result := by
  change (Traced.bind x f).result = _
  simp only [Traced.bind, h]

/-- After a return the events are those of both parts. -/
theorem log_bind_of_ok {x : Traced ε ω α} {a : α} (h : x.result = .ok a)
    (f : α → Traced ε ω β) : (x >>= f).log = x.log ++ (f a).log := by
  change (Traced.bind x f).log = _
  simp only [Traced.bind, h]

/-- After a fault nothing more is logged. -/
theorem log_bind_of_error {x : Traced ε ω α} {e : ε} (h : x.result = .error e)
    (f : α → Traced ε ω β) : (x >>= f).log = x.log := by
  change (Traced.bind x f).log = _
  simp only [Traced.bind, h]

/-- A sequence returns exactly when both parts return. -/
theorem result_bind_eq_ok {x : Traced ε ω α} {f : α → Traced ε ω β} {b : β} :
    (x >>= f).result = .ok b ↔ ∃ a, x.result = .ok a ∧ (f a).result = .ok b := by
  change (Traced.bind x f).result = _ ↔ _
  cases h : x.result with
  | ok a => simp [Traced.bind, h]
  | error e => simp [Traced.bind, h]

/-- A sequence stops exactly when one of its parts does. -/
theorem result_bind_eq_error {x : Traced ε ω α} {f : α → Traced ε ω β} {e : ε} :
    (x >>= f).result = .error e ↔
      x.result = .error e ∨ ∃ a, x.result = .ok a ∧ (f a).result = .error e := by
  change (Traced.bind x f).result = _ ↔ _
  cases h : x.result with
  | ok a => simp [Traced.bind, h]
  | error e => simp [Traced.bind, h]

/-- The events of a sequence are those of its parts. -/
theorem mem_log_bind {x : Traced ε ω α} {f : α → Traced ε ω β} {w : ω} :
    w ∈ (x >>= f).log ↔ w ∈ x.log ∨ ∃ a, x.result = .ok a ∧ w ∈ (f a).log := by
  change w ∈ (Traced.bind x f).log ↔ _
  cases h : x.result with
  | ok a => simp [Traced.bind, h]
  | error e => simp [Traced.bind, h]

/-- The run `y` continues the run `x` past the point where `x` stopped with `stuck`. -/
def Refines (stuck : ε) (x y : Traced ε ω α) : Prop :=
  x = y ∨ x.result = .error stuck ∧ x.log <+: y.log

namespace Refines

variable {stuck : ε}

/-- Every run refines itself. -/
theorem refl (x : Traced ε ω α) : Refines stuck x x := Or.inl rfl

/-- A run that is stuck at once is refined by every run. -/
theorem of_fault (y : Traced ε ω α) : Refines stuck (fault stuck) y :=
  Or.inr ⟨rfl, List.nil_prefix⟩

/-- Refinement composes. -/
theorem trans {x y z : Traced ε ω α} (hxy : Refines stuck x y) (hyz : Refines stuck y z) :
    Refines stuck x z := by
  rcases hxy with rfl | ⟨hx, hlog⟩
  · exact hyz
  · rcases hyz with rfl | ⟨_, hlog'⟩
    · exact Or.inr ⟨hx, hlog⟩
    · exact Or.inr ⟨hx, hlog.trans hlog'⟩

/-- Sequencing is monotone in both parts. -/
theorem bind {x y : Traced ε ω α} {f g : α → Traced ε ω β} (h : Refines stuck x y)
    (hfg : ∀ a, Refines stuck (f a) (g a)) : Refines stuck (x >>= f) (y >>= g) := by
  change Refines stuck (Traced.bind x f) (Traced.bind y g)
  rcases h with rfl | ⟨hx, hlog⟩
  · cases hr : x.result with
    | error e => exact Or.inl (by simp [Traced.bind, hr])
    | ok a =>
      rcases hfg a with heq | ⟨hstuck, hprefix⟩
      · exact Or.inl (by simp [Traced.bind, hr, heq])
      · exact Or.inr (by simpa [Traced.bind, hr] using ⟨hstuck, hprefix⟩)
  · refine Or.inr ⟨by simp [Traced.bind, hx], ?_⟩
    have hy : y.log <+: (Traced.bind y g).log := by
      cases hr : y.result with
      | error e => simp [Traced.bind, hr]
      | ok a => simp [Traced.bind, hr]
    simpa [Traced.bind, hx] using hlog.trans hy

/-- Refinement keeps every result other than the stuck one. -/
theorem result_eq {x y : Traced ε ω α} (h : Refines stuck x y) (hx : x.result ≠ .error stuck) :
    y.result = x.result := by
  rcases h with rfl | ⟨hstuck, _⟩
  · rfl
  · exact absurd hstuck hx

/-- Refinement keeps every logged event. -/
theorem mem_log {x y : Traced ε ω α} (h : Refines stuck x y) {w : ω} (hw : w ∈ x.log) :
    w ∈ y.log := by
  rcases h with rfl | ⟨_, hlog⟩
  · exact hw
  · exact hlog.subset hw

end Refines

/-- If every logged event meets the assumption, the returned value is in `post`, the fault in
`stop`, and every logged event in `logs`. -/
def Ensures (assume : ω → Prop) (x : Traced ε ω α) (post : α → Prop) (stop : ε → Prop)
    (logs : ω → Prop) : Prop :=
  (∀ w ∈ x.log, assume w) →
    (∀ a, x.result = .ok a → post a) ∧ (∀ e, x.result = .error e → stop e) ∧ ∀ w ∈ x.log, logs w

namespace Ensures

variable {assume logs : ω → Prop} {post : α → Prop} {stop : ε → Prop}

/-- Returning a value. -/
theorem pure {a : α} (h : post a) : Ensures assume (pure a) post stop logs := by
  intro _
  refine ⟨?_, ?_, ?_⟩
  · intro b hb
    cases hb
    exact h
  · intro e he
    cases he
  · simp

/-- Stopping with a fault. -/
theorem fault {e : ε} (h : stop e) : Ensures assume (fault e : Traced ε ω α) post stop logs := by
  intro _
  refine ⟨?_, ?_, ?_⟩
  · intro b hb
    cases hb
  · intro e' he
    cases he
    exact h
  · simp

/-- Sequencing: what the first part ensures is known to the second. -/
theorem bind {x : Traced ε ω α} {f : α → Traced ε ω β} {post' : β → Prop}
    (hx : Ensures assume x post stop logs)
    (hf : ∀ a, post a → Ensures assume (f a) post' stop logs) :
    Ensures assume (x >>= f) post' stop logs := by
  intro hlog
  obtain ⟨hpost, hstop, hlogs⟩ := hx fun w hw => hlog w (mem_log_bind.mpr (.inl hw))
  have hrest : ∀ a, x.result = .ok a →
      (∀ b, (f a).result = .ok b → post' b) ∧ (∀ e, (f a).result = .error e → stop e) ∧
        ∀ w ∈ (f a).log, logs w := fun a ha =>
    hf a (hpost a ha) fun w hw => hlog w (mem_log_bind.mpr (.inr ⟨a, ha, hw⟩))
  refine ⟨?_, ?_, ?_⟩
  · intro b hb
    obtain ⟨a, ha, hfa⟩ := result_bind_eq_ok.mp hb
    exact (hrest a ha).1 b hfa
  · intro e he
    rcases result_bind_eq_error.mp he with hxe | ⟨a, ha, hfa⟩
    · exact hstop e hxe
    · exact (hrest a ha).2.1 e hfa
  · intro w hw
    rcases mem_log_bind.mp hw with hxw | ⟨a, ha, hfw⟩
    · exact hlogs w hxw
    · exact (hrest a ha).2.2 w hfw

/-- Logging an event: its assumption is known from there on. -/
theorem tell_bind {w : ω} {f : Unit → Traced ε ω β} {post' : β → Prop}
    (h : assume w → logs w ∧ Ensures assume (f ()) post' stop logs) :
    Ensures assume (tell w >>= f) post' stop logs := by
  intro hlog
  have hw : assume w := hlog w (mem_log_bind.mpr (.inl (by simp)))
  obtain ⟨hlogs, hf⟩ := h hw
  have htell : Ensures assume (tell w : Traced ε ω Unit) (fun _ => True) stop logs := by
    intro _
    refine ⟨fun _ _ => trivial, ?_, ?_⟩
    · intro e he
      cases he
    · simpa using hlogs
  exact htell.bind (fun _ _ => hf) hlog

/-- Weakening what is ensured of the value and of the fault. -/
theorem mono {x : Traced ε ω α} {post' : α → Prop} {stop' : ε → Prop}
    (h : Ensures assume x post stop logs) (hpost : ∀ a, post a → post' a)
    (hstop : ∀ e, stop e → stop' e) : Ensures assume x post' stop' logs := by
  intro hlog
  obtain ⟨hp, hs, hl⟩ := h hlog
  exact ⟨fun a ha => hpost a (hp a ha), fun e he => hstop e (hs e he), hl⟩

end Ensures

/-- The computation returns a value in `post` and logs only events in `logs`. -/
def Returns (logs : ω → Prop) (x : Traced ε ω α) (post : α → Prop) : Prop :=
  ∃ a, x.result = .ok a ∧ post a ∧ ∀ w ∈ x.log, logs w

namespace Returns

variable {logs : ω → Prop} {post : α → Prop}

/-- Returning a value. -/
theorem pure {a : α} (h : post a) : Returns logs (pure a : Traced ε ω α) post :=
  ⟨a, rfl, h, by simp⟩

/-- Sequencing: the second part may rely on what the first returned. -/
theorem bind {x : Traced ε ω α} {f : α → Traced ε ω β} {post' : β → Prop}
    (hx : Returns logs x post) (hf : ∀ a, post a → Returns logs (f a) post') :
    Returns logs (x >>= f) post' := by
  obtain ⟨a, ha, hpost, hlogs⟩ := hx
  obtain ⟨b, hb, hpost', hlogs'⟩ := hf a hpost
  refine ⟨b, (result_bind_of_ok ha f).trans hb, hpost', fun w hw => ?_⟩
  rcases mem_log_bind.mp hw with hmem | ⟨a', ha', hmem⟩
  · exact hlogs w hmem
  · cases ha.symm.trans ha'
    exact hlogs' w hmem

/-- Logging an allowed event. -/
theorem tell_bind {w : ω} {f : Unit → Traced ε ω β} {post' : β → Prop} (h : logs w)
    (hf : Returns logs (f ()) post') : Returns logs (tell w >>= f) post' := by
  have htell : Returns logs (tell w : Traced ε ω Unit) fun _ => True :=
    ⟨(), rfl, trivial, by simpa using h⟩
  exact htell.bind fun _ _ => hf

/-- Weakening what is known of the value. -/
theorem mono {x : Traced ε ω α} {post' : α → Prop} (h : Returns logs x post)
    (hpost : ∀ a, post a → post' a) : Returns logs x post' := by
  obtain ⟨a, ha, hp, hl⟩ := h
  exact ⟨a, ha, hpost a hp, hl⟩

end Returns

/-- Whenever `x` returns, `y` returns the image of that value after the same events. -/
def Transports (g : α → β) (x : Traced ε ω α) (y : Traced ε ω β) : Prop :=
  ∀ a, x.result = .ok a → y.result = .ok (g a) ∧ y.log = x.log

namespace Transports

variable {γ δ : Type} {g : α → β}

/-- Returning a value. -/
theorem pure {a : α} {b : β} (h : b = g a) :
    Transports g (pure a : Traced ε ω α) (pure b : Traced ε ω β) := by
  intro a' ha
  cases ha
  exact ⟨congrArg Except.ok h, rfl⟩

/-- A run that stops is transported to every run. -/
theorem fault {e : ε} {y : Traced ε ω β} : Transports g (fault e : Traced ε ω α) y := by
  intro a ha
  cases ha

/-- Sequencing: the continuations run on a value and on its image. -/
theorem bind {x : Traced ε ω α} {y : Traced ε ω β} {k : α → Traced ε ω γ} {l : β → Traced ε ω δ}
    {g' : γ → δ} (hxy : Transports g x y) (hkl : ∀ a, Transports g' (k a) (l (g a))) :
    Transports g' (x >>= k) (y >>= l) := by
  intro c hc
  obtain ⟨a, ha, hka⟩ := result_bind_eq_ok.mp hc
  obtain ⟨hy, hlog⟩ := hxy a ha
  obtain ⟨hl, hlog'⟩ := hkl a c hka
  rw [result_bind_of_ok hy, log_bind_of_ok hy, log_bind_of_ok ha, hlog, hlog']
  exact ⟨hl, rfl⟩

/-- Logging the same event. -/
theorem tell_bind {w : ω} {k : Unit → Traced ε ω γ} {l : Unit → Traced ε ω δ} {g' : γ → δ}
    (h : Transports g' (k ()) (l ())) : Transports g' (tell w >>= k) (tell w >>= l) := by
  have htell : Transports id (tell w : Traced ε ω Unit) (tell w) := fun _ ha => ⟨ha, rfl⟩
  exact htell.bind fun _ => h

end Transports

end Traced
