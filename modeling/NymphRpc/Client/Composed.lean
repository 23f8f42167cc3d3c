import NymphRpc.Client.Calling
import NymphRpc.Message.RoundTrip

/-!
# The message of a call

What `NymphMethod::call` makes of arguments that it accepts is the message an application would
prepare for them by hand: one value after the other, behind the name if the method is a callback.
-/

namespace NymphRpc

namespace NymphMethod

/-- What a call on some arguments carries. -/
def content (m : NymphMethod) (isCallback : Bool) (vs : List Value) : Content :=
  if isCallback then .callback m.name vs else .regular vs

/-- The loop adds every argument if there is a parameter for each. -/
theorem eq_of_addArguments {m : NymphMethod} {i : ℕ} {values : List NymphType}
    {parameters : List NymphTypes} {msg msg' : NymphMessage}
    (h : m.addArguments i values parameters msg = .ok msg')
    (hle : values.length ≤ parameters.length) :
    msg' = values.foldl NymphMessage.addValue msg := by
  induction values generalizing i parameters msg with
  | nil =>
    cases h
    rfl
  | cons value values ih =>
    cases parameters with
    | nil => simp at hle
    | cons parameter parameters =>
      rw [addArguments] at h
      split_ifs at h
      rw [List.foldl_cons]
      exact ih h (by simpa using hle)

/-- Fewer than 2^31 arguments have no more than as many parameters, if the counts are the same as
`int`s. -/
theorem length_le_of_intSize {n k : ℕ} (hn : n < 2 ^ 31) (h : intSize n = intSize k) : n ≤ k := by
  by_contra hlt
  rw [intSize_eq hn, intSize_eq (by omega)] at h
  omega

/-- A message that a call composes is one that was prepared for its values. -/
theorem prepared_of_composeMessage {m : NymphMethod} {isCallback : Bool} {um : MessageUninit}
    {vs : List Value} {ts : List NymphType} {msg : NymphMessage} (hvalues : ConstructsAll vs ts)
    (hsize : Value.sizeAll vs < 2 ^ 31) (h : m.composeMessage isCallback um ts = .ok msg) :
    Prepared um m.id (m.content isCallback vs) msg := by
  obtain ⟨-, -, -, hlength⟩ := hvalues.represents (by omega)
  obtain ⟨hdenotes, hencoded⟩ := hvalues.encode (by omega)
  have hcount := hdenotes.length_le
  have hshort : ts.length < 2 ^ 31 := by omega
  rw [composeMessage] at h
  split_ifs at h with hsame
  have hle := length_le_of_intSize hshort (not_not.mp hsame)
  rw [intSize_eq hshort, Int.toNat_natCast, List.take_length] at h
  rw [eq_of_addArguments h hle]
  cases isCallback with
  | false => exact .regular hvalues
  | true => exact .callback m.name hvalues

end NymphMethod

end NymphRpc
