import NymphRpc.Types.ParseValue

/-!
# More fuel continues a parse

A parse with more fuel does what the parse with less fuel did and, where that one ran out,
goes on. So the fuel that a decode is given never shows in what it returns or reads, and a
result that is reached at some fuel is the result at every fuel that does not run out.
-/

namespace NymphRpc

open LittleEndian Buffer NymphType

/-- The run `y` continues the run `x` past the point where it ran out of fuel. -/
abbrev Continues {α : Type} (x y : Decode α) : Prop := Traced.Refines .outOfFuel x y

variable {u : ℤ → Uninit}

/-- The calls of all three functions with one more unit of fuel continue those without it. -/
structure ParseContinues (u : ℤ → Uninit) (fuel : ℕ) : Prop where
  value : ∀ self tc binmsg index,
    Continues (parseValue u fuel self tc binmsg index)
      (parseValue u (fuel + 1) self tc binmsg index)
  elements : ∀ n binmsg index,
    Continues (parseElements u fuel n binmsg index) (parseElements u (fuel + 1) n binmsg index)
  pairs : ∀ binmsg index pairs length,
    Continues (parsePairs u fuel binmsg index pairs length)
      (parsePairs u (fuel + 1) binmsg index pairs length)

open Traced.Refines in
/-- A call of `parseValue` is monotone in the calls below it. -/
theorem ParseContinues.value_succ {fuel : ℕ} (ih : ParseContinues u fuel) (self : NymphType)
    (tc : UInt8) (binmsg : Bytes) (index : ℤ) :
    Continues (parseValue u (fuel + 1) self tc binmsg index)
      (parseValue u (fuel + 1 + 1) self tc binmsg index) := by
  rw [parseValue, parseValue]
  cases NymphInternalTypes.ofByte tc with
  | none => exact refl _
  | some c =>
    cases c with
    | array =>
      apply bind (refl _)
      intro count
      dsimp only
      split_ifs
      · exact refl _
      · exact bind (ih.elements _ _ _) fun _ => refl _
    | struct => exact bind (ih.pairs _ _ _ _) fun _ => refl _
    | _ => exact refl _

open Traced.Refines in
/-- A round of the array loop is monotone in the calls below it. -/
theorem ParseContinues.elements_succ {fuel : ℕ} (ih : ParseContinues u fuel) (n : ℕ)
    (binmsg : Bytes) (index : ℤ) :
    Continues (parseElements u (fuel + 1) n binmsg index)
      (parseElements u (fuel + 1 + 1) n binmsg index) := by
  cases n with
  | zero => exact refl _
  | succ n =>
    rw [parseElements, parseElements]
    refine bind (refl _) fun tc => bind (ih.value _ _ _ _) fun el => bind (refl _) fun _ => ?_
    exact bind (ih.elements _ _ _) fun _ => refl _

open Traced.Refines in
/-- A round of the struct loop is monotone in the calls below it. -/
theorem ParseContinues.pairs_succ {fuel : ℕ} (ih : ParseContinues u fuel) (binmsg : Bytes)
    (index : ℤ) (pairs : List NymphPair) (length : UInt64) :
    Continues (parsePairs u (fuel + 1) binmsg index pairs length)
      (parsePairs u (fuel + 1 + 1) binmsg index pairs length) := by
  rw [parsePairs, parsePairs]
  apply bind (refl _)
  intro tc
  split_ifs
  · exact refl _
  · exact refl _
  · refine bind (ih.value _ _ _ _) fun key => bind (refl _) fun _ => ?_
    split_ifs
    · refine bind (refl _) fun tc => bind (ih.value _ _ _ _) fun val => bind (refl _) fun _ => ?_
      split_ifs
      · exact bind (refl _) fun _ => ih.pairs _ _ _ _
      · exact refl _
    · exact refl _

/-- One more unit of fuel continues every call. -/
theorem parse_continues (u : ℤ → Uninit) (fuel : ℕ) : ParseContinues u fuel := by
  induction fuel with
  | zero =>
    refine ⟨?_, ?_, ?_⟩
    · intro self tc binmsg index
      exact .of_fault _
    · intro n binmsg index
      exact .of_fault _
    · intro binmsg index pairs length
      exact .of_fault _
  | succ fuel ih => exact ⟨ih.value_succ, ih.elements_succ, ih.pairs_succ⟩

end NymphRpc
