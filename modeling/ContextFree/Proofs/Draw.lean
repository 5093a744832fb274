import ContextFree.Random.Source

/-!
# Draws from a random source

A number below a bound is drawn by taking one value after another until the remainder of one lies in
the zone. `Settles` is this loop, which nothing bounds: where all values are rejected it has no
result. `settle` gives up after a number of rejected values, and has the result of the loop whenever
that comes before it does (`Settles.settle_eq`). On a script it always comes, at the latest with the
zeros at its end (`settles_below32`, `settles_below64`).

Values can be written down in advance, so that a given number is drawn, a given element is chosen or
a coin shows heads.
-/

namespace ContextFree.RandomSource

/-! ## The loop without a bound -/

section Loop

variable {σ : Type} {bits bound tries rejected : Nat} {draw : σ → Nat × σ} {source : σ}
variable {result : Nat × σ}

/-- The product of the value with the bound leaves a remainder inside the zone. -/
def Accepted (bits bound value : Nat) : Prop := value * bound % 1 <<< bits ≤ zone bits bound

/-- From the source, values of `bits` bits are drawn until one is accepted, after so many that are
rejected; the result is the number that it is scaled to, and the source after it. -/
inductive Settles (bits : Nat) (draw : σ → Nat × σ) (bound : Nat) : Nat → σ → Nat × σ → Prop
  | accept {source : σ} : Accepted bits bound (draw source).1 →
      Settles bits draw bound 0 source ((draw source).1 * bound / 1 <<< bits, (draw source).2)
  | reject {rejected : Nat} {source : σ} {result : Nat × σ} :
      ¬ Accepted bits bound (draw source).1 →
      Settles bits draw bound rejected (draw source).2 result →
      Settles bits draw bound (rejected + 1) source result

/-- The loop with a bound has the result of the one without, if that comes within the bound. -/
theorem Settles.settle_eq (settles : Settles bits draw bound rejected source result)
    (within : rejected ≤ tries) : settle bits draw bound tries source = result := by
  induction settles generalizing tries with
  | accept accepted =>
    -- The value is taken with or without tries left.
    cases tries with
    | zero => rfl
    | succ tries => exact if_pos accepted
  | reject refused _ ih =>
    cases tries with
    | zero => cases within
    | succ tries =>
      rw [← ih (Nat.le_of_succ_le_succ within)]
      exact if_neg refused

theorem le_zone_of_lt {remainder : Nat} (small : remainder < bound) :
    remainder ≤ zone bits bound := by
  have shifted : bound ≤ bound <<< (bits - 1 - bound.log2) := by
    rw [Nat.shiftLeft_eq]
    exact Nat.le_mul_of_pos_right _ (Nat.two_pow_pos _)
  unfold zone
  omega

theorem accepted_zero (bits bound : Nat) : Accepted bits bound 0 := by
  rw [Accepted, Nat.zero_mul, Nat.zero_mod]
  exact Nat.zero_le _

end Loop

/-! ## Draws from a script -/

section Script

variable {bits bound : Nat} {script : Script}

/-- Draws that use up a script come to an end on it, since a zero is accepted. -/
theorem exists_settles_script {draw : Script → Nat × Script} (zero : (draw ⟨[]⟩).1 = 0)
    (shorter : ∀ script, script.values ≠ [] →
      (draw script).2.values.length < script.values.length) (script : Script) :
    ∃ rejected ≤ script.values.length, ∃ result,
      Settles bits draw bound rejected script result := by
  by_cases accepted : Accepted bits bound (draw script).1
  · exact ⟨0, Nat.zero_le _, _, .accept accepted⟩
  · have values : script.values ≠ [] := by
      intro empty
      obtain rfl : script = ⟨[]⟩ := congrArg Script.mk empty
      rw [zero] at accepted
      exact accepted (accepted_zero bits bound)
    have fewer := shorter script values
    obtain ⟨rejected, within, result, settles⟩ := exists_settles_script zero shorter (draw script).2
    exact ⟨rejected + 1, by omega, result, .reject accepted settles⟩
termination_by script.values.length

theorem settles_settle_script {draw : Script → Nat × Script} (zero : (draw ⟨[]⟩).1 = 0)
    (shorter : ∀ script, script.values ≠ [] →
      (draw script).2.values.length < script.values.length) {tries : Nat}
    (short : script.values.length ≤ tries) :
    ∃ rejected, Settles bits draw bound rejected script (settle bits draw bound tries script) := by
  obtain ⟨rejected, within, result, settles⟩ := exists_settles_script zero shorter script
  rw [settles.settle_eq (Nat.le_trans within short)]
  exact ⟨rejected, settles⟩

/-- On a script a number from values of 32 bits is drawn by the loop without a bound. -/
theorem settles_below32 (bound : Nat) (short : script.values.length ≤ patience) :
    ∃ rejected, Settles 32 word bound rejected script (below32 bound script) := by
  apply settles_settle_script rfl _ short
  rintro ⟨_ | ⟨value, values⟩⟩ nonempty
  · exact absurd rfl nonempty
  · exact Nat.lt_succ_self _

/-- On a script a number from values of 64 bits is drawn by the loop without a bound. -/
theorem settles_below64 (bound : Nat) (short : script.values.length ≤ patience) :
    ∃ rejected, Settles 64 doubleWord bound rejected script (below64 bound script) := by
  apply settles_settle_script rfl _ short
  -- A value that stands alone at the end is the low half, and the high half is zero.
  rintro ⟨_ | ⟨low, _ | ⟨high, values⟩⟩⟩ nonempty
  · exact absurd rfl nonempty
  · exact Nat.zero_lt_one
  · exact Nat.lt_add_of_pos_right Nat.zero_lt_two

/-! ## Values written down in advance -/

/-- Every number below the bound is what a value of 32 bits is scaled to, with a remainder that is
accepted: the least value whose product with the bound comes up to the number. -/
theorem exists_scaled_eq {index : Nat} (inside : index < bound) (narrow : bound ≤ 1 <<< 32) :
    ∃ value < 1 <<< 32, value * bound / 1 <<< 32 = index ∧ value * bound % 1 <<< 32 < bound := by
  have width : (1 : Nat) <<< 32 = 4294967296 := rfl
  rw [width] at narrow ⊢
  obtain ⟨value, remainder, product, small⟩ : ∃ value remainder,
      value * bound = index * 4294967296 + remainder ∧ remainder < bound := by
    have division := Nat.div_add_mod (index * 4294967296 + (bound - 1)) bound
    have less := Nat.mod_lt (index * 4294967296 + (bound - 1)) (Nat.zero_lt_of_lt inside)
    rw [Nat.mul_comm] at division
    exact ⟨(index * 4294967296 + (bound - 1)) / bound,
      bound - 1 - (index * 4294967296 + (bound - 1)) % bound, by omega, by omega⟩
  refine ⟨value, ?_, ?_, ?_⟩
  · apply Nat.lt_of_mul_lt_mul_right (a := bound)
    omega
  · omega
  · omega

/-- Every number below the bound is drawn for some value, which is accepted at once. -/
theorem exists_below32_eq {index : Nat} (inside : index < bound) (narrow : bound ≤ 1 <<< 32) :
    ∃ value, ∀ values, below32 bound (Script.mk (value :: values)) = (index, Script.mk values) := by
  obtain ⟨value, small, quotient, remainder⟩ := exists_scaled_eq inside narrow
  have read : (UInt32.ofNat value).toNat = value := UInt32.toNat_ofNat_of_lt' small
  refine ⟨UInt32.ofNat value, fun values => ?_⟩
  have drawn : word (Script.mk (UInt32.ofNat value :: values)) = (value, Script.mk values) :=
    Prod.ext read rfl
  have accepted : Accepted 32 bound (word (Script.mk (UInt32.ofNat value :: values))).1 := by
    rw [drawn]
    exact le_zone_of_lt remainder
  rw [below32, (Settles.accept accepted).settle_eq (Nat.zero_le _), drawn, quotient]

/-- Every element of a list that is not too long is chosen for some value. -/
theorem exists_choose_eq {α : Type} {choices : List α} {choice : α} (member : choice ∈ choices)
    (narrow : choices.length ≤ 1 <<< 32) :
    ∃ value, ∀ values, choose choices (Script.mk (value :: values)) =
      (some choice, Script.mk values) := by
  obtain ⟨index, inside, found⟩ := List.getElem_of_mem member
  obtain ⟨value, drawn⟩ := exists_below32_eq inside narrow
  refine ⟨value, fun values => ?_⟩
  have nonempty : ¬ choices.isEmpty = true := fun empty =>
    List.ne_nil_of_mem member (List.isEmpty_iff.mp empty)
  rw [choose, if_neg nonempty, drawn]
  exact Prod.ext (found ▸ List.getElem?_eq_getElem inside) rfl

theorem flip_zeros (values : List UInt32) :
    flip (Script.mk (0 :: 0 :: values)) = (true, Script.mk values) := rfl

end Script

end ContextFree.RandomSource
