/-!
# Random sources

A random source is a stream of 32-bit values. Draws below a bound, choices from a list and
coin flips are made from it in a fixed way, so that two runs from equal sources agree.
-/

namespace ContextFree

/-- A stream of 32-bit values: the next value, and the source after it. -/
class RandomSource (σ : Type) where
  next : σ → UInt32 × σ

namespace RandomSource

variable {σ : Type} [RandomSource σ]

/-- One value, as a number of 32 bits. -/
def word (source : σ) : Nat × σ :=
  let (value, source) := next source
  (value.toNat, source)

/-- Two values as one number of 64 bits, the first of them in the low half. -/
def doubleWord (source : σ) : Nat × σ :=
  let (low, source) := word source
  let (high, source) := word source
  (high <<< 32 + low, source)

/-- The largest remainder that is accepted when a value of `bits` bits is scaled to a number
below `bound`: the bound, shifted up as far as it goes in so many bits, less one. -/
def zone (bits bound : Nat) : Nat := bound <<< (bits - 1 - bound.log2) - 1

/-- Draws values of `bits` bits until the product with `bound` leaves a remainder inside the
zone; the quotient is the number drawn. After `tries` rejected values the next one is taken
as it is, so that a draw ends whatever the source does; `Settles` is the loop that goes on. -/
def settle (bits : Nat) (draw : σ → Nat × σ) (bound : Nat) : (tries : Nat) → σ → Nat × σ
  | 0, source =>
    let (value, source) := draw source
    (value * bound / 1 <<< bits, source)
  | tries + 1, source =>
    let (value, source) := draw source
    if value * bound % 1 <<< bits ≤ zone bits bound then (value * bound / 1 <<< bits, source)
    else settle bits draw bound tries source

/-- The number of rejected values after which a draw settles. A value is rejected less than
every second time, so that no stream of random values comes near it. -/
def patience : Nat := 1 <<< 62

/-- A number below `bound`, from values of 32 bits. -/
def below32 (bound : Nat) (source : σ) : Nat × σ := settle 32 word bound patience source

/-- A number below `bound`, from values of 64 bits. -/
def below64 (bound : Nat) (source : σ) : Nat × σ := settle 64 doubleWord bound patience source

/-- An element of the list, each with the same chance. Nothing is drawn for an empty list. -/
def choose {α : Type} (choices : List α) (source : σ) : Option α × σ :=
  if choices.isEmpty then (none, source)
  else
    let (index, source) := below32 choices.length source
    (choices[index]?, source)

/-- Heads or tails: whether a 64-bit value lies in the lower half of its range. -/
def flip (source : σ) : Bool × σ :=
  let (value, source) := doubleWord source
  (value < 1 <<< 63, source)

/-! ## A draw stays below its bound -/

theorem word_lt (source : σ) : (word source).1 < 1 <<< 32 := (next source).1.toNat_lt

theorem doubleWord_lt (source : σ) : (doubleWord source).1 < 1 <<< 64 := by
  have hlow : (word source).1 < 4294967296 := word_lt source
  have hhigh : (word (word source).2).1 < 4294967296 := word_lt (word source).2
  show (word (word source).2).1 <<< 32 + (word source).1 < 18446744073709551616
  rw [Nat.shiftLeft_eq]
  omega

/-- Scaling a value of `bits` bits gives a number below the bound. -/
theorem scaled_lt {bits value bound : Nat} (hvalue : value < 1 <<< bits) (hbound : 0 < bound) :
    value * bound / 1 <<< bits < bound := by
  have hpos : 0 < 1 <<< bits := Nat.lt_of_le_of_lt (Nat.zero_le value) hvalue
  rw [Nat.div_lt_iff_lt_mul hpos, Nat.mul_comm bound]
  exact Nat.mul_lt_mul_of_pos_right hvalue hbound

theorem settle_lt {τ : Type} {bits bound : Nat} {draw : τ → Nat × τ}
    (hdraw : ∀ source, (draw source).1 < 1 <<< bits) (hbound : 0 < bound) (tries : Nat)
    (source : τ) : (settle bits draw bound tries source).1 < bound := by
  induction tries generalizing source with
  | zero => exact scaled_lt (hdraw source) hbound
  | succ tries ih =>
    simp only [settle]
    split
    · exact scaled_lt (hdraw source) hbound
    · exact ih _

theorem below32_lt {bound : Nat} (hbound : 0 < bound) (source : σ) :
    (below32 bound source).1 < bound :=
  settle_lt word_lt hbound patience source

theorem below64_lt {bound : Nat} (hbound : 0 < bound) (source : σ) :
    (below64 bound source).1 < bound :=
  settle_lt doubleWord_lt hbound patience source

theorem mem_of_choose {α : Type} {choices : List α} {source : σ} {choice : α}
    (chosen : (choose choices source).1 = some choice) : choice ∈ choices := by
  unfold choose at chosen
  by_cases empty : choices.isEmpty = true
  · rw [if_pos empty] at chosen
    cases chosen
  · rw [if_neg empty] at chosen
    exact List.mem_of_getElem? chosen

/-- A choice fails only where there is nothing to choose from. -/
theorem choose_eq_none_iff {α : Type} {choices : List α} {source : σ} :
    (choose choices source).1 = none ↔ choices = [] := by
  unfold choose
  by_cases empty : choices.isEmpty = true
  · rw [if_pos empty]
    exact iff_of_true rfl (List.isEmpty_iff.mp empty)
  · have nonempty : choices ≠ [] := fun equal => empty (List.isEmpty_iff.mpr equal)
    have inside := below32_lt (List.length_pos_iff.mpr nonempty) source
    rw [if_neg empty]
    refine iff_of_false (fun missing => ?_) nonempty
    exact Nat.not_le_of_lt inside (List.getElem?_eq_none_iff.mp missing)

end RandomSource

/-! ## Sources built from others -/

/-- A source that counts the values taken from it. -/
structure Counted (σ : Type) where
  source : σ
  taken : Nat

instance {σ : Type} [RandomSource σ] : RandomSource (Counted σ) where
  next counted :=
    let (value, source) := RandomSource.next counted.source
    (value, ⟨source, counted.taken + 1⟩)

/-- Either of two sources. -/
instance {σ τ : Type} [RandomSource σ] [RandomSource τ] : RandomSource (σ ⊕ τ) where
  next
    | .inl source =>
      let (value, source) := RandomSource.next source
      (value, .inl source)
    | .inr source =>
      let (value, source) := RandomSource.next source
      (value, .inr source)

/-- The listed values in order, then zeros for ever. -/
structure Script where
  values : List UInt32
deriving DecidableEq, Repr

instance : RandomSource Script where
  next
    | ⟨[]⟩ => (0, ⟨[]⟩)
    | ⟨value :: values⟩ => (value, ⟨values⟩)

end ContextFree
