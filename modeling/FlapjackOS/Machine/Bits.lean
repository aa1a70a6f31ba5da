namespace FlapjackOS.Bits

variable {w bit i : Nat} {data : BitVec w} {on : Bool}

/-- The word `1 << bit`. -/
def mask (w bit : Nat) : BitVec w := 1#w <<< bit

def testFlag (data : BitVec w) (bit : Nat) : Bool := data &&& mask w bit != 0

def setFlag (data : BitVec w) (bit : Nat) (on : Bool) : BitVec w :=
  if on then data ||| mask w bit else data &&& ~~~ mask w bit

theorem mask_eq_twoPow : mask w bit = BitVec.twoPow w bit := (BitVec.twoPow_eq w bit).symm

theorem testFlag_eq (inside : bit < w) : testFlag data bit = data.getLsbD bit := by
  have nonzero : BitVec.twoPow w bit ≠ 0#w := by
    intro zero
    have high : (BitVec.twoPow w bit).getLsbD bit = true := by simp [inside]
    simp [zero] at high
  rw [testFlag, mask_eq_twoPow, BitVec.and_twoPow]
  split
  · rename_i high
    rw [high]
    exact bne_iff_ne.mpr nonzero
  · rename_i low
    simp [low]

theorem getLsbD_setFlag (inside : i < w) :
    (setFlag data bit on).getLsbD i = if i = bit then on else data.getLsbD i := by
  unfold setFlag
  rw [mask_eq_twoPow]
  by_cases same : i = bit
  · subst same
    cases on with
    | true => simp [inside]
    | false => simp [inside]
  · cases on with
    | true => simp [BitVec.getLsbD_twoPow, same, Ne.symm same]
    | false => simp [same, inside]

theorem testFlag_setFlag (inside : i < w) :
    testFlag (setFlag data bit on) i = if i = bit then on else testFlag data i := by
  rw [testFlag_eq inside, getLsbD_setFlag inside, testFlag_eq inside]

theorem setFlag_eq_self_iff (inside : bit < w) : setFlag data bit on = data ↔ testFlag data bit = on := by
  constructor
  · intro same
    rw [← same, testFlag_setFlag inside, if_pos rfl]
  · intro already
    apply BitVec.eq_of_getLsbD_eq
    intro i within
    rw [getLsbD_setFlag within]
    split
    · next here => rw [here, ← testFlag_eq inside, already]
    · rfl

theorem setFlag_comm {other : Nat} {enabled : Bool} (different : bit ≠ other) :
    setFlag (setFlag data bit on) other enabled = setFlag (setFlag data other enabled) bit on := by
  apply BitVec.eq_of_getLsbD_eq
  intro i inside
  rw [getLsbD_setFlag inside, getLsbD_setFlag inside, getLsbD_setFlag inside, getLsbD_setFlag inside]
  split
  · next same => rw [if_neg (fun here => different (here.symm.trans same))]
  · rfl

section
variable {n : Nat} {field kept value : BitVec w}

theorem and_of_clear (clear : ∀ i, i < w → kept.getLsbD i = true → value.getLsbD i = false) :
    value &&& ~~~ kept = value := by
  apply BitVec.eq_of_getLsbD_eq
  intro i inside
  rw [BitVec.getLsbD_and, BitVec.getLsbD_not]
  cases high : kept.getLsbD i with
  | true => simp [clear i inside high]
  | false => simp [inside]

/-- Shifting a field out and back is masking, if the mask has the shape of the field. -/
theorem shift_field (shape : ∀ i, i < w →
      (!kept.getLsbD i) = (decide (n ≤ i) && field.getLsbD (i - n))) :
    ((value >>> n) &&& field) <<< n = value &&& ~~~ kept := by
  apply BitVec.eq_of_getLsbD_eq
  intro i inside
  rw [BitVec.getLsbD_shiftLeft, BitVec.getLsbD_and, BitVec.getLsbD_ushiftRight, BitVec.getLsbD_and,
    BitVec.getLsbD_not, shape i inside]
  by_cases low : i < n
  · simp [low, Nat.not_le.mpr low]
  · have back : n + (i - n) = i := by omega
    simp [low, inside, back, Nat.le_of_not_lt low]

end

section
variable {first second other u v value : BitVec w}

/-- Replace the bits of a mask by those of a value. -/
def put (mask value data : BitVec w) : BitVec w := (data &&& ~~~ mask) ||| (value &&& mask)

theorem getElem_put (inside : i < w) : (put first value data)[i] = if first[i] then value[i] else data[i] := by
  cases high : first[i] <;> simp [put, high]

theorem apart_cases (apart : first &&& second = 0) (inside : i < w) : first[i] = false ∨ second[i] = false := by
  rw [← Bool.and_eq_false_iff, ← BitVec.getElem_and, apart]
  exact BitVec.getElem_zero inside

theorem put_comm (apart : first &&& second = 0) :
    put second u (put first v data) = put first v (put second u data) := by
  ext i inside
  rcases apart_cases apart inside with low | low <;> simp [getElem_put, low]

theorem put_and (within : first &&& other = other) : put first value data &&& other = value &&& other := by
  ext i inside
  rw [← within]
  cases high : first[i] <;> simp [getElem_put, high]

theorem put_and_of_apart (apart : first &&& other = 0) : put first value data &&& other = data &&& other := by
  ext i inside
  rcases apart_cases apart inside with low | low <;> simp [getElem_put, low]

theorem setFlag_eq_put : setFlag data bit on = put (mask w bit) (if on then mask w bit else 0) data := by
  ext i inside
  simp only [setFlag, put]
  cases on <;> cases high : (mask w bit)[i] <;> simp [high]

end

end FlapjackOS.Bits
