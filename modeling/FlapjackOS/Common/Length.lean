import FlapjackOS.Common.Truncation

/-! What `vsnprintf` returns. -/

namespace FlapjackOS.Stdio

open Machine Allotment

variable {arch : Arch}

theorem toInt_ofNat_eq_iff (count length : Nat) :
    (BitVec.ofNat 32 count).toInt = (length : Int) ↔ count % 2 ^ 32 = length ∧ length < 2 ^ 31 := by
  rw [BitVec.toInt_eq_toNat_cond, BitVec.toNat_ofNat]
  split <;> omega

/-- Two calls with any sizes return the same number, which is the length of the whole text. -/
def ReturnsLength (arch : Arch) (memory : Memory) (buf : Nat) (fmt : List UInt8)
    (args : List (Argument arch)) (length : Nat) : Prop :=
  ∀ size other, 1 ≤ size → 1 ≤ other → ∃ count first second,
    vsnprintf arch memory buf size (some fmt) args = some (count, first) ∧
    vsnprintf arch memory buf other (some fmt) args = some (count, second) ∧ count.toInt = (length : Int)

/-- The number that is returned, as an `int`, whatever room there is. -/
theorem ReturnsLength.counts (returns : ReturnsLength arch memory buf fmt args length)
    (scripted : script arch false fmt args = some pieces) (buffer : buf ≠ 0) (room : Nat) :
    (counted room pieces + hidden arch false fmt args) % 2 ^ 32 = length ∧ length < 2 ^ 31 := by
  obtain ⟨count, first, _, call, _, same⟩ := returns (room + 1) 1 (by omega) (by omega)
  rw [vsnprintf_eq scripted memory buffer (by omega)] at call
  obtain ⟨rfl, _⟩ := Prod.mk.inj (Option.some.inj call)
  exact (toInt_ofNat_eq_iff _ _).mp same

/-- With an unlimited buffer a call leaves a certain text. Calls return its length whatever the size
if and only if no pointer has leading zeros, the characters that are not written do not show in an
`int`, and the length is one. -/
theorem vsnprintf_returns_length_iff (scripted : script arch false fmt args = some pieces)
    (buffer : buf ≠ 0) (memory : Memory) :
    (∃ enough, ∀ size, enough ≤ size → Leaves arch memory buf fmt args size (whole pieces)) ∧
      (ReturnsLength arch memory buf fmt args (whole pieces).length ↔
        lost pieces = 0 ∧ hidden arch false fmt args % 2 ^ 32 = 0 ∧ (whole pieces).length < 2 ^ 31) := by
  refine ⟨exists_leaves_whole scripted buffer memory, ?_⟩
  constructor
  · intro returns
    have counts := returns.counts scripted buffer
    obtain ⟨large, short⟩ := counts ((whole pieces).length + lost pieces)
    rw [counted_of_le (Nat.le_refl _)] at large
    refine ⟨?_, by omega, short⟩
    by_contra loses
    obtain ⟨room, missing⟩ := exists_counted_lt (formatLoop_inserts scripted).1.purposeful loses
    have small := (counts room).1
    omega
  · rintro ⟨none, unseen, short⟩ size other positive positiveOther
    have counts (room : Nat) : (counted room pieces + hidden arch false fmt args) % 2 ^ 32 = (whole pieces).length := by
      rw [counted_of_intact none]
      omega
    have number : BitVec.ofNat 32 (counted (other - 1) pieces + hidden arch false fmt args) =
        BitVec.ofNat 32 (counted (size - 1) pieces + hidden arch false fmt args) := by
      apply BitVec.eq_of_toNat_eq
      rw [BitVec.toNat_ofNat, BitVec.toNat_ofNat, counts, counts]
    have first := vsnprintf_eq scripted memory buffer positive
    have second := vsnprintf_eq scripted memory buffer positiveOther
    rw [number] at second
    exact ⟨_, _, _, first, second, (toInt_ofNat_eq_iff _ _).mpr ⟨counts _, short⟩⟩

theorem vsnprintf_returns_length_sample :
    ReturnsLength .x86_64 (fun _ => 255) 4096 (literal ['%', 'd', ' ', '%', 's'])
      [.int 42, .pointer 16 (literal ['o', 'k'])] 5 :=
  ((@vsnprintf_returns_length_iff .x86_64 (literal ['%', 'd', ' ', '%', 's'])
    [.int 42, .pointer 16 (literal ['o', 'k'])] _ 4096 rfl (by decide) (fun _ => 255)).2).mpr
    ⟨by decide, by decide, by decide⟩

/-- The eight digits of a pointer are not all counted if there is no room for its zeros, and a
character that is not written is counted. -/
theorem return_value_differs :
    (vsnprintf .i386 (fun _ => 255) 4096 1 (some (literal ['%', 'p'])) [.pointer 16 []]).map Prod.fst = some 4 ∧
      (vsnprintf .i386 (fun _ => 255) 4096 64 (some (literal ['%', 'p'])) [.pointer 16 []]).map Prod.fst = some 10 ∧
      (vsnprintf .i386 (fun _ => 255) 4096 64 (some [1]) []).map Prod.fst = some 1 ∧
      Leaves .i386 (fun _ => 255) 4096 [1] [] 64 [] := by
  refine ⟨by decide, by decide, by decide, ?_⟩
  have scripted : script .i386 false [1] [] = some [plain [1]] := rfl
  exact (leaves_iff scripted (by decide) (by decide)).mpr (by decide)

theorem toNat_signExtend_count (arch : Arch) (small : count < 2 ^ 31) :
    ((BitVec.ofNat 32 count).signExtend arch.bits).toNat = count := by
  have number : (BitVec.ofNat 32 count).toNat = count := by
    rw [BitVec.toNat_ofNat]
    omega
  have positive : (BitVec.ofNat 32 count).msb = false := by
    rw [BitVec.msb_eq_false_iff_two_mul_lt, number]
    omega
  rw [BitVec.signExtend_eq_setWidth_of_msb_false positive, BitVec.toNat_setWidth, number]
  cases arch <;> exact Nat.mod_eq_of_lt (small.trans (by decide))

/-- The string that `vasprintf` stores is the whole text, and it returns the length of it. -/
def Complete (arch : Arch) (memory : Memory) (small result : Nat) (fmt : List UInt8)
    (args : List (Argument arch)) (text : List UInt8) : Prop :=
  ∃ count final, vasprintf arch memory small result (some fmt) args = some (count, final) ∧
    HoldsString final result text ∧ count.toInt = (text.length : Int)

/-- The second call gets the length for a size, which leaves no room for the terminator. -/
theorem vasprintf_eq (scripted : script arch false fmt args = some pieces) (memory : Memory)
    (stack : small ≠ 0) (fits : counted 0 pieces + hidden arch false fmt args < 2 ^ 31) :
    vasprintf arch memory small result (some fmt) args =
      vsnprintf arch (CString.memset arch (poke (storeByte memory small 0) small [0]) result 0
          ((BitVec.ofNat 32 (counted 0 pieces + hidden arch false fmt args) + 1).signExtend arch.bits).toNat)
        result (counted 0 pieces + hidden arch false fmt args) (some fmt) args := by
  have first := vsnprintf_eq scripted (storeByte memory small 0) stack (Nat.le_refl 1)
  have nothing : received 0 pieces = [] :=
    List.eq_nil_of_length_eq_zero (Nat.le_zero.mp received_length_le)
  rw [Nat.sub_self, nothing, List.nil_append] at first
  rw [vasprintf, first, Option.bind_eq_bind, Option.bind_some]
  dsimp only
  rw [toNat_signExtend_count arch fits]

/-- If nothing is counted, the second call returns at once, and the block has the terminator that
`calloc` put there. -/
theorem vasprintf_nothing (scripted : script arch false fmt args = some pieces) (memory : Memory)
    (stack : small ≠ 0) (pointer : result < arch.modulus)
    (zero : counted 0 pieces + hidden arch false fmt args = 0) :
    Complete arch memory small result fmt args [] := by
  have call := @vasprintf_eq arch fmt args pieces small result scripted memory stack (by omega)
  have ends : CString.memset arch (poke (storeByte memory small 0) small [0]) result 0 1 result = 0 := by
    rw [CString.memset, Arch.add_of_lt (by omega), Nat.add_zero, storeByte_same]
  have one : ((BitVec.ofNat 32 0 + 1).signExtend arch.bits).toNat = 1 := by cases arch <;> decide
  rw [zero, one, vsnprintf, if_pos (.inr rfl)] at call
  exact ⟨_, _, call, ⟨by simp, ends, by simp⟩, rfl⟩

/-- The allocated string is complete if and only if there is nothing to print at all. -/
theorem vasprintf_complete_iff (scripted : script arch false fmt args = some pieces) (memory : Memory)
    (stack : small ≠ 0) (allocated : result ≠ 0) (pointer : result < arch.modulus)
    (fits : (whole pieces).length + hidden arch false fmt args < 2 ^ 31) :
    Complete arch memory small result fmt args (whole pieces) ↔
      whole pieces = [] ∧ hidden arch false fmt args = 0 := by
  have bound : counted 0 pieces ≤ (whole pieces).length := counted_le
  have call := @vasprintf_eq arch fmt args pieces small result scripted memory stack (by omega)
  rcases Nat.eq_zero_or_pos (counted 0 pieces + hidden arch false fmt args) with zero | positive
  · have empty := vasprintf_nothing scripted memory stack pointer zero
    constructor
    · rintro ⟨count, final, called, holds, _⟩
      obtain ⟨_, _, same, terminated, _⟩ := empty
      rw [same] at called
      obtain ⟨_, rfl⟩ := Prod.mk.inj (Option.some.inj called)
      exact ⟨holds.unique terminated, by omega⟩
    · rintro ⟨nothing, _⟩
      rw [nothing]
      exact empty
  · refine iff_of_false ?_ ?_
    · rintro ⟨count, final, called, holds, length⟩
      rw [call, vsnprintf_eq scripted _ allocated positive] at called
      obtain ⟨rfl, rfl⟩ := Prod.mk.inj (Option.some.inj called)
      have proper := (formatLoop_inserts scripted).1
      have same := holds.unique (holdsString_poke proper.nonzero)
      have enough := enough_of_received proper.purposeful (Nat.le_of_eq (congrArg List.length same))
      rw [counted_of_le enough, toInt_ofNat_eq_iff] at length
      omega
    · rintro ⟨nothing, none⟩
      rw [nothing, List.length_nil] at bound
      omega

theorem vasprintf_complete_sample :
    Complete .i386 (fun _ => 255) 4096 8192 (literal ['%', 's']) [.pointer 16 []] [] :=
  (@vasprintf_complete_iff .i386 (literal ['%', 's']) [.pointer 16 []] _ 4096 8192 rfl (fun _ => 255)
    (by decide) (by decide) (by decide) (by decide)).mpr ⟨by decide, by decide⟩

/-- Of `ab`, the string that is stored lacks the last character. -/
theorem last_character_lost :
    Leaves .i386 (fun _ => 255) 8192 (literal ['a', 'b']) [] 64 (literal ['a', 'b']) ∧
      (vasprintf .i386 (fun _ => 255) 4096 8192 (some (literal ['a', 'b'])) []).map
        (fun result => (result.1, result.2 8192, result.2 8193)) = some (2, ascii 'a', 0) := by
  have scripted : script .i386 false (literal ['a', 'b']) [] = some [plain [ascii 'a'], plain [ascii 'b']] := rfl
  exact ⟨(leaves_iff scripted (by decide) (by decide)).mpr (by decide), by decide⟩

end FlapjackOS.Stdio
