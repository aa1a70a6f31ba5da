import Mathlib.Data.Nat.ModEq

namespace FlapjackOS.Drivers

structure PITTimerDevice where
  clockTicks : UInt32
  clockSeconds : UInt32
  leapCounter : UInt32
  timerRate : UInt32
  timerLeapInterval : UInt32
  timerLeapTicks : UInt32

namespace PITTimerDevice

def clockFrequency : UInt32 := 1193182

/-- The device with its counters zeroed. -/
def create (timerRate : UInt16) (leapInterval leapTicks : Int32) : PITTimerDevice where
  clockTicks := 0
  clockSeconds := 0
  leapCounter := 0
  timerRate := timerRate.toUInt32
  timerLeapInterval := leapInterval.toUInt32
  timerLeapTicks := leapTicks.toUInt32

def countLeap (timer : PITTimerDevice) : PITTimerDevice :=
  if timer.timerLeapInterval < timer.leapCounter + 1 then
    { timer with leapCounter := 0, clockTicks := timer.clockTicks + timer.timerLeapTicks }
  else { timer with leapCounter := timer.leapCounter + 1 }

def countTicks (timer : PITTimerDevice) : PITTimerDevice :=
  let ticks := timer.clockTicks + timer.timerRate
  if clockFrequency < ticks then
    { timer with
      clockSeconds := timer.clockSeconds + ticks / clockFrequency
      clockTicks := ticks % clockFrequency }
  else { timer with clockTicks := ticks }

def onInterrupt (timer : PITTimerDevice) : PITTimerDevice := timer.countLeap.countTicks

variable {timer : PITTimerDevice} {rate interval leap : UInt32}

/-- The clock shows the total. Not all of it is ever carried into the seconds. -/
structure Shows (timer : PITTimerDevice) (total : Nat) : Prop where
  clock : timer.clockSeconds.toNat * clockFrequency.toNat + timer.clockTicks.toNat = total
  bound : timer.clockTicks.toNat ≤ clockFrequency.toNat
  remains : timer.clockTicks.toNat = 0 → timer.clockSeconds.toNat = 0

theorem clockFrequency_toNat : clockFrequency.toNat = 1193182 := rfl

theorem Shows.countTicks (shows : timer.Shows total) (slow : timer.timerRate.toNat < 2 ^ 16)
    (fits : total + timer.timerRate.toNat < clockFrequency.toNat * 2 ^ 32) :
    timer.countTicks.Shows (total + timer.timerRate.toNat) := by
  obtain ⟨rfl, bound, remains⟩ := shows
  simp only [clockFrequency_toNat] at bound remains fits ⊢
  have sum : (timer.clockTicks + timer.timerRate).toNat = timer.clockTicks.toNat + timer.timerRate.toNat := by
    rw [UInt32.toNat_add, Nat.mod_eq_of_lt (by omega)]
  simp only [PITTimerDevice.countTicks, UInt32.lt_iff_toNat_lt, sum, clockFrequency_toNat]
  split
  · constructor <;>
      simp only [UInt32.toNat_add, UInt32.toNat_div, UInt32.toNat_mod, sum, clockFrequency_toNat] <;> omega
  · constructor <;> simp only [sum, clockFrequency_toNat] <;> omega

/-- The clock keeps a whole second of ticks exactly if the total is a whole number of seconds. -/
theorem Shows.ticks_lt_iff (shows : timer.Shows total) :
    timer.clockTicks < clockFrequency ↔ (clockFrequency.toNat ∣ total → total = 0) := by
  obtain ⟨rfl, bound, remains⟩ := shows
  simp only [clockFrequency_toNat, UInt32.lt_iff_toNat_lt] at bound remains ⊢
  omega

/-- The device after so many interrupts, none of which has added leap ticks. -/
structure Regular (timer : PITTimerDevice) (rate interval leap : UInt32) (count : Nat) : Prop where
  timerRate : timer.timerRate = rate
  timerLeapInterval : timer.timerLeapInterval = interval
  timerLeapTicks : timer.timerLeapTicks = leap
  counter : leap = 0 ∨ timer.leapCounter.toNat = count
  shows : timer.Shows (count * rate.toNat)

theorem Regular.countLeap (regular : timer.Regular rate interval leap count)
    (quiet : leap = 0 ∨ count < interval.toNat) :
    ∃ counter, timer.countLeap = { timer with leapCounter := counter } ∧
      (leap = 0 ∨ counter.toNat = count + 1) := by
  obtain ⟨-, rfl, rfl, counter, -⟩ := regular
  rw [PITTimerDevice.countLeap]
  rcases or_and_left.mpr ⟨counter, quiet⟩ with none | ⟨counter, early⟩
  · rw [none, UInt32.add_zero]
    split
    · exact ⟨0, rfl, .inl rfl⟩
    · exact ⟨_, rfl, .inl rfl⟩
  · have next : (timer.leapCounter + 1).toNat = count + 1 := by
      rw [UInt32.toNat_add, counter]
      exact Nat.mod_eq_of_lt (Nat.lt_of_le_of_lt early timer.timerLeapInterval.toNat_lt)
    rw [if_neg (by rw [UInt32.lt_iff_toNat_lt, next]; omega)]
    exact ⟨_, rfl, .inr next⟩

theorem Regular.onInterrupt (regular : timer.Regular rate interval leap count) (slow : rate.toNat < 2 ^ 16)
    (quiet : leap = 0 ∨ count < interval.toNat) (fits : (count + 1) * rate.toNat < clockFrequency.toNat * 2 ^ 32) :
    timer.onInterrupt.Regular rate interval leap (count + 1) := by
  obtain ⟨counter, counted, next⟩ := regular.countLeap quiet
  rw [PITTimerDevice.onInterrupt, counted]
  obtain ⟨rfl, rfl, rfl, -, shows⟩ := regular
  rw [Nat.add_one_mul] at fits
  have shown : ({ timer with leapCounter := counter } : PITTimerDevice).countTicks.Shows _ :=
    Shows.countTicks ⟨shows.clock, shows.bound, shows.remains⟩ slow fits
  rw [← Nat.add_one_mul] at shown
  constructor
  case shows => exact shown
  all_goals
    rw [PITTimerDevice.countTicks]
    split
    · first | rfl | exact next
    · first | rfl | exact next

section
variable {rate : UInt16} {interval leap : Int32} {count n : Nat}

theorem regular_iterate (quiet : leap = 0 ∨ count ≤ interval.toUInt32.toNat)
    (fits : count * rate.toNat < clockFrequency.toNat * 2 ^ 32) :
    (onInterrupt^[count] (create rate interval leap)).Regular rate.toUInt32 interval.toUInt32 leap.toUInt32 count := by
  induction count with
  | zero => exact ⟨rfl, rfl, rfl, .inr rfl, by simp [create], by simp [create], fun _ => rfl⟩
  | succ count ih =>
    have fewer : count * rate.toNat ≤ (count + 1) * rate.toNat := Nat.mul_le_mul_right _ (Nat.le_succ _)
    have before := ih (quiet.imp_right Nat.le_of_succ_le) (Nat.lt_of_le_of_lt fewer fits)
    rw [Function.iterate_succ_apply']
    exact before.onInterrupt rate.toNat_lt (quiet.imp_left (congrArg Int32.toUInt32)) fits

/-- No leap ticks are added before the interval is over. -/
theorem shows_iterate (positive : 1 ≤ interval.toInt) (quiet : leap = 0 ∨ count ≤ interval.toInt)
    (fits : leap = 0 → count * rate.toNat < clockFrequency.toNat * 2 ^ 32) :
    (onInterrupt^[count] (create rate interval leap)).Shows (count * rate.toNat) := by
  have length : interval.toUInt32.toNat = interval.toInt.toNat := by
    rw [Int32.toNat_toUInt32_of_le (Int32.le_iff_toInt_le.mpr (Int.le_of_lt positive)), Int32.toNat_toInt]
  have limit := interval.toInt_lt
  refine (regular_iterate (quiet.imp_right fun early => by omega) ?_).shows
  rcases quiet with none | early
  · exact fits none
  · calc count * rate.toNat ≤ 2 ^ 31 * 2 ^ 16 := Nat.mul_le_mul (by omega) (Nat.le_of_lt rate.toNat_lt)
      _ < clockFrequency.toNat * 2 ^ 32 := by decide

/-- Up to the `n`th interrupt, the leap ticks are added once in every interval and the ticks stay below
a second, exactly if the leap ticks are zero or not due until then, and no interrupt completes a second. -/
theorem clock_accurate_iff (positive : 1 ≤ interval.toInt)
    (fits : (n * rate.toNat : Int) + n / interval.toInt * leap.toInt < clockFrequency.toNat * 2 ^ 32) :
    (∀ count ≤ n, let timer := onInterrupt^[count] (create rate interval leap)
      (timer.clockSeconds.toNat * clockFrequency.toNat + timer.clockTicks.toNat : Int) =
          count * rate.toNat + count / interval.toInt * leap.toInt ∧
        timer.clockTicks < clockFrequency) ↔
      (leap = 0 ∨ n < interval.toInt) ∧
        ∀ count ≤ n, clockFrequency.toNat ∣ count * rate.toNat → count * rate.toNat = 0 := by
  have shows (count : Nat) (before : count ≤ n) (quiet : leap = 0 ∨ count ≤ interval.toInt) :
      (onInterrupt^[count] (create rate interval leap)).Shows (count * rate.toNat) := by
    refine shows_iterate positive quiet fun none => ?_
    subst none
    have total : (n * rate.toNat : Int) < clockFrequency.toNat * 2 ^ 32 := by simpa using fits
    exact Nat.lt_of_le_of_lt (Nat.mul_le_mul_right _ before) (by exact_mod_cast total)
  constructor
  · intro accurate
    have quiet : leap = 0 ∨ n < interval.toInt := by
      refine or_iff_not_imp_right.mpr fun due => ?_
      obtain ⟨length, interval_eq⟩ := Int.eq_ofNat_of_zero_le (Int.le_of_lt positive)
      have before : length ≤ n := by omega
      have clock := (accurate length before).1
      have shown := (shows length before (.inr (Int.le_of_eq interval_eq.symm))).clock
      rw [interval_eq, Int.ediv_self (by omega), Int.one_mul] at clock
      exact Int32.toInt_inj.mp (show leap.toInt = 0 by omega)
    refine ⟨quiet, fun count before => ?_⟩
    have shown := shows count before (quiet.imp_right fun early => by omega)
    exact shown.ticks_lt_iff.mp (accurate count before).2
  · rintro ⟨quiet, incomplete⟩ count before
    have shown := shows count before (quiet.imp_right fun early => by omega)
    have none : (count / interval.toInt * leap.toInt : Int) = 0 := by
      rcases quiet with rfl | early
      · exact Int.mul_zero _
      · rw [Int.ediv_eq_zero_of_lt (by omega) (by omega), Int.zero_mul]
    refine ⟨?_, shown.ticks_lt_iff.mpr (incomplete count before)⟩
    rw [none, Int.add_zero]
    exact_mod_cast shown.clock

theorem clock_accurate_iff_sample : (onInterrupt^[2] (create 11931 50 41)).clockTicks < clockFrequency := by
  have accurate := (@clock_accurate_iff 11931 50 41 2 (by decide) (by decide)).mpr ⟨.inr (by decide), by decide⟩
  exact (accurate 2 (Nat.le_refl 2)).2

/-- With the parameters of the 10 ms clock, the leap ticks are not added by the fiftieth interrupt. -/
theorem leap_ticks_late :
    let timer := onInterrupt^[50] (create 11931 50 41)
    timer.clockSeconds.toNat * clockFrequency.toNat + timer.clockTicks.toNat ≠ 50 * 11931 + 50 / 50 * 41 := by
  decide +kernel

end

end PITTimerDevice

end FlapjackOS.Drivers
