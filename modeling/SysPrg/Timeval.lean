import Mathlib.Algebra.Order.Group.Abs
import Mathlib.Algebra.Order.Group.Int

namespace SysPrg.Timeval
set_option autoImplicit true

/-- A `struct timeval` of a 64-bit system: two signed 64-bit fields, in any relation. -/
structure Time where
  tvSec : Int64
  tvUsec : Int64
deriving DecidableEq, Repr

/-- The instant that a `struct timeval` denotes, in microseconds. -/
def Time.micros (t : Time) : Int := t.tvSec.toInt * 1000000 + t.tvUsec.toInt

/-- What a call of `timeval_subtract` leaves: `*result`, the rewritten `*y`, the return value. -/
structure Difference where
  result : Time
  y : Time
  ret : Int
deriving DecidableEq, Repr

/-- The first `int nsec`: the quotient is a `long` and is cut to 32 bits by the assignment. -/
def nsecUp (x y : Time) : Int32 := ((y.tvUsec - x.tvUsec) / 1000000 + 1).toInt32

def nsecDown (x y : Time) : Int32 := ((x.tvUsec - y.tvUsec) / 1000000).toInt32

/-- The first block of `timeval_subtract`; the product `1000000 * nsec` is taken in `int`. -/
def carryUp (x y : Time) : Time :=
  if x.tvUsec < y.tvUsec then
    { tvUsec := y.tvUsec - (1000000 * nsecUp x y).toInt64
      tvSec := y.tvSec + (nsecUp x y).toInt64 }
  else y

def carryDown (x y : Time) : Time :=
  if x.tvUsec - y.tvUsec > 1000000 then
    { tvUsec := y.tvUsec + (1000000 * nsecDown x y).toInt64
      tvSec := y.tvSec - (nsecDown x y).toInt64 }
  else y

def timevalSubtract (x y : Time) : Difference :=
  let y' := carryDown x (carryUp x y)
  { result := { tvSec := x.tvSec - y'.tvSec, tvUsec := x.tvUsec - y'.tvUsec }
    y := y'
    ret := if x.tvSec < y'.tvSec then 1 else 0 }

def gap (x y : Time) : Int := x.tvUsec.toInt - y.tvUsec.toInt

/-! What the fixed-width operations give, in integers. -/

theorem bmod_spec (z : Int) (m : Nat) (hm : 0 < m) : ∃ k, z = z.bmod m + m * k ∧
    -(m / 2 : Int) ≤ z.bmod m ∧ z.bmod m < (m + 1) / 2 :=
  ⟨z.bdiv m, (Int.bmod_add_bdiv z m).symm, Int.le_bmod hm, Int.bmod_lt hm⟩

theorem toInt_sub_spec (a b : Int64) : ∃ k, a.toInt - b.toInt = (a - b).toInt + 2 ^ 64 * k ∧
    -2 ^ 63 ≤ (a - b).toInt ∧ (a - b).toInt < 2 ^ 63 := by
  obtain ⟨k, hk, _⟩ := bmod_spec (a.toInt - b.toInt) (2 ^ 64) (by decide)
  rw [← Int64.toInt_sub] at hk
  exact ⟨k, by simpa using hk, (a - b).le_toInt, (a - b).toInt_lt⟩

theorem toInt_sub_eq {a b : Int64} (h : -2 ^ 63 ≤ a.toInt - b.toInt)
    (h' : a.toInt - b.toInt < 2 ^ 63) : (a - b).toInt = a.toInt - b.toInt := by
  rw [Int64.toInt_sub]
  exact Int.bmod_eq_of_le (by omega) (by omega)

theorem toInt_add_eq {a b : Int64} (h : -2 ^ 63 ≤ a.toInt + b.toInt)
    (h' : a.toInt + b.toInt < 2 ^ 63) : (a + b).toInt = a.toInt + b.toInt := by
  rw [Int64.toInt_add]
  exact Int.bmod_eq_of_le (by omega) (by omega)

theorem toInt_div_million (t : Int64) : ∃ r, t.toInt = 1000000 * (t / 1000000).toInt + r ∧
    (0 ≤ t.toInt → 0 ≤ r ∧ r < 1000000) ∧ (t.toInt < 0 → -1000000 < r ∧ r ≤ 0) := by
  have hq : (t / 1000000).toInt = t.toInt.tdiv 1000000 := by
    rw [Int64.toInt_div_of_ne_right _ _ (by decide)]
    rfl
  refine ⟨t.toInt.tmod 1000000, ?_, ?_, ?_⟩
  · rw [hq]
    exact (Int.mul_tdiv_add_tmod _ _).symm
  · intro h
    exact ⟨Int.tmod_nonneg _ h, Int.tmod_lt_of_pos _ (by decide)⟩
  · intro h
    have h₁ := Int.tmod_nonneg (a := -t.toInt) 1000000 (by omega)
    have h₂ := Int.tmod_lt_of_pos (-t.toInt) (b := 1000000) (by decide)
    rw [Int.neg_tmod] at h₁ h₂
    omega

theorem toInt_mul_million (n : Int32) :
    ∃ k, 1000000 * n.toInt = (1000000 * n).toInt + 2 ^ 32 * k ∧
      -2 ^ 31 ≤ (1000000 * n).toInt ∧ (1000000 * n).toInt < 2 ^ 31 := by
  obtain ⟨k, hk, _⟩ := bmod_spec (1000000 * n.toInt) (2 ^ 32) (by decide)
  have hm : (1000000 * n).toInt = (1000000 * n.toInt).bmod (2 ^ 32) := Int32.toInt_mul _ _
  rw [← hm] at hk
  exact ⟨k, by simpa using hk, (1000000 * n).le_toInt, (1000000 * n).toInt_lt⟩

theorem toInt32_spec (t : Int64) : ∃ k, t.toInt = t.toInt32.toInt + 2 ^ 32 * k ∧
    -2 ^ 31 ≤ t.toInt32.toInt ∧ t.toInt32.toInt < 2 ^ 31 := by
  obtain ⟨k, hk, _⟩ := bmod_spec t.toInt (2 ^ 32) (by decide)
  rw [← Int64.toInt_toInt32] at hk
  exact ⟨k, by simpa using hk, t.toInt32.le_toInt, t.toInt32.toInt_lt⟩

theorem nsecDown_spec (x y : Time) : ∃ k r,
    (x.tvUsec - y.tvUsec).toInt = 1000000 * ((nsecDown x y).toInt + 2 ^ 32 * k) + r ∧
      (0 ≤ (x.tvUsec - y.tvUsec).toInt → 0 ≤ r ∧ r < 1000000) ∧
      -2 ^ 31 ≤ (nsecDown x y).toInt ∧ (nsecDown x y).toInt < 2 ^ 31 := by
  obtain ⟨r, hr, hpos, _⟩ := toInt_div_million (x.tvUsec - y.tvUsec)
  obtain ⟨k, hk, hlo, hhi⟩ := toInt32_spec ((x.tvUsec - y.tvUsec) / 1000000)
  exact ⟨k, r, by rw [hr, hk]; rfl, hpos, hlo, hhi⟩

theorem nsecUp_spec (x y : Time) : ∃ k r,
    (y.tvUsec - x.tvUsec).toInt = 1000000 * ((nsecUp x y).toInt + 2 ^ 32 * k - 1) + r ∧
      (0 ≤ (y.tvUsec - x.tvUsec).toInt → 0 ≤ r ∧ r < 1000000) ∧
      -2 ^ 31 ≤ (nsecUp x y).toInt ∧ (nsecUp x y).toInt < 2 ^ 31 := by
  obtain ⟨r, hr, hpos, hneg⟩ := toInt_div_million (y.tvUsec - x.tvUsec)
  have hone : ((y.tvUsec - x.tvUsec) / 1000000 + 1).toInt =
      ((y.tvUsec - x.tvUsec) / 1000000).toInt + 1 := by
    have hlo := (y.tvUsec - x.tvUsec).le_toInt
    have hhi := (y.tvUsec - x.tvUsec).toInt_lt
    rw [Int64.toInt_add]
    exact Int.bmod_eq_of_le (by change -9223372036854775808 ≤ _ + (1 : Int); omega)
      (by change _ + (1 : Int) < 9223372036854775808; omega)
  obtain ⟨k, hk, hlo, hhi⟩ := toInt32_spec ((y.tvUsec - x.tvUsec) / 1000000 + 1)
  refine ⟨k, r, ?_, hpos, hlo, hhi⟩
  rw [hone] at hk
  rw [hr, nsecUp]
  omega

def upBy (x y : Time) : Int := if x.tvUsec < y.tvUsec then (nsecUp x y).toInt else 0

def downBy (x y : Time) : Int := if x.tvUsec - y.tvUsec > 1000000 then (nsecDown x y).toInt else 0

/-- No operation on a `tv_sec` field leaves the 64 bits of the field. -/
structure SecExact (x y : Time) : Prop where
  up : (carryUp x y).tvSec.toInt = y.tvSec.toInt + upBy x y
  down : (carryDown x (carryUp x y)).tvSec.toInt =
    (carryUp x y).tvSec.toInt - downBy x (carryUp x y)
  result : (x.tvSec - (carryDown x (carryUp x y)).tvSec).toInt =
    x.tvSec.toInt - (carryDown x (carryUp x y)).tvSec.toInt

/-- The gaps of the microseconds fields that the two carry blocks settle. -/
def Settled (d : Int) : Prop :=
  0 ≤ d ∧ d < 2148000000 ∧ d ≠ 1000000 ∨ -2147000000 < d ∧ d < 0 ∧ ¬ 1000000 ∣ d

theorem gap_spec (x y : Time) : ∃ k, gap x y = (x.tvUsec - y.tvUsec).toInt + 2 ^ 64 * k :=
  (toInt_sub_spec x.tvUsec y.tvUsec).imp fun _ h => h.1

theorem million_lt_iff (t : Int64) : t > 1000000 ↔ 1000000 < t.toInt :=
  Int64.lt_iff_toInt_lt

theorem usec_carryDown (x y : Time) (h : x.tvUsec - y.tvUsec > 1000000) :
    ∃ k, (x.tvUsec - (carryDown x y).tvUsec).toInt =
      (x.tvUsec - y.tvUsec).toInt - (1000000 * nsecDown x y).toInt + 2 ^ 64 * k := by
  have he : x.tvUsec - (carryDown x y).tvUsec =
      (x.tvUsec - y.tvUsec) - (1000000 * nsecDown x y).toInt64 := by
    rw [carryDown, if_pos h]
    grind
  obtain ⟨k, hk, _⟩ := toInt_sub_spec (x.tvUsec - y.tvUsec) (1000000 * nsecDown x y).toInt64
  rw [Int32.toInt_toInt64] at hk
  exact ⟨-k, by rw [he]; omega⟩

theorem usec_carryUp (x y : Time) (h : x.tvUsec < y.tvUsec) :
    ∃ k, (x.tvUsec - (carryUp x y).tvUsec).toInt =
      gap x y + (1000000 * nsecUp x y).toInt + 2 ^ 64 * k := by
  have he : x.tvUsec - (carryUp x y).tvUsec =
      (x.tvUsec - y.tvUsec) + (1000000 * nsecUp x y).toInt64 := by
    rw [carryUp, if_pos h]
    grind
  obtain ⟨j, hj⟩ := gap_spec x y
  obtain ⟨k, hk, _⟩ := bmod_spec ((x.tvUsec - y.tvUsec).toInt + (1000000 * nsecUp x y).toInt)
    (2 ^ 64) (by decide)
  rw [he, Int64.toInt_add, Int32.toInt_toInt64]
  exact ⟨-j - k, by omega⟩

/-- With less than 2147 seconds to make up the first block is exact: it moves the seconds that
bring the difference of the microseconds fields into the first second, its end included. -/
theorem carryUp_exact (x y : Time) (h : x.tvUsec < y.tvUsec) (hb : -2147000000 < gap x y) :
    (nsecUp x y).toInt = -gap x y / 1000000 + 1 ∧
      (1000000 * nsecUp x y).toInt = 1000000 * (nsecUp x y).toInt ∧
      (x.tvUsec - (carryUp x y).tvUsec).toInt = 1000000 - -gap x y % 1000000 := by
  have hlt : gap x y < 0 := Int.sub_neg_of_lt (Int64.lt_iff_toInt_lt.mp h)
  obtain ⟨g, hg, hg₁, hg₂⟩ := toInt_sub_spec y.tvUsec x.tvUsec
  have hgap : gap x y = -(y.tvUsec.toInt - x.tvUsec.toInt) := (Int.neg_sub _ _).symm
  obtain ⟨k, r, hn, hr, hlo, hhi⟩ := nsecUp_spec x y
  obtain ⟨p, hp, hplo, hphi⟩ := toInt_mul_million (nsecUp x y)
  obtain ⟨u, hu⟩ := usec_carryUp x y h
  have hu₁ := (x.tvUsec - (carryUp x y).tvUsec).toInt_lt
  have hu₂ := (x.tvUsec - (carryUp x y).tvUsec).le_toInt
  have hg₀ : g = 0 := by omega
  have hk₀ : k = 0 := by omega
  have hp₀ : p = 0 := by omega
  have hu₀ : u = 0 := by omega
  omega

theorem carryDown_exact (x y : Time) (h : x.tvUsec - y.tvUsec > 1000000)
    (hb : (x.tvUsec - y.tvUsec).toInt < 2148000000) :
    (nsecDown x y).toInt = (x.tvUsec - y.tvUsec).toInt / 1000000 ∧
      (1000000 * nsecDown x y).toInt = 1000000 * (nsecDown x y).toInt ∧
      (x.tvUsec - (carryDown x y).tvUsec).toInt = (x.tvUsec - y.tvUsec).toInt % 1000000 := by
  obtain ⟨k, r, hn, hr, hlo, hhi⟩ := nsecDown_spec x y
  obtain ⟨p, hp, hplo, hphi⟩ := toInt_mul_million (nsecDown x y)
  obtain ⟨u, hu⟩ := usec_carryDown x y h
  have hu₁ := (x.tvUsec - (carryDown x y).tvUsec).toInt_lt
  have hu₂ := (x.tvUsec - (carryDown x y).tvUsec).le_toInt
  rw [million_lt_iff] at h
  have hk₀ : k = 0 := by omega
  have hp₀ : p = 0 := by omega
  have hu₀ : u = 0 := by omega
  omega

/-- What is left of the microseconds when the two blocks have run, the result's `tv_usec`. -/
def leftUsec (x y : Time) : Int := (x.tvUsec - (carryDown x (carryUp x y)).tvUsec).toInt

/-- The result is the difference, with its microseconds within one second. -/
def Balanced (x y : Time) : Prop :=
  1000000 * (downBy x (carryUp x y) - upBy x y) + leftUsec x y = gap x y ∧
    0 ≤ leftUsec x y ∧ leftUsec x y < 1000000

theorem balanced_iff_of_ge (x y : Time) (h : ¬ x.tvUsec < y.tvUsec) :
    Balanced x y ↔ Settled (gap x y) := by
  have hup : carryUp x y = y := if_neg h
  have hby : upBy x y = 0 := if_neg h
  have hge : 0 ≤ gap x y := by
    rw [Int64.lt_iff_toInt_lt] at h
    exact Int.sub_nonneg_of_le (not_lt.mp h)
  obtain ⟨g, hg⟩ := gap_spec x y
  have ht := (x.tvUsec - y.tvUsec).toInt_lt
  have ht' := (x.tvUsec - y.tvUsec).le_toInt
  unfold Balanced leftUsec Settled
  rw [hup, hby]
  by_cases hd : x.tvUsec - y.tvUsec > 1000000
  · have hdown : downBy x y = (nsecDown x y).toInt := if_pos hd
    have hd' := (million_lt_iff _).mp hd
    rw [hdown]
    constructor
    · rintro ⟨h₁, h₂, h₃⟩
      obtain ⟨k, r, hn, hr, hlo, hhi⟩ := nsecDown_spec x y
      obtain ⟨p, hp, hplo, hphi⟩ := toInt_mul_million (nsecDown x y)
      obtain ⟨u, hu⟩ := usec_carryDown x y hd
      -- The seconds moved are an `int`, so an exact result leaves no room for a wrapped term.
      have hg₀ : g = 0 := by omega
      have hk₀ : k = 0 := by omega
      have hu₀ : u = 0 := by omega
      omega
    · intro hs
      have hg₀ : g = 0 := by omega
      obtain ⟨hn, -, hu⟩ := carryDown_exact x y hd (by omega)
      omega
  · have hdown : downBy x y = 0 := if_neg hd
    have hcd : carryDown x y = y := if_neg hd
    rw [million_lt_iff] at hd
    rw [hdown, hcd]
    omega

theorem carryUp_within (x y : Time) (h : x.tvUsec < y.tvUsec) (hb : -2147000000 < gap x y) :
    ¬ x.tvUsec - (carryUp x y).tvUsec > 1000000 := by
  rw [million_lt_iff, (carryUp_exact x y h hb).2.2]
  omega

theorem Balanced.bound (h : x.tvUsec < y.tvUsec) (hb : Balanced x y) :
    -2147000000 < gap x y := by
  obtain ⟨hsum, hleft₁, hleft₂⟩ := hb
  have hby : upBy x y = (nsecUp x y).toInt := if_pos h
  have hlt : gap x y < 0 := Int.sub_neg_of_lt (Int64.lt_iff_toInt_lt.mp h)
  obtain ⟨g, hg, hg₁, hg₂⟩ := toInt_sub_spec y.tvUsec x.tvUsec
  have hgap : gap x y = -(y.tvUsec.toInt - x.tvUsec.toInt) := (Int.neg_sub _ _).symm
  obtain ⟨k, r, hn, hr, hlo, hhi⟩ := nsecUp_spec x y
  obtain ⟨p, hp, hplo, hphi⟩ := toInt_mul_million (nsecUp x y)
  obtain ⟨u, hu⟩ := usec_carryUp x y h
  have hu₁ := (x.tvUsec - (carryUp x y).tvUsec).toInt_lt
  have hu₂ := (x.tvUsec - (carryUp x y).tvUsec).le_toInt
  rw [hby] at hsum
  by_cases hd : x.tvUsec - (carryUp x y).tvUsec > 1000000
  · -- A second carry after the first means that the first one wrapped.
    have hdown : downBy x (carryUp x y) = (nsecDown x (carryUp x y)).toInt := if_pos hd
    obtain ⟨k', r', hn', hr', hlo', hhi'⟩ := nsecDown_spec x (carryUp x y)
    rw [million_lt_iff] at hd
    rw [hdown] at hsum
    have hg₀ : g = 0 := by omega
    have hu₀ : u = 0 := by omega
    omega
  · have hdown : downBy x (carryUp x y) = 0 := if_neg hd
    have hcd : carryDown x (carryUp x y) = carryUp x y := if_neg hd
    rw [leftUsec, hcd] at hsum hleft₁ hleft₂
    rw [hdown] at hsum
    have hg₀ : g = 0 := by omega
    have hu₀ : u = 0 := by omega
    have hk₀ : k = 0 := by omega
    omega

theorem balanced_iff_of_lt (x y : Time) (h : x.tvUsec < y.tvUsec) :
    Balanced x y ↔ Settled (gap x y) := by
  have hlt : gap x y < 0 := Int.sub_neg_of_lt (Int64.lt_iff_toInt_lt.mp h)
  by_cases hb : -2147000000 < gap x y
  · obtain ⟨hn, -, hu⟩ := carryUp_exact x y h hb
    have hby : upBy x y = (nsecUp x y).toInt := if_pos h
    have hdown : downBy x (carryUp x y) = 0 := if_neg (carryUp_within x y h hb)
    have hcd : carryDown x (carryUp x y) = carryUp x y := if_neg (carryUp_within x y h hb)
    unfold Balanced leftUsec Settled
    rw [hby, hdown, hcd, hu, hn]
    omega
  · refine iff_of_false (fun hbal => hb (hbal.bound h)) ?_
    unfold Settled
    omega

theorem balanced_iff (x y : Time) : Balanced x y ↔ Settled (gap x y) := by
  by_cases h : x.tvUsec < y.tvUsec
  · exact balanced_iff_of_lt x y h
  · exact balanced_iff_of_ge x y h

theorem SecExact.tvSec (h : SecExact x y) : (timevalSubtract x y).result.tvSec.toInt =
    x.tvSec.toInt - y.tvSec.toInt - upBy x y + downBy x (carryUp x y) := by
  have h₁ := h.up
  have h₂ := h.down
  have h₃ := h.result
  change (x.tvSec - (carryDown x (carryUp x y)).tvSec).toInt = _
  omega

theorem SecExact.ret (h : SecExact x y) : (timevalSubtract x y).ret = 1 ↔
    (timevalSubtract x y).result.tvSec.toInt < 0 := by
  have h₃ : (timevalSubtract x y).result.tvSec.toInt = _ := h.result
  rw [h₃, timevalSubtract]
  simp only [Int64.lt_iff_toInt_lt]
  split <;> omega

/-- `timeval_subtract` gives the difference of two instants, normalised and with its sign, for
exactly those microseconds fields that lie less than 2147 seconds below or 2148 above one
another and do not differ by one million, nor by a multiple of it downwards. -/
theorem timevalSubtract_exact_iff (x y : Time) (h : SecExact x y) :
    ((timevalSubtract x y).result.micros = x.micros - y.micros ∧
      0 ≤ (timevalSubtract x y).result.tvUsec.toInt ∧
      (timevalSubtract x y).result.tvUsec.toInt < 1000000 ∧
      ((timevalSubtract x y).ret = 1 ↔ x.micros < y.micros)) ↔
    Settled (gap x y) := by
  have hsec := h.tvSec
  have hret := h.ret
  rw [← balanced_iff]
  have hleft : (timevalSubtract x y).result.tvUsec.toInt = leftUsec x y := rfl
  have hgap : gap x y = x.tvUsec.toInt - y.tvUsec.toInt := rfl
  unfold Balanced Time.micros
  rw [hret, hleft]
  omega

/-- Three seconds and 200 microseconds taken from five seconds and 100 microseconds. -/
theorem timevalSubtract_exact_normalised :
    ((timevalSubtract ⟨5, 100⟩ ⟨3, 200⟩).result = ⟨1, 999900⟩ ∧
      (timevalSubtract ⟨5, 100⟩ ⟨3, 200⟩).ret = 0) ∧
    ((timevalSubtract ⟨5, 100⟩ ⟨3, 200⟩).result.micros =
        Time.micros ⟨5, 100⟩ - Time.micros ⟨3, 200⟩ ∧
      0 ≤ (timevalSubtract ⟨5, 100⟩ ⟨3, 200⟩).result.tvUsec.toInt ∧
      (timevalSubtract ⟨5, 100⟩ ⟨3, 200⟩).result.tvUsec.toInt < 1000000 ∧
      ((timevalSubtract ⟨5, 100⟩ ⟨3, 200⟩).ret = 1 ↔
        Time.micros ⟨5, 100⟩ < Time.micros ⟨3, 200⟩)) :=
  ⟨by decide, (timevalSubtract_exact_iff ⟨5, 100⟩ ⟨3, 200⟩
    ⟨by decide, by decide, by decide⟩).mpr (.inr (by decide))⟩

/-- The same instant written in two ways: the result is minus one second and one million
microseconds and is reported as negative. -/
theorem timevalSubtract_million :
    SecExact ⟨0, 0⟩ ⟨-1, 1000000⟩ ∧ Time.micros ⟨0, 0⟩ = Time.micros ⟨-1, 1000000⟩ ∧
    (timevalSubtract ⟨0, 0⟩ ⟨-1, 1000000⟩).result = ⟨-1, 1000000⟩ ∧
    (timevalSubtract ⟨0, 0⟩ ⟨-1, 1000000⟩).ret = 1 :=
  ⟨⟨by decide, by decide, by decide⟩, by decide, by decide, by decide⟩

/-- No update of a field of `y` leaves the 64 bits of the field. The second block brings the
microseconds nearer to those of `x` and cannot. -/
structure FieldsExact (x y : Time) : Prop where
  upSec : (carryUp x y).tvSec.toInt = y.tvSec.toInt + upBy x y
  upUsec : x.tvUsec < y.tvUsec →
    (carryUp x y).tvUsec.toInt = y.tvUsec.toInt - (1000000 * nsecUp x y).toInt
  downSec : (carryDown x (carryUp x y)).tvSec.toInt =
    (carryUp x y).tvSec.toInt - downBy x (carryUp x y)

structure Carried (x y : Time) : Prop where
  le : ¬ x.tvUsec < y.tvUsec
  within : ¬ x.tvUsec - y.tvUsec > 1000000

theorem Carried.carry (h : Carried x y) : carryDown x (carryUp x y) = y := by
  have hup : carryUp x y = y := if_neg h.le
  rw [hup]
  exact if_neg h.within

theorem FieldsExact.up (h : FieldsExact x y) (hlt : x.tvUsec < y.tvUsec)
    (hb : -2000000000 ≤ gap x y) : Carried x (carryUp x y) ∧
      (carryUp x y).tvUsec.toInt = y.tvUsec.toInt - 1000000 * upBy x y := by
  have hby : upBy x y = (nsecUp x y).toInt := if_pos hlt
  have hgap : gap x y = x.tvUsec.toInt - y.tvUsec.toInt := rfl
  obtain ⟨hn, hp, hu⟩ := carryUp_exact x y hlt (by omega)
  have husec := h.upUsec hlt
  refine ⟨⟨?_, carryUp_within x y hlt (by omega)⟩, by omega⟩
  rw [Int64.lt_iff_toInt_lt]
  omega

theorem carryDown_carried (x y : Time) (hge : ¬ x.tvUsec < y.tvUsec)
    (hb : gap x y ≤ 2000000000) : Carried x (carryDown x y) ∧
      (carryDown x y).tvUsec.toInt = y.tvUsec.toInt + 1000000 * downBy x y := by
  by_cases hd : x.tvUsec - y.tvUsec > 1000000
  · have hby : downBy x y = (nsecDown x y).toInt := if_pos hd
    have hcd : (carryDown x y).tvUsec = y.tvUsec + (1000000 * nsecDown x y).toInt64 := by
      rw [carryDown, if_pos hd]
    have hgap : gap x y = x.tvUsec.toInt - y.tvUsec.toInt := rfl
    have hX := x.tvUsec.toInt_lt
    have hY := y.tvUsec.le_toInt
    have hge' := mt Int64.lt_iff_toInt_lt.mpr hge
    obtain ⟨g, hg, hg₁, hg₂⟩ := toInt_sub_spec x.tvUsec y.tvUsec
    have hg₀ : g = 0 := by omega
    obtain ⟨hn, hp, hu⟩ := carryDown_exact x y hd (by omega)
    have husec : (carryDown x y).tvUsec.toInt = y.tvUsec.toInt + 1000000 * downBy x y := by
      rw [hcd, hby, Int64.toInt_add, Int32.toInt_toInt64, hp]
      rw [million_lt_iff] at hd
      exact Int.bmod_eq_of_le (by change -9223372036854775808 ≤ _; omega)
        (by change _ < (9223372036854775808 : Int); omega)
    refine ⟨⟨?_, ?_⟩, husec⟩
    · rw [Int64.lt_iff_toInt_lt]
      omega
    · rw [million_lt_iff]
      omega
  · have hby : downBy x y = 0 := if_neg hd
    have hcd : carryDown x y = y := if_neg hd
    rw [hcd, hby]
    exact ⟨⟨hge, hd⟩, by omega⟩

theorem FieldsExact.carried (h : FieldsExact x y) (hb : |gap x y| ≤ 2000000000) :
    Carried x (carryDown x (carryUp x y)) ∧
      (carryDown x (carryUp x y)).tvUsec.toInt = y.tvUsec.toInt -
        1000000 * (upBy x y - downBy x (carryUp x y)) := by
  obtain ⟨hlo, hhi⟩ := abs_le.mp hb
  by_cases hlt : x.tvUsec < y.tvUsec
  · obtain ⟨hc, husec⟩ := h.up hlt hlo
    have hdown : carryDown x (carryUp x y) = _ := if_neg hc.within
    have hby : downBy x (carryUp x y) = 0 := if_neg hc.within
    rw [hdown, hby]
    exact ⟨hc, by omega⟩
  · have hup : carryUp x y = y := if_neg hlt
    have hby : upBy x y = 0 := if_neg hlt
    rw [hup, hby]
    obtain ⟨hc, husec⟩ := carryDown_carried x y hlt hhi
    exact ⟨hc, by omega⟩

/-- Rewriting `y` keeps its instant, and a second call finds nothing to carry. -/
theorem timevalSubtract_repeats (x y : Time) (hb : |gap x y| ≤ 2000000000)
    (h : FieldsExact x y) :
    (timevalSubtract x y).y.micros = y.micros ∧
      timevalSubtract x (timevalSubtract x y).y = timevalSubtract x y := by
  obtain ⟨hc, husec⟩ := h.carried hb
  have hsec₁ := h.upSec
  have hsec₂ := h.downSec
  constructor
  · change (carryDown x (carryUp x y)).micros = y.micros
    unfold Time.micros
    omega
  · change timevalSubtract x (carryDown x (carryUp x y)) = _
    rw [timevalSubtract, hc.carry]
    rfl

/-- A `y` with a negative and an `x` with an excessive microseconds field. -/
theorem timevalSubtract_repeats_denormal :
    (timevalSubtract ⟨1, 7000000⟩ ⟨2, -1⟩).y = ⟨-5, 6999999⟩ ∧
    (timevalSubtract ⟨1, 7000000⟩ ⟨2, -1⟩).y.micros = Time.micros ⟨2, -1⟩ ∧
      timevalSubtract ⟨1, 7000000⟩ (timevalSubtract ⟨1, 7000000⟩ ⟨2, -1⟩).y =
        timevalSubtract ⟨1, 7000000⟩ ⟨2, -1⟩ :=
  ⟨by decide, timevalSubtract_repeats ⟨1, 7000000⟩ ⟨2, -1⟩ (by decide)
    ⟨by decide, by decide, by decide⟩⟩

end SysPrg.Timeval
