import SysPrg.Strtol

namespace SysPrg.SigqSnd
set_option autoImplicit true

inductive Refusal where
  | usage
  | strtol
  | noDigits
  deriving DecidableEq, Repr

/-- The call of `sigqueue`, but for the signal, which is a constant. -/
structure Sigqueue where
  pid : Int32
  sivalInt : Int32
  deriving DecidableEq, Repr

/-- The checks of `main` on what `strtol` has returned. They are made on an `int`: the value is cut
down before the first of them, which compares it with the limits of a `long`. -/
def checked (r : Strto Int64) : Except Refusal Int32 :=
  let sv := r.val.toInt32
  if r.errno = erange ∧ (sv.toInt64 = Int64.maxValue ∨ sv.toInt64 = Int64.minValue) ∨
      r.errno ≠ 0 ∧ sv = 0 then .error .strtol
  else if r.endptr = 0 then .error .noDigits
  else
    let sv := (sv.toUInt32 &&& 0xffffffff).toInt32
    if r.errno = erange ∧ (sv = Int32.maxValue ∨ sv = Int32.minValue) ∨ r.errno ≠ 0 ∧ sv = 0 then
      .error .strtol
    else .ok sv

def sivalInt (value : Bytes) : Except Refusal Int32 := checked (strtol 0 value)

def main : List CString → Except Refusal Sigqueue
  | [_, pid, value] =>
    (sivalInt value.bytes).map fun sv => ⟨(strtol 10 pid.bytes).val.toInt32, sv⟩
  | _ => .error .usage

theorem mask_eq (sv : Int32) : (sv.toUInt32 &&& 0xffffffff).toInt32 = sv := by
  have hmask : sv.toUInt32 &&& 0xffffffff = sv.toUInt32 := by
    apply UInt32.toNat_inj.1
    have hlt := sv.toUInt32.toNat_lt
    have hones : (0xffffffff : UInt32).toNat = 2 ^ 32 - 1 := rfl
    rw [UInt32.toNat_and, hones, Nat.and_two_pow_sub_one_eq_mod, Nat.mod_eq_of_lt hlt]
  rw [hmask]
  rfl

theorem checked_exact (val : Int64) (hend : endptr ≠ 0) :
    checked ⟨val, 0, endptr⟩ = .ok val.toInt32 := by
  have hzero : (0 : Int32) ≠ erange := by decide
  simp only [checked, mask_eq, hzero, hend, ne_eq, not_true_eq_false, false_and, or_self, if_false]

/-- The largest `long` is minus one as an `int`, and passes. -/
theorem checked_max (hend : endptr ≠ 0) :
    checked ⟨Int64.maxValue, erange, endptr⟩ = .ok (-1) := by
  have hfirst : ¬ (erange = erange ∧ (Int64.maxValue.toInt32.toInt64 = Int64.maxValue ∨
      Int64.maxValue.toInt32.toInt64 = Int64.minValue) ∨
      erange ≠ 0 ∧ Int64.maxValue.toInt32 = 0) := by decide
  have hlast : ¬ (erange = erange ∧ (Int64.maxValue.toInt32 = Int32.maxValue ∨
      Int64.maxValue.toInt32 = Int32.minValue) ∨
      erange ≠ 0 ∧ Int64.maxValue.toInt32 = 0) := by decide
  unfold checked
  dsimp only
  rw [if_neg hfirst, if_neg hend, mask_eq, if_neg hlast]
  rfl

theorem checked_min (endptr : Nat) :
    checked ⟨Int64.minValue, erange, endptr⟩ = .error .strtol := by
  have hfirst : erange = erange ∧ (Int64.minValue.toInt32.toInt64 = Int64.maxValue ∨
      Int64.minValue.toInt32.toInt64 = Int64.minValue) ∨
      erange ≠ 0 ∧ Int64.minValue.toInt32 = 0 := by decide
  unfold checked
  dsimp only
  rw [if_pos hfirst]

theorem sivalInt_eq (h : written 0 value = some v) :
    sivalInt value =
      if v < -2 ^ 63 then .error .strtol
      else .ok (if v > 2 ^ 63 - 1 then -1 else .ofInt v) := by
  unfold written at h
  cases hs : scan 0 value with
  | none =>
    rw [hs] at h
    cases h
  | some n =>
    rw [hs] at h
    obtain rfl : n.value = v := Option.some.inj h
    have hrest := scan_rest_lt hs
    have hend : value.length - n.rest.length ≠ 0 := by omega
    simp only [sivalInt, strtol, hs]
    by_cases hmax : n.value > 2 ^ 63 - 1
    · have hmin : ¬ n.value < -2 ^ 63 := by omega
      rw [if_pos hmax, if_neg hmin, if_pos hmax, checked_max hend]
    · rw [if_neg hmax, if_neg hmax]
      by_cases hmin : n.value < -2 ^ 63
      · rw [if_pos hmin, if_pos hmin, checked_min]
      · rw [if_neg hmin, if_neg hmin, checked_exact _ hend, Int64.toInt32_ofInt]

theorem sivalInt_none (h : written 0 value = none) : sivalInt value = .error .noDigits := by
  have hs : scan 0 value = none := Option.map_eq_none_iff.1 h
  simp only [sivalInt, strtol, hs]
  decide

def InIntRange (v : Int) : Prop := Int32.minValue.toInt ≤ v ∧ v ≤ Int32.maxValue.toInt

theorem InIntRange.toInt_ofInt (h : InIntRange v) : (Int32.ofInt v).toInt = v :=
  Int32.toInt_ofInt_of_le h.1 (Int.lt_of_le_of_lt h.2 (by decide))

/-- `sigq_snd` sends the number it was given, or refuses it, unless the number is above every `int`,
or below every `int` and still a `long`. -/
theorem sigq_snd_checked_iff (prog pid value : CString) :
    ((∀ call, main [prog, pid, value] = .ok call →
        ∃ v, written 0 value.bytes = some v ∧ InIntRange v ∧ call.sivalInt.toInt = v) ∧
      (∀ v, written 0 value.bytes = some v → ¬ InIntRange v →
        ∃ e, main [prog, pid, value] = .error e)) ↔
    ∀ v, written 0 value.bytes = some v → InIntRange v ∨ v < Int64.minValue.toInt := by
  have hmain : main [prog, pid, value] =
      (sivalInt value.bytes).map fun sv => ⟨(strtol 10 pid.bytes).val.toInt32, sv⟩ := rfl
  rw [hmain]
  cases hw : written 0 value.bytes with
  | none =>
    rw [sivalInt_none hw]
    exact ⟨fun _ v hv => (by cases hv), fun _ =>
      ⟨fun call hcall => (by cases hcall), fun v hv => (by cases hv)⟩⟩
  | some v =>
    rw [sivalInt_eq hw]
    by_cases hmin : v < -2 ^ 63
    · rw [if_pos hmin]
      constructor
      · rintro - v' hv
        cases hv
        exact .inr hmin
      · intro _
        exact ⟨fun call hcall => (by cases hcall), fun _ _ _ => ⟨_, rfl⟩⟩
    · rw [if_neg hmin]
      constructor
      · rintro ⟨-, hrefused⟩ v' hv
        left
        by_contra hrange
        obtain ⟨e, he⟩ := hrefused v' hv hrange
        cases he
      · intro h
        have hrange : InIntRange v := (h v rfl).resolve_right hmin
        have hmax : ¬ v > 2 ^ 63 - 1 :=
          fun hgt => absurd (Int.lt_of_lt_of_le hgt hrange.2) (by decide)
        rw [if_neg hmax]
        refine ⟨?_, fun v' hv hnot => ?_⟩
        · intro call hcall
          cases hcall
          exact ⟨v, rfl, hrange, hrange.toInt_ofInt⟩
        · cases hv
          exact (hnot hrange).elim

/-- A number above every `int` is sent as its low half, and one above every `long` as minus one. -/
theorem sigq_snd_sends_other :
    (main [.lit "sigq_snd" (by decide), .lit "7" (by decide), .lit "4294967297" (by decide)] =
        .ok ⟨7, 1⟩ ∧
      written 0 (CString.lit "4294967297" (by decide)).bytes = some 4294967297 ∧
      ¬ InIntRange 4294967297) ∧
    main [.lit "sigq_snd" (by decide), .lit "7" (by decide),
      .lit "99999999999999999999" (by decide)] = .ok ⟨7, -1⟩ := by
  refine ⟨⟨by rfl, by rfl, ?_⟩, by rfl⟩
  intro h
  exact absurd h.2 (by decide)

end SysPrg.SigqSnd
