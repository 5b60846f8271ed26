import Mathlib.Data.Nat.Digits.Lemmas
import SysPrg.Memory

namespace SysPrg.Dec2bin
set_option autoImplicit true

/-- The variables of the digit loop of `dec2bin`. What `temp` holds at first is arbitrary, and so
is what stands before and behind it. -/
structure Scan where
  decimal : Int64
  k : Int
  temp : Int → UInt8

/-- The body of the loop: `remain + '0'` is an `int` and is cut to a `char`. -/
def Scan.digit (s : Scan) : Scan :=
  let remain : Int32 := (s.decimal % 2).toInt32
  { decimal := s.decimal / 2
    temp := Function.update s.temp s.k (remain + 48).toInt8.toUInt8
    k := s.k + 1 }

theorem toInt_half (d : Int64) : (d / 2).toInt = d.toInt.tdiv 2 :=
  Int64.toInt_div_of_ne_right d 2 (by decide)

theorem toInt_half_lt (h : 0 < d / (2 : Int64)) : (d / 2).toInt.toNat < d.toInt.toNat := by
  rw [Int64.lt_iff_toInt_lt, toInt_half] at h
  rw [toInt_half]
  have hd : 0 < d.toInt := by
    by_contra hle
    have hneg : 0 ≤ (-d.toInt).tdiv 2 := Int.tdiv_nonneg (by omega) (by decide)
    rw [Int.neg_tdiv] at hneg
    change 0 < d.toInt.tdiv 2 at h
    omega
  rw [Int.tdiv_eq_ediv_of_nonneg hd.le]
  omega

/-- The do-while loop: one digit, and again while something is left of the number. -/
def Scan.digits (s : Scan) : Scan :=
  if s.digit.decimal > 0 then s.digit.digits else s.digit
termination_by s.decimal.toInt.toNat
decreasing_by exact toInt_half_lt ‹_›

/-- The reversing loop. It runs once more than there are characters, and reads `temp[-1]`. -/
def reverse (temp : Int → UInt8) (k n : Int) (binary : Int → UInt8) : Int × (Int → UInt8) :=
  if k ≥ 0 then reverse temp (k - 1) (n + 1) (Function.update binary n (temp (k - 1)))
  else (n, binary)
termination_by (k + 1).toNat

def dec2bin (decimal : Int64) (temp binary : Int → UInt8) : Int → UInt8 :=
  let s := Scan.digits
    { decimal := if decimal < 0 then -decimal else decimal, k := 0, temp := temp }
  let temp := Function.update s.temp s.k (if decimal < 0 then 45 else 32)
  let out := reverse temp (s.k + 1) 0 binary
  Function.update out.2 (out.1 - 1) 0

def bits (n : Nat) : List Nat := if n = 0 then [0] else Nat.digits 2 n

def digitChar (d : Nat) : UInt8 := UInt8.ofNat (48 + d)

def signChar (z : Int) : UInt8 := if z < 0 then 45 else 32

def spelling (z : Int) : Bytes := signChar z :: (bits z.natAbs).reverse.map digitChar

def parse : Bytes → Option Int
  | c :: ds =>
    if ds ≠ [] ∧ ds.all (fun d => d == 48 || d == 49) then
      let n : Nat := Nat.ofDigits 2 (ds.reverse.map fun d => d.toNat - 48)
      if c = 45 then some (-n) else if c = 32 then some n else none
    else none
  | [] => none

theorem bits_succ (n : Nat) : bits n = n % 2 :: if n / 2 = 0 then [] else bits (n / 2) := by
  unfold bits
  by_cases hn : n = 0
  · subst hn
    rfl
  · rw [if_neg hn, Nat.digits_def' (by decide) (Nat.pos_of_ne_zero hn)]
    by_cases h2 : n / 2 = 0
    · rw [if_pos h2, h2, Nat.digits_zero]
    · rw [if_neg h2, if_neg h2]

theorem bits_lt (h : d ∈ bits n) : d < 2 := by
  unfold bits at h
  split at h
  · rw [List.mem_singleton.mp h]
    decide
  · exact Nat.digits_lt_base (by decide) h

theorem bits_ne_nil (n : Nat) : bits n ≠ [] := by
  rw [bits_succ]
  exact List.cons_ne_nil _ _

theorem ofDigits_bits (n : Nat) : Nat.ofDigits 2 (bits n) = n := by
  unfold bits
  split
  · next h => rw [h]; rfl
  · exact Nat.ofDigits_digits 2 n

theorem bits_length_le (hw : 0 < w) (h : n < 2 ^ w) : (bits n).length ≤ w := by
  unfold bits
  split
  · exact hw
  · exact Nat.digits_length_le_iff (by decide) n |>.mpr h

theorem digitChar_cases (h : d ∈ bits n) :
    (digitChar d = 48 ∨ digitChar d = 49) ∧ (digitChar d).toNat - 48 = d := by
  have hd := bits_lt h
  interval_cases d <;> decide

theorem parse_spelling (z : Int) : parse (spelling z) = some z := by
  have hne : (bits z.natAbs).reverse.map digitChar ≠ [] := by
    simpa using bits_ne_nil z.natAbs
  have hall : ((bits z.natAbs).reverse.map digitChar).all (fun d => d == 48 || d == 49) := by
    rw [List.all_eq_true]
    intro c hc
    obtain ⟨d, hd, rfl⟩ := List.mem_map.mp hc
    rw [Bool.or_eq_true, beq_iff_eq, beq_iff_eq]
    exact (digitChar_cases (List.mem_reverse.mp hd)).1
  have hval : ((bits z.natAbs).reverse.map digitChar).reverse.map (fun d => d.toNat - 48) =
      bits z.natAbs := by
    rw [← List.map_reverse, List.reverse_reverse, List.map_map]
    conv_rhs => rw [← List.map_id (bits z.natAbs)]
    apply List.map_congr_left
    intro d hd
    exact (digitChar_cases hd).2
  rw [spelling, parse, if_pos ⟨hne, hall⟩, hval, ofDigits_bits]
  unfold signChar
  by_cases hz : z < 0
  · rw [if_pos hz]
    exact congrArg some (by omega)
  · rw [if_neg hz]
    exact congrArg some (by omega)

theorem Scan.digit_char (s : Scan) (h : 0 ≤ s.decimal.toInt) :
    ((s.decimal % 2).toInt32 + 48).toInt8.toUInt8 = digitChar (s.decimal.toInt.toNat % 2) := by
  have hm : (s.decimal % 2).toInt = s.decimal.toInt % 2 := by
    rw [Int64.toInt_mod, ← Int.tmod_eq_emod_of_nonneg h]
    rfl
  rcases Int.emod_two_eq s.decimal.toInt with h2 | h2
  · have hd : s.decimal % 2 = 0 := Int64.toInt_inj.mp (by rw [hm, h2]; rfl)
    have hn : s.decimal.toInt.toNat % 2 = 0 := by omega
    rw [hd, hn]
    decide
  · have hd : s.decimal % 2 = 1 := Int64.toInt_inj.mp (by rw [hm, h2]; rfl)
    have hn : s.decimal.toInt.toNat % 2 = 1 := by omega
    rw [hd, hn]
    decide

theorem toNat_half (h : 0 ≤ d.toInt) : (d / (2 : Int64)).toInt.toNat = d.toInt.toNat / 2 := by
  rw [toInt_half, Int.tdiv_eq_ediv_of_nonneg h]
  omega

theorem Scan.digits_eq (s : Scan) (h : 0 ≤ s.decimal.toInt) :
    s.digits.k = s.k + (bits s.decimal.toInt.toNat).length ∧
      s.digits.temp = put s.temp s.k ((bits s.decimal.toInt.toNat).map digitChar) := by
  fun_induction Scan.digits s with
  | case1 s hpos ih =>
    have hhalf : s.digit.decimal.toInt.toNat = s.decimal.toInt.toNat / 2 := toNat_half h
    have hpos' : 0 < s.digit.decimal.toInt := Int64.lt_iff_toInt_lt.mp hpos
    obtain ⟨hk, ht⟩ := ih hpos'.le
    have hne : s.decimal.toInt.toNat / 2 ≠ 0 := by omega
    rw [hhalf] at hk ht
    rw [bits_succ, if_neg hne, List.map_cons, put, hk, ht, List.length_cons, ← s.digit_char h]
    refine ⟨?_, rfl⟩
    change s.k + 1 + _ = _
    omega
  | case2 s hnpos =>
    have hhalf : s.digit.decimal.toInt.toNat = s.decimal.toInt.toNat / 2 := toNat_half h
    have hnpos' : ¬ 0 < s.digit.decimal.toInt := fun h' => hnpos (Int64.lt_iff_toInt_lt.mpr h')
    have heq : s.decimal.toInt.toNat / 2 = 0 := by omega
    rw [bits_succ, if_pos heq, List.map_cons, List.map_nil, put_singleton, ← s.digit_char h]
    exact ⟨rfl, rfl⟩

/-- The cells below an index, from the top down to the one before the array. -/
def below (temp : Int → UInt8) : Nat → Bytes
  | 0 => [temp (-1)]
  | k + 1 => temp k :: below temp k

theorem reverse_eq (temp : Int → UInt8) (k : Nat) (n : Int) (binary : Int → UInt8) :
    reverse temp k n binary = (n + k + 1, put binary n (below temp k)) := by
  induction k generalizing n binary with
  | zero =>
    rw [reverse, if_pos (by decide), reverse, if_neg (by decide)]
    exact congrArg (·, _) (by omega)
  | succ k ih =>
    have hk : ((k + 1 : Nat) : Int) - 1 = k := by omega
    rw [reverse, if_pos (by omega), hk, ih]
    exact congrArg (·, _) (by omega)

theorem below_congr (k : Nat) (h : ∀ i < (k : Int), m i = m' i) : below m k = below m' k := by
  induction k with
  | zero => rw [below, below, h (-1) (by decide)]
  | succ k ih =>
    rw [below, below, h k (by omega), ih fun i hi => h i (by omega)]

theorem below_put (temp : Int → UInt8) (bs : Bytes) :
    below (put temp 0 bs) bs.length = bs.reverse ++ [temp (-1)] := by
  induction bs using List.reverseRecOn with
  | nil => rfl
  | append_singleton bs b ih =>
    have htop : put temp 0 (bs ++ [b]) bs.length = b :=
      put_begins temp (bs ++ [b]) bs.length b List.getElem?_concat_length
    have hrest : below (put temp 0 (bs ++ [b])) bs.length = below (put temp 0 bs) bs.length := by
      apply below_congr
      intro i hi
      rw [put_append, put_of_lt _ _ (by omega)]
    rw [List.length_append, List.length_singleton, below, htop, hrest, ih, List.reverse_append]
    rfl

theorem stored (temp binary : Int → UInt8) (bs : Bytes) :
    (let out := reverse (put temp 0 bs) bs.length 0 binary
     Function.update out.2 (out.1 - 1) 0) = put binary 0 (bs.reverse ++ [0]) := by
  have hn : (0 : Int) + bs.length + 1 - 1 = 0 + bs.reverse.length := by
    rw [List.length_reverse]
    omega
  rw [reverse_eq, below_put]
  dsimp only
  rw [hn, put_append, put_append, put_singleton, put_singleton, Function.update_idem]

theorem toInt_magnitude (h : decimal ≠ Int64.minValue) :
    (if decimal < 0 then -decimal else decimal).toInt = decimal.toInt.natAbs := by
  by_cases hneg : decimal < 0
  · have hlt : decimal.toInt < 0 := Int64.lt_iff_toInt_lt.mp hneg
    have hmin : decimal.toInt ≠ -2 ^ 63 := fun he => h (Int64.toInt_inj.mp (he.trans rfl))
    have hlo := decimal.le_toInt
    rw [if_pos hneg, Int64.toInt_neg, Int.bmod_eq_of_le (by norm_num; omega) (by norm_num; omega)]
    omega
  · have hge : ¬ decimal.toInt < 0 := fun h' => hneg (Int64.lt_iff_toInt_lt.mpr h')
    rw [if_neg hneg]
    omega

theorem signChar_toInt (decimal : Int64) :
    (if decimal < 0 then 45 else 32) = signChar decimal.toInt := by
  unfold signChar
  rw [if_congr Int64.lt_iff_toInt_lt rfl rfl]
  rfl

def scanned (decimal : Int64) (temp : Int → UInt8) : Scan :=
  Scan.digits { decimal := if decimal < 0 then -decimal else decimal, k := 0, temp := temp }

theorem dec2bin_of_scanned (temp binary : Int → UInt8) (chars : Bytes)
    (hk : (scanned decimal temp).k = chars.length)
    (ht : (scanned decimal temp).temp = put temp 0 chars) :
    dec2bin decimal temp binary =
      put binary 0 (signChar decimal.toInt :: chars.reverse ++ [0]) := by
  have htemp : Function.update (put temp 0 chars) chars.length (signChar decimal.toInt) =
      put temp 0 (chars ++ [signChar decimal.toInt]) := by
    rw [put_append, put_singleton, Int.zero_add]
  have hlen : (chars.length : Int) + 1 = (chars ++ [signChar decimal.toInt]).length := by
    rw [List.length_append, List.length_singleton]
    rfl
  have hrev : (chars ++ [signChar decimal.toInt]).reverse =
      signChar decimal.toInt :: chars.reverse := List.reverse_concat
  have hout := stored temp binary (chars ++ [signChar decimal.toInt])
  rw [hrev, ← htemp, ← hlen, ← hk, ← ht, ← signChar_toInt] at hout
  rw [← signChar_toInt]
  exact hout

theorem scanned_eq (temp : Int → UInt8) (h : decimal ≠ Int64.minValue) :
    (scanned decimal temp).k = (bits decimal.toInt.natAbs).length ∧
      (scanned decimal temp).temp = put temp 0 ((bits decimal.toInt.natAbs).map digitChar) := by
  have hmag := toInt_magnitude h
  have hdigits := Scan.digits_eq ⟨if decimal < 0 then -decimal else decimal, 0, temp⟩
    (by rw [hmag]; omega)
  rw [hmag, Int.toNat_natCast, Int.zero_add] at hdigits
  exact hdigits

theorem dec2bin_eq (temp binary : Int → UInt8) (h : decimal ≠ Int64.minValue) :
    dec2bin decimal temp binary = put binary 0 (spelling decimal.toInt ++ [0]) := by
  obtain ⟨hk, ht⟩ := scanned_eq temp h
  rw [dec2bin_of_scanned temp binary _ (hk.trans (by rw [List.length_map])) ht,
    ← List.map_reverse]
  rfl

theorem spelling_noNul (z : Int) : (0 : UInt8) ∉ spelling z := by
  intro h
  rcases List.mem_cons.mp h with h | h
  · unfold signChar at h
    split at h <;> exact absurd h (by decide)
  · obtain ⟨d, hd, h0⟩ := List.mem_map.mp h
    have hc := (digitChar_cases (List.mem_reverse.mp hd)).1
    rw [h0] at hc
    exact absurd hc (by decide)

/-- The negation of the least number is itself, so that the loop stops after one digit. -/
theorem scanned_min (temp : Int → UInt8) :
    (scanned Int64.minValue temp).k = 1 ∧ (scanned Int64.minValue temp).temp = put temp 0 [48] := by
  have hneg : (if Int64.minValue < 0 then -Int64.minValue else Int64.minValue) =
      Int64.minValue := by decide
  have hhalf : ¬ (Scan.digit ⟨Int64.minValue, 0, temp⟩).decimal > 0 := by
    change ¬ Int64.minValue / 2 > 0
    decide
  have hchar : ((Int64.minValue % 2).toInt32 + 48).toInt8.toUInt8 = 48 := by decide
  rw [scanned, hneg, Scan.digits, if_neg hhalf, put_singleton, ← hchar]
  exact ⟨rfl, rfl⟩

theorem scanned_k (decimal : Int64) (temp : Int → UInt8) :
    ∃ k : Nat, (scanned decimal temp).k = k ∧ 1 ≤ k ∧ k ≤ 63 := by
  by_cases h : decimal = Int64.minValue
  · subst h
    exact ⟨1, (scanned_min temp).1, by decide, by decide⟩
  · have hlo := decimal.le_toInt
    have hhi := decimal.toInt_lt
    have hmin : decimal.toInt ≠ -2 ^ 63 := fun he => h (Int64.toInt_inj.mp (he.trans rfl))
    have hpos := List.length_pos_iff.mpr (bits_ne_nil decimal.toInt.natAbs)
    have hlen := bits_length_le (n := decimal.toInt.natAbs) (w := 63) (by decide) (by omega)
    exact ⟨_, (scanned_eq temp h).1, hpos, hlen⟩

theorem temp_suffices (decimal : Int64) (temp : Int → UInt8) :
    (scanned decimal temp).k + 1 ≤ 80 := by
  obtain ⟨k, hk, -, hle⟩ := scanned_k decimal temp
  omega

/-- `dec2bin` writes every number but the least one in signed binary. -/
theorem dec2bin_round_trip_iff (decimal : Int64) :
    (∀ temp binary, ∃ bs, StrHere (dec2bin decimal temp binary) bs ∧
      bs = spelling decimal.toInt ∧ parse bs = some decimal.toInt) ↔
    decimal ≠ Int64.minValue := by
  constructor
  · rintro h rfl
    obtain ⟨bs, hstr, -, hparse⟩ := h (fun _ => 0) (fun _ => 0)
    obtain ⟨hk, ht⟩ := scanned_min (fun _ => 0)
    rw [dec2bin_of_scanned _ _ [48] hk ht] at hstr
    obtain rfl := hstr.unique (put_strHere _ (by decide))
    exact absurd hparse (by decide)
  · intro h temp binary
    refine ⟨spelling decimal.toInt, ?_, rfl, parse_spelling _⟩
    rw [dec2bin_eq temp binary h]
    exact put_strHere binary (spelling_noNul _)

/-- The least number is written as minus zero. -/
theorem dec2bin_least :
    StrHere (dec2bin Int64.minValue (fun _ => 0) (fun _ => 0)) [45, 48] ∧
      parse [45, 48] = some 0 := by
  obtain ⟨hk, ht⟩ := scanned_min (fun _ => 0)
  rw [dec2bin_of_scanned _ _ [48] hk ht]
  exact ⟨put_strHere _ (by decide), by decide⟩

end SysPrg.Dec2bin
