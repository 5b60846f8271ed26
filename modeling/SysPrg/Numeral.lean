import SysPrg.Block

namespace SysPrg
set_option autoImplicit true

/-- The number that digits denote, the highest first, behind what was read before. -/
def horner (b acc : Nat) (ds : List Nat) : Nat := ds.foldl (fun a d => a * b + d) acc

/-- The number at the start of a text, for the values that `val` gives to the characters. -/
def readNat (b : Nat) (val : α → Option Nat) (acc : Nat) : List α → Nat
  | [] => acc
  | c :: cs =>
    match val c with
    | some d => readNat b val (acc * b + d) cs
    | none => acc

def digitsDown (b n : Nat) : List Nat := (Nat.digits b n).reverse

/-- The first `w` digits of a number that was padded with zeros to at least `w` of them. -/
def fieldDigits (b w n : Nat) : List Nat :=
  (List.replicate (w - (digitsDown b n).length) 0 ++ digitsDown b n).take w

theorem horner_eq_ofDigits (b : Nat) (ds : List Nat) :
    horner b 0 ds = Nat.ofDigits b ds.reverse := by
  rw [Nat.ofDigits_eq_foldr, List.foldr_reverse, horner]
  congr 1
  funext a d
  rw [Nat.cast_id, Nat.mul_comm, Nat.add_comm]

theorem horner_digitsDown (b n : Nat) : horner b 0 (digitsDown b n) = n := by
  rw [horner_eq_ofDigits, digitsDown, List.reverse_reverse, Nat.ofDigits_digits]

theorem horner_zeros (b k : Nat) (ds : List Nat) :
    horner b 0 (List.replicate k 0 ++ ds) = horner b 0 ds := by
  induction k with
  | zero => rfl
  | succ k ih =>
    rw [← ih, List.replicate_succ, List.cons_append, horner, List.foldl_cons, Nat.zero_mul]
    rfl

theorem digitsDown_lt (hb : 1 < b) (h : d ∈ digitsDown b n) : d < b :=
  Nat.digits_lt_base hb (List.mem_reverse.mp h)

theorem digitsDown_length_le (hb : 1 < b) : (digitsDown b n).length ≤ w ↔ n < b ^ w := by
  rw [digitsDown, List.length_reverse]
  exact Nat.digits_length_le_iff hb n

theorem fieldDigits_lt (hb : 1 < b) (h : d ∈ fieldDigits b w n) : d < b := by
  rcases List.mem_append.mp (List.mem_of_mem_take h) with h | h
  · rw [(List.mem_replicate.mp h).2]
    exact Nat.lt_of_succ_lt hb
  · exact digitsDown_lt hb h

theorem fieldDigits_length (b w n : Nat) : (fieldDigits b w n).length = w := by
  rw [fieldDigits, List.length_take, List.length_append, List.length_replicate]
  omega

theorem horner_fieldDigits_lt (hb : 1 < b) (w n : Nat) :
    horner b 0 (fieldDigits b w n) < b ^ w := by
  have hlt : horner b 0 (fieldDigits b w n) < b ^ (fieldDigits b w n).reverse.length := by
    rw [horner_eq_ofDigits]
    exact Nat.ofDigits_lt_base_pow_length hb
      fun d hd => fieldDigits_lt hb (List.mem_reverse.mp hd)
  rwa [List.length_reverse, fieldDigits_length] at hlt

theorem horner_fieldDigits (hb : 1 < b) (h : n < b ^ w) : horner b 0 (fieldDigits b w n) = n := by
  have hlen := (digitsDown_length_le hb).mpr h
  have htake : fieldDigits b w n =
      List.replicate (w - (digitsDown b n).length) 0 ++ digitsDown b n := by
    apply List.take_of_length_le
    rw [List.length_append, List.length_replicate]
    omega
  rw [htake, horner_zeros, horner_digitsDown]

theorem readNat_map {val : α → Option Nat} {ch : Nat → α} (h : ∀ d ∈ ds, val (ch d) = some d)
    (acc : Nat) (rest : List α) :
    readNat b val acc (ds.map ch ++ rest) = readNat b val (horner b acc ds) rest := by
  induction ds generalizing acc with
  | nil => rfl
  | cons d ds ih =>
    obtain ⟨hd, hds⟩ := List.forall_mem_cons.mp h
    rw [List.map_cons, List.cons_append, readNat, hd]
    exact ih hds _

theorem readNat_stop {val : α → Option Nat} (h : val c = none) (acc : Nat) (rest : List α) :
    readNat b val acc (c :: rest) = acc := by
  rw [readNat, h]

def decChar (d : Nat) : UInt8 := UInt8.ofNat (48 + d)

def decVal (c : UInt8) : Option Nat := if 48 ≤ c ∧ c ≤ 57 then some (c.toNat - 48) else none

theorem decVal_decChar (h : d < 10) : decVal (decChar d) = some d := by
  interval_cases d <;> decide

theorem decChar_ne_comma (h : d < 10) : decChar d ≠ 44 := by
  interval_cases d <;> decide

theorem digits_bytes (n : Nat) : (CString.digits n).bytes =
    (if n = 0 then [0] else digitsDown 10 n).map decChar := by
  unfold CString.digits digitsDown
  split
  · rfl
  · rfl

theorem horner_digits (n : Nat) : horner 10 0 (if n = 0 then [0] else digitsDown 10 n) = n := by
  split
  · next h => exact h.symm
  · exact horner_digitsDown 10 n

theorem digits_lt (h : d ∈ if n = 0 then [0] else digitsDown 10 n) : d < 10 := by
  split at h
  · rw [List.mem_singleton.mp h]
    decide
  · exact digitsDown_lt (by decide) h

end SysPrg
