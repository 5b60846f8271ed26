import SysPrg.Numeral

namespace SysPrg
set_option autoImplicit true

/-- `isspace`, as in the C locale. -/
def isSpace (c : UInt8) : Bool := c == 32 || 9 ≤ c && c ≤ 13

def digitVal (c : UInt8) : Option Nat :=
  if 48 ≤ c ∧ c ≤ 57 then some (c.toNat - 48)
  else if 97 ≤ c ∧ c ≤ 122 then some (c.toNat - 87)
  else if 65 ≤ c ∧ c ≤ 90 then some (c.toNat - 55)
  else none

def digitIn (base : Nat) (c : UInt8) : Option Nat := (digitVal c).filter (· < base)

def takeSign : Bytes → Bool × Bytes
  | 45 :: s => (true, s)
  | 43 :: s => (false, s)
  | s => (false, s)

def hexMark : Bytes → Bool
  | 48 :: x :: c :: _ => (x == 120 || x == 88) && (digitIn 16 c).isSome
  | _ => false

/-- The base that the digits are in, and the digits. Base zero stands for the base in which a
constant of the language would be. -/
def takeBase (base : Nat) (s : Bytes) : Nat × Bytes :=
  -- `0x` without a digit behind it is the number zero
  if (base = 0 ∨ base = 16) ∧ hexMark s then (16, s.drop 2)
  else if base = 0 then (if s.head? = some 48 then 8 else 10, s)
  else (base, s)

/-- A number found at the start of a string, and the rest of the string. -/
structure Scanned where
  neg : Bool
  mag : Nat
  rest : Bytes
  deriving DecidableEq, Repr

def Scanned.value (n : Scanned) : Int := if n.neg then -n.mag else n.mag

/-- The number at the start of a string, behind white space, if there is one. -/
def scan (base : Nat) (s : Bytes) : Option Scanned :=
  let (neg, s) := takeSign (s.dropWhile isSpace)
  let (base, s) := takeBase base s
  match s with
  | [] => none
  | c :: _ =>
    if (digitIn base c).isSome then
      some ⟨neg, readNat base (digitIn base) 0 s, s.dropWhile fun c => (digitIn base c).isSome⟩
    else none

def written (base : Nat) (s : Bytes) : Option Int := (scan base s).map Scanned.value

def erange : Int32 := 34

/-- What `strtol` and `strtoul` give: the value, the `errno` they set, or zero, and the index that
`endptr` gets. -/
structure Strto (α : Type) where
  val : α
  errno : Int32
  endptr : Nat
  deriving DecidableEq, Repr

def strtol (base : Nat) (s : Bytes) : Strto Int64 :=
  match scan base s with
  | none => ⟨0, 0, 0⟩
  | some n =>
    if n.value > 2 ^ 63 - 1 then ⟨Int64.maxValue, erange, s.length - n.rest.length⟩
    else if n.value < -2 ^ 63 then ⟨Int64.minValue, erange, s.length - n.rest.length⟩
    else ⟨.ofInt n.value, 0, s.length - n.rest.length⟩

/-- A negative number wraps, unless its magnitude is out of range. -/
def strtoul (base : Nat) (s : Bytes) : Strto UInt64 :=
  match scan base s with
  | none => ⟨0, 0, 0⟩
  | some n =>
    if n.mag > 2 ^ 64 - 1 then ⟨.ofNat (2 ^ 64 - 1), erange, s.length - n.rest.length⟩
    else ⟨if n.neg then -.ofNat n.mag else .ofNat n.mag, 0, s.length - n.rest.length⟩

theorem takeSign_length_le (s : Bytes) : (takeSign s).2.length ≤ s.length := by
  unfold takeSign
  split
  · exact Nat.le_succ _
  · exact Nat.le_succ _
  · exact Nat.le_refl _

theorem takeBase_length_le (base : Nat) (s : Bytes) : (takeBase base s).2.length ≤ s.length := by
  unfold takeBase
  split
  · rw [List.length_drop]
    omega
  · split
    · exact Nat.le_refl _
    · exact Nat.le_refl _

theorem scan_rest_lt (h : scan base s = some n) : n.rest.length < s.length := by
  have hspace := List.length_dropWhile_le isSpace s
  have hsign := takeSign_length_le (s.dropWhile isSpace)
  have hbase := takeBase_length_le base (takeSign (s.dropWhile isSpace)).2
  unfold scan at h
  generalize hs : takeBase base (takeSign (s.dropWhile isSpace)).2 = t at h hbase
  obtain ⟨b, ds⟩ := t
  dsimp only at h hbase
  rw [hs] at h
  cases ds with
  | nil => cases h
  | cons c ds =>
    dsimp only at h
    split at h
    · next hc =>
      cases h
      have hdrop := List.length_dropWhile_le (fun c => (digitIn b c).isSome) ds
      rw [List.length_cons] at hbase
      dsimp only
      rw [List.dropWhile_cons_of_pos (p := fun c => (digitIn b c).isSome) hc]
      omega
    · cases h

theorem strtoul_exact (hs : scan base s = some n) (h0 : 0 ≤ n.value) (hlt : n.value < 2 ^ 64) :
    ((strtoul base s).val.toNat : Int) = n.value := by
  obtain ⟨neg, mag, rest⟩ := n
  cases neg with
  | true =>
    have hvalue : Scanned.value ⟨true, mag, rest⟩ = -mag := rfl
    obtain rfl : mag = 0 := by omega
    simp only [strtoul, hs]
    rfl
  | false =>
    have hvalue : Scanned.value ⟨false, mag, rest⟩ = mag := rfl
    rw [hvalue] at hlt ⊢
    have hmag : ¬ mag > 2 ^ 64 - 1 := by omega
    simp only [strtoul, hs, if_neg hmag, Bool.false_eq_true, if_false]
    rw [UInt64.toNat_ofNat_of_lt' (by simp only [UInt64.size]; omega)]

end SysPrg
