import Mathlib.Data.Nat.Prime.Basic
import SysPrg.Numeral

namespace SysPrg.Primegen
set_option autoImplicit true

def macroMax : Int := 10000000

def wrap : Nat := 16

/-- The standard output: what has been written, and what is still in the buffer. -/
structure Stdout where
  written : Bytes
  pending : Bytes
  deriving DecidableEq, Repr

def Stdout.printf (s : Stdout) (bs : Bytes) : Stdout := { s with pending := s.pending ++ bs }

def Stdout.fflush (s : Stdout) : Stdout := ⟨s.written ++ s.pending, []⟩

/-- Everything that was printed; `exit` writes out what is pending. -/
def Stdout.text (s : Stdout) : Bytes := s.written ++ s.pending

def isprime (i : Nat) : Nat → Nat → Bool
  | 0, _ => true
  | k + 1, j => if i ≠ j ∧ i % j = 0 then false else isprime i k (j + 1)

/-- The text of `%6d, `. -/
def item (n : Nat) : Bytes :=
  List.replicate (6 - (CString.digits n).bytes.length) 32 ++ (CString.digits n).bytes ++ [44, 32]

structure Gen where
  num : Nat
  stdout : Stdout
  deriving DecidableEq, Repr

/-- One turn of the outer loop. The line is flushed before it is ended. -/
def Gen.turn (flushes : Bool) (limit : Nat) (s : Gen) (i : Nat) : Gen :=
  if isprime i (limit / 2 - 2) 2 then
    let num := s.num + 1
    let stdout := s.stdout.printf (item i)
    if num % wrap = 0 then ⟨num, (if flushes then stdout.fflush else stdout).printf [10]⟩
    else ⟨num, stdout⟩
  else s

def twoThree : CString := .lit "  2,  3, " (by decide)

def primegen (flushes : Bool) (limit : Nat) : Stdout :=
  let s := (List.range' 4 (limit - 3)).foldl (Gen.turn flushes limit)
    ⟨2, (⟨[], []⟩ : Stdout).printf twoThree.bytes⟩
  let stdout := s.stdout.printf [10]
  if flushes then stdout.fflush else stdout

/-- The test of `main` on the first parameter, in both programs. -/
def accepts (limit : Int) : Bool := ¬ (limit < 4 ∨ limit > macroMax)

namespace Podman

def simplePrimegen (limit : Nat) : Stdout := primegen true limit

end Podman

namespace Systemd

def simplePrimegen (limit : Nat) : Stdout := primegen false limit

end Systemd

def readNumbers (acc : Nat) : Bytes → List Nat
  | [] => []
  | c :: cs =>
    if c = 44 then acc :: readNumbers 0 cs
    else match decVal c with
      | some d => readNumbers (acc * 10 + d) cs
      | none => readNumbers acc cs

def Reads (bs : Bytes) (ns : List Nat) : Prop :=
  ∀ rest, readNumbers 0 (bs ++ rest) = ns ++ readNumbers 0 rest

theorem Reads.append (h : Reads bs ns) (h' : Reads bs' ns') : Reads (bs ++ bs') (ns ++ ns') := by
  intro rest
  rw [List.append_assoc, h, h', List.append_assoc]

theorem readNumbers_blanks (acc k : Nat) (rest : Bytes) :
    readNumbers acc (List.replicate k 32 ++ rest) = readNumbers acc rest := by
  induction k with
  | zero => rfl
  | succ k ih => exact ih

theorem readNumbers_digits (h : ∀ d ∈ ds, d < 10) (acc : Nat) (rest : Bytes) :
    readNumbers acc (ds.map decChar ++ rest) = readNumbers (horner 10 acc ds) rest := by
  induction ds generalizing acc with
  | nil => rfl
  | cons d ds ih =>
    obtain ⟨hd, hds⟩ := List.forall_mem_cons.mp h
    rw [List.map_cons, List.cons_append, readNumbers, if_neg (decChar_ne_comma hd),
      decVal_decChar hd]
    exact ih hds _

theorem item_reads (n : Nat) : Reads (item n) [n] := by
  intro rest
  rw [item, digits_bytes, List.append_assoc, List.append_assoc, readNumbers_blanks,
    readNumbers_digits fun d hd => digits_lt hd, horner_digits]
  rfl

theorem newline_reads : Reads [10] [] := fun _ => rfl

theorem twoThree_reads : Reads twoThree.bytes [2, 3] := fun _ => rfl

theorem Stdout.text_printf (s : Stdout) (bs : Bytes) : (s.printf bs).text = s.text ++ bs :=
  (List.append_assoc ..).symm

theorem Stdout.text_fflush (s : Stdout) : s.fflush.text = s.text := List.append_nil _

theorem text_flushed (flushes : Bool) (s : Stdout) :
    (if flushes then s.fflush else s).text = s.text := by
  split
  · exact s.text_fflush
  · rfl

theorem turn_reads (flushes : Bool) (limit : Nat) (h : Reads s.stdout.text ns) (i : Nat) :
    Reads (Gen.turn flushes limit s i).stdout.text
      (ns ++ if isprime i (limit / 2 - 2) 2 then [i] else []) := by
  unfold Gen.turn
  split
  · have hitem := h.append (item_reads i)
    dsimp only
    split
    · rw [Stdout.text_printf, text_flushed, Stdout.text_printf]
      have hline := hitem.append newline_reads
      rw [List.append_nil] at hline
      exact hline
    · rw [Stdout.text_printf]
      exact hitem
  · rw [List.append_nil]
    exact h

theorem loop_reads (flushes : Bool) (limit : Nat) (is : List Nat) (h : Reads s.stdout.text ns) :
    Reads (is.foldl (Gen.turn flushes limit) s).stdout.text
      (ns ++ is.filter fun i => isprime i (limit / 2 - 2) 2) := by
  induction is generalizing s ns with
  | nil =>
    rw [List.filter_nil, List.append_nil]
    exact h
  | cons i is ih =>
    have hrest := ih (turn_reads flushes limit h i)
    rw [List.append_assoc] at hrest
    rw [List.foldl_cons, List.filter_cons]
    split
    · next hi =>
      rw [if_pos hi] at hrest
      exact hrest
    · next hi =>
      rw [if_neg hi] at hrest
      exact hrest

def printed (limit : Nat) : List Nat :=
  [2, 3] ++ (List.range' 4 (limit - 3)).filter fun i => isprime i (limit / 2 - 2) 2

theorem primegen_numbers (flushes : Bool) (limit : Nat) :
    readNumbers 0 (primegen flushes limit).text = printed limit := by
  have hloop := loop_reads flushes limit (List.range' 4 (limit - 3))
    (s := ⟨2, (⟨[], []⟩ : Stdout).printf twoThree.bytes⟩) twoThree_reads
  have hend := hloop.append newline_reads []
  rw [List.append_nil, List.append_nil, readNumbers, List.append_nil] at hend
  unfold primegen
  rw [text_flushed, Stdout.text_printf]
  exact hend

theorem isprime_iff (i k j : Nat) :
    isprime i k j = true ↔ ∀ m, j ≤ m → m < j + k → m ∣ i → i = m := by
  induction k generalizing j with
  | zero => exact ⟨fun _ m h₁ h₂ => (by omega), fun _ => rfl⟩
  | succ k ih =>
    rw [isprime]
    split
    · next h =>
      refine ⟨fun hf => (by cases hf), fun hall => ?_⟩
      exact absurd (hall j (Nat.le_refl j) (by omega) (Nat.dvd_of_mod_eq_zero h.2)) h.1
    · next h =>
      rw [ih]
      constructor
      · intro hall m h₁ h₂ hdvd
        by_cases hm : m = j
        · subst hm
          by_contra hne
          exact h ⟨hne, Nat.mod_eq_zero_of_dvd hdvd⟩
        · exact hall m (by omega) (by omega) hdvd
      · intro hall m h₁ h₂ hdvd
        exact hall m (by omega) (by omega) hdvd

/-- A composite number has a divisor below half the limit, from six on. -/
theorem minFac_lt_half (h6 : 6 ≤ limit) (h4 : 4 ≤ i) (hi : i ≤ limit) (hc : ¬ i.Prime) :
    i.minFac < limit / 2 ∧ i.minFac < i := by
  have hsq : i.minFac * i.minFac ≤ i := by
    have h := Nat.minFac_sq_le_self (by omega) hc
    rwa [Nat.pow_two] at h
  have hp := (Nat.minFac_prime (show i ≠ 1 by omega)).two_le
  have htwo : 2 * i.minFac ≤ i.minFac * i.minFac := Nat.mul_le_mul_right _ hp
  by_cases h3 : i.minFac = 2
  · omega
  · have hthree : 3 * i.minFac ≤ i.minFac * i.minFac :=
      Nat.mul_le_mul_right _ (by omega)
    omega

theorem isprime_iff_prime (h6 : 6 ≤ limit) (h4 : 4 ≤ i) (hi : i ≤ limit) :
    isprime i (limit / 2 - 2) 2 = true ↔ i.Prime := by
  rw [isprime_iff]
  constructor
  · intro hall
    by_contra hc
    obtain ⟨hhalf, hlt⟩ := minFac_lt_half h6 h4 hi hc
    have hp := (Nat.minFac_prime (show i ≠ 1 by omega)).two_le
    have heq := hall i.minFac hp (by omega) (Nat.minFac_dvd i)
    omega
  · intro hp m hm _ hdvd
    rcases hp.eq_one_or_self_of_dvd m hdvd with h | h
    · omega
    · exact h.symm

/-- The primes up to a limit, in increasing order and each once. -/
structure Primes (limit : Nat) (ns : List Nat) : Prop where
  sorted : ns.Pairwise (· < ·)
  mem : ∀ p, p ∈ ns ↔ p.Prime ∧ p ≤ limit

theorem printed_sorted (limit : Nat) : (printed limit).Pairwise (· < ·) := by
  have hrest : ((List.range' 4 (limit - 3)).filter fun i =>
      isprime i (limit / 2 - 2) 2).Pairwise (· < ·) :=
    List.Pairwise.filter _ List.pairwise_lt_range'
  refine List.pairwise_append.mpr ⟨by decide, hrest, ?_⟩
  intro a ha b hb
  have hb4 := (List.mem_range'_1.mp (List.mem_of_mem_filter hb)).1
  have ha3 : a ≤ 3 := by
    rcases List.mem_cons.mp ha with rfl | ha
    · decide
    · rw [List.mem_singleton.mp ha]
  omega

theorem mem_printed (limit : Nat) : p ∈ printed limit ↔
    p = 2 ∨ p = 3 ∨ 4 ≤ p ∧ p < 4 + (limit - 3) ∧ isprime p (limit / 2 - 2) 2 = true := by
  rw [printed, List.mem_append, List.mem_filter, List.mem_range'_1, List.mem_cons,
    List.mem_singleton, or_assoc, and_assoc]

theorem printed_primes_iff (h4 : 4 ≤ limit) : Primes limit (printed limit) ↔ 6 ≤ limit := by
  constructor
  · intro h
    by_contra h6
    have hk : limit / 2 - 2 = 0 := by omega
    have hmem : 4 ∈ printed limit := by
      rw [mem_printed, hk]
      exact .inr (.inr ⟨Nat.le_refl 4, by omega, rfl⟩)
    exact absurd ((h.mem 4).mp hmem).1 (by decide)
  · intro h6
    refine ⟨printed_sorted limit, fun p => ?_⟩
    rw [mem_printed]
    constructor
    · rintro (rfl | rfl | ⟨hp4, hp, hprime⟩)
      · exact ⟨Nat.prime_two, by omega⟩
      · exact ⟨Nat.prime_three, by omega⟩
      · have hle : p ≤ limit := by omega
        exact ⟨(isprime_iff_prime h6 hp4 hle).mp hprime, hle⟩
    · rintro ⟨hp, hle⟩
      have h2 := hp.two_le
      by_cases hp4 : 4 ≤ p
      · exact .inr (.inr ⟨hp4, by omega, (isprime_iff_prime h6 hp4 hle).mpr hp⟩)
      · omega

/-- For every limit that `main` accepts the numbers printed are the primes up to it, but for the
limits four and five. -/
theorem primegen_primes_iff (limit : Int) (h : accepts limit = true) :
    (Primes limit.toNat (readNumbers 0 (Podman.simplePrimegen limit.toNat).text) ↔ 6 ≤ limit) ∧
    (Primes limit.toNat (readNumbers 0 (Systemd.simplePrimegen limit.toNat).text) ↔
      6 ≤ limit) := by
  have h4 : 4 ≤ limit.toNat := by
    have hacc := of_decide_eq_true h
    omega
  have hsix : 6 ≤ limit.toNat ↔ 6 ≤ limit := by omega
  rw [Podman.simplePrimegen, Systemd.simplePrimegen, primegen_numbers, primegen_numbers,
    printed_primes_iff h4]
  exact ⟨hsix, hsix⟩

theorem primegen_primes_ten : printed 10 = [2, 3, 5, 7] ∧
    Primes 10 (readNumbers 0 (Podman.simplePrimegen 10).text) :=
  ⟨by decide, (primegen_primes_iff 10 (by decide)).1.mpr (by decide)⟩

/-- With limit four the inner loop has nothing to try. -/
theorem primegen_prints_four :
    accepts 4 = true ∧
      readNumbers 0 (Podman.simplePrimegen 4).text = [2, 3, 4] ∧
      readNumbers 0 (Systemd.simplePrimegen 4).text = [2, 3, 4] ∧ ¬ Nat.Prime 4 := by
  refine ⟨rfl, ?_, ?_, by decide⟩
  · rw [Podman.simplePrimegen, primegen_numbers]
    decide
  · rw [Systemd.simplePrimegen, primegen_numbers]
    decide

end SysPrg.Primegen
