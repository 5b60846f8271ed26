import SysPrg.HexDump

namespace SysPrg.MmapSimple
set_option autoImplicit true

open HexDump (hexDumpFrom ruler Body dump_dec)

/-- The number of arguments, and `atol` of the last two. -/
structure Args where
  argc : Nat
  off : Int64
  len : Int64

structure Calls where
  open2 : Bool
  fstat : Bool
  mmap : Bool
  msync : Bool
  munmap : Bool

def Calls.mapped (sys : Calls) : Bool := sys.open2 && sys.fstat && sys.mmap

/-- What `main` has done when it exits: its messages and its status, the addresses it has read in
the mapping, the bytes it found there and what it has printed. -/
structure Exit where
  errs : List String
  status : Int
  touched : List Int
  dumped : Bytes
  out : Bytes

def die (err : String) : Exit := ⟨[err], 1, [], [], []⟩

/-- The checks on the file size and on the arguments, with the message of the one that fails. -/
def checks (fsz off len : Int64) : Option String :=
  if fsz = 0 then some "%s: source-file %s size is zero bytes, aborting..."
  else if len ≤ 0 then some "%s: invalid length %ld, aborting..."
  else if off < 0 ∨ off + len > fsz then
    some "%s: invalid offset or offset/length combination, aborting..."
  else none

def addresses (data size : Int) : List Int := (List.range size.toNat).map fun i : Nat => data + i

def showFile (stack mem : Int → UInt8) (address : CString) (off len : Int64) (sys : Calls) : Exit :=
  -- the pointer is moved by the whole offset, but the arguments of `hex_dump` are `int`s
  let touched := addresses off.toInt (toInt len.toInt)
  let dumped := touched.map mem
  { errs := (if sys.msync then [] else ["mysnc"]) ++ if sys.munmap then [] else ["munmap"]
    status := if sys.munmap then 0 else 1
    touched := touched
    dumped := dumped
    out := hexDumpFrom stack dumped (toInt off.toInt) (some (.lit "Data" (by decide))) false
      address }

/-- `main`, where `beside` is what is in memory around the mapping. -/
def main (stack beside : Int → UInt8) (address : CString) (file : Bytes) (args : Args)
    (sys : Calls) : Exit :=
  if args.argc ≠ 4 then die "Usage: %s source-file start_offset length"
  else if !sys.open2 then die "open: src file"
  else if !sys.fstat then die "fstat"
  else
    match checks (.ofNat file.length) args.off args.len with
    | some err => die err
    | none =>
      if !sys.mmap then die "mmap: to src file"
      else showFile stack (put beside 0 file) address args.off args.len sys

/-- Arguments that are accepted denote a window of the file, whose bytes are dumped; with others, or
without a mapping, `main` fails and reads nothing. -/
structure Checked (stack beside : Int → UInt8) (address : CString) (file : Bytes)
    (off len : Int64) : Prop where
  inside : checks (.ofNat file.length) off len = none →
    0 ≤ off.toInt ∧ 1 ≤ len.toInt ∧ off.toInt + len.toInt ≤ file.length
  dumped : checks (.ofNat file.length) off len = none → ∀ sys, sys.mapped = true →
    (main stack beside address file ⟨4, off, len⟩ sys).dumped =
        (file.drop off.toInt.toNat).take len.toInt.toNat ∧
      ∃ lines, (main stack beside address file ⟨4, off, len⟩ sys).out = ruler ++ lines.flatten ∧
        Body (main stack beside address file ⟨4, off, len⟩ sys).dumped lines
  refused : ∀ sys, checks (.ofNat file.length) off len ≠ none ∨ sys.mapped = false →
    (main stack beside address file ⟨4, off, len⟩ sys).status = 1 ∧
    (main stack beside address file ⟨4, off, len⟩ sys).touched = []

theorem main_mapped (h : checks (.ofNat file.length) off len = none) (hsys : sys.mapped = true) :
    main stack beside address file ⟨4, off, len⟩ sys =
      showFile stack (put beside 0 file) address off len sys := by
  rw [Calls.mapped, Bool.and_eq_true, Bool.and_eq_true] at hsys
  obtain ⟨⟨hopen, hstat⟩, hmap⟩ := hsys
  simp [main, h, hopen, hstat, hmap]

theorem main_refused (stack beside : Int → UInt8) (address : CString)
    (h : checks (.ofNat file.length) off len ≠ none ∨ sys.mapped = false) :
    ∃ err, main stack beside address file ⟨4, off, len⟩ sys = die err := by
  unfold main
  split
  · exact ⟨_, rfl⟩
  · split
    · exact ⟨_, rfl⟩
    · split
      · exact ⟨_, rfl⟩
      · split
        · exact ⟨_, rfl⟩
        · next hopen hstat _ hcheck =>
          rcases h with h | h
          · exact absurd hcheck h
          · rw [if_pos]
            · exact ⟨_, rfl⟩
            · simp_all [Calls.mapped]

theorem checks_eq_none_iff (hne : file ≠ []) (hsz : file.length < 2 ^ 63) (off len : Int64) :
    checks (.ofNat file.length) off len = none ↔
      1 ≤ len.toInt ∧ 0 ≤ off.toInt ∧ (off.toInt + len.toInt).bmod (2 ^ 64) ≤ file.length := by
  have hfsz : (Int64.ofNat file.length).toInt = file.length := Int64.toInt_ofNat_of_lt hsz
  have hpos := List.length_pos_iff.mpr hne
  have h0 : Int64.ofNat file.length ≠ 0 := by
    intro h
    rw [h, Int64.toInt_zero] at hfsz
    omega
  have hsum : (off + len).toInt = (off.toInt + len.toInt).bmod (2 ^ 64) := Int64.toInt_add off len
  unfold checks
  rw [if_neg h0]
  split
  · next h =>
    rw [Int64.le_iff_toInt_le, Int64.toInt_zero] at h
    simp only [reduceCtorEq, false_iff]
    omega
  · next h =>
    rw [Int64.le_iff_toInt_le, Int64.toInt_zero] at h
    split
    · next h' =>
      rw [gt_iff_lt, Int64.lt_iff_toInt_lt, Int64.lt_iff_toInt_lt, Int64.toInt_zero, hfsz,
        hsum] at h'
      simp only [reduceCtorEq, false_iff]
      omega
    · next h' =>
      rw [gt_iff_lt, Int64.lt_iff_toInt_lt, Int64.lt_iff_toInt_lt, Int64.toInt_zero, hfsz,
        hsum] at h'
      simp only [true_iff]
      omega

/-- The sum of two numbers that are not negative is exact below 2 ^ 63, and negative from there. -/
theorem bmod_sum (off len : Int64) (hoff : 0 ≤ off.toInt) (hlen : 0 ≤ len.toInt) :
    off.toInt + len.toInt < 2 ^ 63 ∧
        (off.toInt + len.toInt).bmod (2 ^ 64) = off.toInt + len.toInt ∨
      2 ^ 63 ≤ off.toInt + len.toInt ∧ (off.toInt + len.toInt).bmod (2 ^ 64) < 0 := by
  have hoff' := off.toInt_lt
  have hlen' := len.toInt_lt
  by_cases h : off.toInt + len.toInt < 2 ^ 63
  · exact .inl ⟨h, Int.bmod_eq_of_le (by omega) (by omega)⟩
  · refine .inr ⟨by omega, ?_⟩
    have hwrap : (off.toInt + len.toInt).bmod (2 ^ 64) =
        (off.toInt + len.toInt - (2 ^ 64 : Nat)).bmod (2 ^ 64) :=
      (Int.sub_bmod_right _ _).symm
    rw [hwrap, Int.bmod_eq_of_le (by omega) (by omega)]
    omega

theorem addresses_map (beside : Int → UInt8) {file : Bytes} {off n : Nat}
    (h : off + n ≤ file.length) :
    (addresses off n).map (put beside 0 file) = (file.drop off).take n := by
  apply List.ext_getElem?
  intro i
  rw [addresses, List.map_map, List.getElem?_map, List.getElem?_take, List.getElem?_drop]
  split
  · next hi =>
    have hget := List.getElem?_eq_getElem (show off + i < file.length by omega)
    rw [Int.toNat_natCast, List.getElem?_range hi, hget, Option.map_some, Function.comp_apply]
    exact congrArg some (put_begins beside file (off + i) _ hget)
  · next hi =>
    rw [List.getElem?_eq_none (by rw [List.length_range]; omega)]
    rfl

theorem showFile_dumped_length (stack mem : Int → UInt8) (address : CString) (off len : Int64)
    (sys : Calls) :
    (showFile stack mem address off len sys).dumped.length = (toInt len.toInt).toNat := by
  simp [showFile, addresses]

theorem showFile_out (stack mem : Int → UInt8) (address : CString) (off len : Int64)
    (sys : Calls) :
    ∃ lines, (showFile stack mem address off len sys).out = ruler ++ lines.flatten ∧
      Body (showFile stack mem address off len sys).dumped lines := by
  obtain ⟨lines, hout, hbody, -⟩ :=
    dump_dec stack (showFile stack mem address off len sys).dumped (toInt off.toInt)
  exact ⟨lines, congrArg (ruler ++ ·) hout, hbody⟩

theorem showFile_dumped {len : Int64} (beside : Int → UInt8) (hoff : 0 ≤ off.toInt)
    (hsum : off.toInt + len.toInt ≤ file.length) (hlen : 0 ≤ len.toInt)
    (hint : len.toInt < 2 ^ 31) :
    (showFile stack (put beside 0 file) address off len sys).dumped =
      (file.drop off.toInt.toNat).take len.toInt.toNat := by
  have hsize : toInt len.toInt = len.toInt.toNat := by
    unfold toInt
    rw [Int.bmod_eq_of_le (by omega) (by omega)]
    omega
  have hoff' : off.toInt = off.toInt.toNat := by omega
  change (addresses off.toInt (toInt len.toInt)).map _ = _
  rw [hsize, hoff']
  exact addresses_map beside (by omega)

/-- The arguments that the checks are right about: the sum of the two does not overflow, and a
length that is accepted is an `int`. -/
theorem window_checked_iff (stack beside : Int → UInt8) (address : CString) (file : Bytes)
    (off len : Int64) (hne : file ≠ []) (hsz : file.length < 2 ^ 63) :
    Checked stack beside address file off len ↔ len.toInt ≤ 0 ∨ off.toInt < 0 ∨
      off.toInt + len.toInt < 2 ^ 63 ∧
        (off.toInt + len.toInt ≤ file.length → len.toInt < 2 ^ 31) := by
  have hiff := checks_eq_none_iff hne hsz off len
  constructor
  · intro h
    by_cases hneg : len.toInt ≤ 0 ∨ off.toInt < 0
    · exact hneg.imp_right .inl
    · rcases bmod_sum off len (by omega) (by omega) with ⟨hlt, hsum⟩ | ⟨hge, hsum⟩
      · refine .inr (.inr ⟨hlt, fun hle => ?_⟩)
        have hnone := hiff.mpr (by omega)
        have hdump := congrArg List.length (h.dumped hnone ⟨true, true, true, true, true⟩ rfl).1
        have hsmall : toInt len.toInt < 2 ^ 31 := by
          unfold toInt
          exact Int.bmod_lt (by decide)
        rw [main_mapped hnone rfl, showFile_dumped_length, List.length_take,
          List.length_drop] at hdump
        omega
      · have hin := h.inside (hiff.mpr (by omega))
        omega
  · intro hcond
    have hin : checks (.ofNat file.length) off len = none → 0 ≤ off.toInt ∧ 1 ≤ len.toInt ∧
        off.toInt + len.toInt ≤ file.length ∧ len.toInt < 2 ^ 31 := by
      intro hnone
      obtain ⟨hlen, hoff, hle⟩ := hiff.mp hnone
      rcases bmod_sum off len hoff (by omega) with ⟨_, hsum⟩ | ⟨_, _⟩
      · omega
      · omega
    refine ⟨fun hnone => ?_, fun hnone sys hsys => ?_, fun sys hsys => ?_⟩
    · obtain ⟨hoff, hlen, hsum, -⟩ := hin hnone
      exact ⟨hoff, hlen, hsum⟩
    · obtain ⟨hoff, hlen, hsum, hint⟩ := hin hnone
      rw [main_mapped hnone hsys]
      exact ⟨showFile_dumped beside hoff hsum (by omega) hint, showFile_out _ _ _ _ _ _⟩
    · obtain ⟨err, herr⟩ := main_refused stack beside address hsys
      rw [herr]
      exact ⟨rfl, rfl⟩

theorem window_checked_two_bytes : checks 3 1 2 = none ∧
    Checked (fun _ => 0) (fun _ => 0) ⟨[], by decide⟩ [10, 20, 30] 1 2 :=
  ⟨by decide, (window_checked_iff (fun _ => 0) (fun _ => 0) ⟨[], by decide⟩ [10, 20, 30] 1 2
    (by decide) (by decide)).mpr (by decide)⟩

/-- An offset of 2 ^ 63 - 1 and a length of 1: the sum is negative, and the byte that is dumped is
far behind the mapping. -/
theorem window_overflow_accepted : checks 1 9223372036854775807 1 = none ∧
    (main (fun _ => 0) (fun _ => 0) ⟨[], by decide⟩ [10] ⟨4, 9223372036854775807, 1⟩
      ⟨true, true, true, true, true⟩).touched = [9223372036854775807] ∧
    ¬ Checked (fun _ => 0) (fun _ => 0) ⟨[], by decide⟩ [10] 9223372036854775807 1 := by
  have hnone : checks (.ofNat [(10 : UInt8)].length) 9223372036854775807 1 = none := by decide
  refine ⟨hnone, ?_, fun h => absurd (h.inside hnone) (by decide)⟩
  rw [main_mapped hnone rfl, showFile, show (1 : Int64).toInt = (1 : Nat) from rfl,
    toInt_of_lt (by decide)]
  rfl

end SysPrg.MmapSimple
