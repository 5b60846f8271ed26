import SysPrg.HexDump
import SysPrg.Numeral

namespace SysPrg.HexDump
set_option autoImplicit true

/-- The offset at the start of a line of common.c, after the `+`. -/
def hexOffset : Bytes → Option Int
  | [] => none
  | c :: cs => if c = 43 then some (readNat 16 hexVal 0 cs) else none

def readInt : Bytes → Int
  | [] => 0
  | c :: cs => if c = 45 then -readNat 10 decVal 0 cs else readNat 10 decVal 0 (c :: cs)

def decOffset : Bytes → Option Int
  | [] => none
  | c :: cs => if c = 43 then some (readInt cs) else none

/-- Every line of a dump says where its first byte is, and so no two of them say the same. -/
structure Offsets (read : Bytes → Option Int) (first : Int) (lines : List Bytes) : Prop where
  exact : ∀ (l : Nat) row, lines[l]? = some row → read row = some (first + 16 * l)
  distinct : (lines.map read).Nodup

/-! The number in a label. -/

theorem zeroPad_map {ch : Nat → UInt8} (h0 : ch 0 = 48) (w : Nat) (ds : List Nat) :
    zeroPad w (ds.map ch) = (List.replicate (w - ds.length) 0 ++ ds).map ch := by
  rw [zeroPad, List.length_map, List.map_append, List.map_replicate, h0]

theorem hexLabel_eq (i : Nat) : (plusHex04 i).take 5 = 43 :: (fieldDigits 16 4 i).map hexDigit := by
  rw [plusHex04, List.take_succ_cons, zeroPad_map rfl, ← List.map_take]
  rfl

theorem zeroPad_digits (w n : Nat) :
    (zeroPad (w + 1) (CString.digits n).bytes).take (w + 1) =
      (fieldDigits 10 (w + 1) n).map decChar := by
  rw [digits_bytes, zeroPad_map rfl, ← List.map_take]
  congr 1
  split
  · next h =>
    subst h
    rw [fieldDigits, digitsDown, Nat.digits_zero, List.reverse_nil, List.append_nil,
      List.length_nil, List.length_singleton]
    change (List.replicate w 0 ++ [0]).take (w + 1) = (List.replicate (w + 1) 0).take (w + 1)
    rw [← List.replicate_succ']
  · rfl

theorem decLabel_eq (z : Int) : (plusDec06 z).take 7 =
    43 :: if z < 0 then 45 :: (fieldDigits 10 5 z.natAbs).map decChar
      else (fieldDigits 10 6 z.natAbs).map decChar := by
  rw [plusDec06, List.take_succ_cons]
  split
  · rw [List.take_succ_cons, zeroPad_digits]
  · rw [zeroPad_digits]

theorem decLine_or (offset : Int) (l : Nat) :
    decLine offset l = offset + 16 * l ∨ decLine offset l = toInt (offset + 16 * l) := by
  unfold decLine
  split
  · next h =>
    subst h
    exact .inl (by omega)
  · right
    congr 1
    omega

theorem readNat_field (hb : 1 < b) {val : UInt8 → Option Nat} {ch : Nat → UInt8}
    (hval : ∀ d, d < b → val (ch d) = some d) (hblank : val 32 = none) (w n : Nat)
    (rest : Bytes) :
    readNat b val 0 ((fieldDigits b w n).map ch ++ 32 :: rest) =
      horner b 0 (fieldDigits b w n) := by
  rw [readNat_map fun d hd => hval d (fieldDigits_lt hb hd), readNat_stop hblank]

theorem hexOffset_label (h : (plusHex04 i).take 5 ++ [32] <+: row) :
    hexOffset row = some (horner 16 0 (fieldDigits 16 4 i) : Int) := by
  obtain ⟨rest, rfl⟩ := h
  rw [hexLabel_eq, List.append_assoc, List.cons_append, hexOffset, if_pos rfl,
    List.singleton_append, readNat_field (by decide) (fun d => hexVal_hexDigit) (by decide)]

theorem decOffset_label (h : (plusDec06 z).take 7 ++ [32] <+: row) :
    decOffset row = some (if z < 0 then -(horner 10 0 (fieldDigits 10 5 z.natAbs) : Int)
      else horner 10 0 (fieldDigits 10 6 z.natAbs)) := by
  have hread := fun w => readNat_field (b := 10) (by decide) (fun d => decVal_decChar) (by decide)
    w z.natAbs
  obtain ⟨rest, rfl⟩ := h
  rw [decLabel_eq, List.append_assoc, List.cons_append, decOffset, if_pos rfl,
    List.singleton_append]
  congr 1
  split
  · rw [List.cons_append, readInt, if_pos rfl, hread]
  · obtain ⟨d, ds, hds⟩ : ∃ d ds, fieldDigits 10 6 z.natAbs = d :: ds :=
      List.exists_cons_of_length_eq_add_one (fieldDigits_length 10 6 z.natAbs)
    have hsign : decChar d ≠ 45 := by
      have hd := fieldDigits_lt (by decide) (hds ▸ List.mem_cons_self)
      interval_cases d <;> decide
    rw [← hread 6 rest, hds, List.map_cons, List.cons_append, readInt, if_neg hsign]

theorem Offsets.of_exact {read : Bytes → Option Int} {first : Int}
    (h : ∀ (l : Nat) row, lines[l]? = some row → read row = some (first + 16 * l)) :
    Offsets read first lines := by
  have hmap : lines.map read = (List.range lines.length).map fun l : Nat =>
      some (first + 16 * (l : Int)) := by
    apply List.ext_getElem?
    intro l
    rw [List.getElem?_map, List.getElem?_map]
    cases hrow : lines[l]? with
    | none =>
      have hl := List.getElem?_eq_none_iff.mp hrow
      rw [List.getElem?_eq_none (by rwa [List.length_range])]
      rfl
    | some row =>
      have hl := (List.getElem?_eq_some_iff.mp hrow).1
      rw [List.getElem?_range hl]
      exact congrArg some (h l row hrow)
  refine ⟨h, ?_⟩
  rw [hmap]
  refine List.nodup_range.map fun a b hab => ?_
  have hab' := Option.some.inj hab
  omega

/-- The lines have the right offsets if and only if those of the first and of the last line are
in the range of the label. -/
theorem offsets_iff {read : Bytes → Option Int} {first lo hi : Int} (hbody : Body data lines)
    (h : ∀ (l : Nat) row, lines[l]? = some row →
      (read row = some (first + 16 * l) ↔ lo ≤ first + 16 * l ∧ first + 16 * l ≤ hi)) :
    Offsets read first lines ↔
      data = [] ∨ lo ≤ first ∧ first + 16 * ((data.length - 1) / 16 : Nat) ≤ hi := by
  have hcount := hbody.count
  constructor
  · intro hoff
    have hin : ∀ l : Nat, l < lines.length → lo ≤ first + 16 * l ∧ first + 16 * l ≤ hi := by
      intro l hl
      have hrow := List.getElem?_eq_getElem hl
      exact (h l _ hrow).mp (hoff.exact l _ hrow)
    rcases Nat.eq_zero_or_pos data.length with h0 | hpos
    · exact .inl (List.length_eq_zero_iff.mp h0)
    · have hfirst := hin 0 (by omega)
      have hlast := hin ((data.length - 1) / 16) (by omega)
      exact .inr ⟨by omega, hlast.2⟩
  · intro hcond
    apply Offsets.of_exact
    intro l row hrow
    have hl := (List.getElem?_eq_some_iff.mp hrow).1
    apply (h l row hrow).mpr
    rcases hcond with rfl | ⟨hlo, hhi⟩
    · rw [List.length_nil] at hcount
      omega
    · omega

theorem hexOffset_iff (h : (plusHex04 (16 * l)).take 5 ++ [32] <+: row) :
    hexOffset row = some (0 + 16 * (l : Int)) ↔
      (0 : Int) ≤ 0 + 16 * l ∧ 0 + 16 * (l : Int) ≤ 65535 := by
  have hlt := horner_fieldDigits_lt (by decide : 1 < 16) 4 (16 * l)
  rw [hexOffset_label h, Option.some_inj]
  constructor
  · intro heq
    omega
  · rintro ⟨-, hle⟩
    rw [horner_fieldDigits (by decide) (by omega)]
    omega

theorem decOffset_iff (h : (plusDec06 z').take 7 ++ [32] <+: row) (hz : z' = z ∨ z' = toInt z) :
    decOffset row = some z ↔ -99999 ≤ z ∧ z ≤ 999999 := by
  have hlt5 := horner_fieldDigits_lt (by decide : 1 < 10) 5 z'.natAbs
  have hlt6 := horner_fieldDigits_lt (by decide : 1 < 10) 6 z'.natAbs
  rw [decOffset_label h, Option.some_inj]
  constructor
  · split
    · omega
    · omega
  · rintro ⟨hlo, hhi⟩
    have hz' : z' = z := by
      rcases hz with rfl | rfl
      · rfl
      · unfold toInt
        exact Int.bmod_eq_of_le (by omega) (by omega)
    subst hz'
    split
    · rw [horner_fieldDigits (by decide) (by omega)]
      omega
    · rw [horner_fieldDigits (by decide) (by omega)]
      omega

/-- The offsets of common.c have four digits, those of mmap_simple.c six characters. -/
theorem hexDump_offsets_iff (stack : Int → UInt8) (data : Bytes) (caption : Option CString)
    (verbose : Bool) (address : CString) :
    (∃ lines, hexDump stack data caption verbose address =
        header caption verbose data.length address ++ ruler ++ lines.flatten ∧
      Body data lines ∧ (Offsets hexOffset 0 lines ↔ data.length ≤ 65536)) ∧
    ∀ offset, ∃ lines, hexDumpFrom stack data offset caption verbose address =
        header caption verbose data.length address ++ ruler ++ lines.flatten ∧
      Body data lines ∧ (Offsets decOffset offset lines ↔ data = [] ∨
        -99999 ≤ offset ∧ offset + 16 * ((data.length - 1) / 16 : Nat) ≤ 999999) := by
  constructor
  · obtain ⟨lines, hout, hbody, hrows⟩ := dump_hex stack data
    refine ⟨lines, congrArg _ hout, hbody, ?_⟩
    have hiff := offsets_iff hbody fun l row hrow => hexOffset_iff (hrows l row hrow)
    rw [hiff, ← List.length_eq_zero_iff]
    omega
  · intro offset
    obtain ⟨lines, hout, hbody, hrows⟩ := dump_dec stack data offset
    exact ⟨lines, congrArg _ hout, hbody,
      offsets_iff hbody fun l row hrow => decOffset_iff (hrows l row hrow) (decLine_or offset l)⟩

/-- Of 65537 bytes the line at 0x10000 has the offset of the line at 0x1000. -/
theorem hexDump_repeats_offset :
    ∃ lines, hexDump (fun _ => 0) (List.replicate 65537 0) none false ⟨[], by decide⟩ =
        ruler ++ lines.flatten ∧ Body (List.replicate 65537 0) lines ∧
      lines[256]?.bind hexOffset = some 4096 ∧ lines[4096]?.bind hexOffset = some 4096 := by
  have hlen : (List.replicate 65537 (0 : UInt8)).length = 65537 := List.length_replicate
  generalize List.replicate 65537 (0 : UInt8) = data at hlen ⊢
  obtain ⟨lines, hout, hbody, hrows⟩ := dump_hex (fun _ => 0) data
  have hcount : lines.length = 4097 := by
    rw [hbody.count, hlen]
  have hline : ∀ l : Nat, l < 4097 →
      lines[l]?.bind hexOffset = some (horner 16 0 (fieldDigits 16 4 (16 * l)) : Int) := by
    intro l hl
    have hrow := List.getElem?_eq_getElem (hcount ▸ hl)
    rw [hrow]
    exact hexOffset_label (hrows l _ hrow)
  refine ⟨lines, congrArg _ hout, hbody, ?_, ?_⟩
  · rw [hline 256 (by decide)]
    norm_num [fieldDigits, digitsDown, horner]
  · rw [hline 4096 (by decide)]
    norm_num [fieldDigits, digitsDown, horner]

end SysPrg.HexDump
