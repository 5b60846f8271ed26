import Mathlib.Data.Fintype.Basic
import SysPrg.Block
import SysPrg.Memory

namespace SysPrg.UrlDecode
set_option autoImplicit true

def isdigit (ch : UInt8) : Bool := 48 ≤ ch && ch ≤ 57

def tolower (ch : UInt8) : UInt8 := if 65 ≤ ch && ch ≤ 90 then ch + 32 else ch

/-- `from_hex`, which returns a `char`. -/
def fromHex (ch : UInt8) : Int8 :=
  if isdigit ch then (ch - 48).toInt8 else (tolower ch - 97 + 10).toInt8

/-- `from_hex(a) << 4 | from_hex(b)` is an `int` and is cut to a `char`. -/
def unescape (a b : UInt8) : UInt8 :=
  ((fromHex a).toInt32 <<< 4 ||| (fromHex b).toInt32).toInt8.toUInt8

/-- The buffer that is written, and where `pbuf` points into it. -/
structure Decoder where
  buf : Int → UInt8
  pbuf : Int

def Decoder.put (s : Decoder) (b : UInt8) : Decoder :=
  ⟨Function.update s.buf s.pbuf b, s.pbuf + 1⟩

def loop : Bytes → Decoder → Decoder
  | [], s => s
  | c :: rest, s =>
    if c = 37 then
      match rest with
      | a :: b :: rest => loop rest (s.put (unescape a b))
      -- an escape that is cut off by the end of the string leaves nothing
      | rest => loop rest s
    else if c = 43 then loop rest (s.put 32)
    else loop rest (s.put c)

def urlencodingDecode (str : Bytes) (heap : Int → UInt8) : Int → UInt8 :=
  let s := loop str ⟨heap, 0⟩
  Function.update s.buf s.pbuf 0

def decoded : Bytes → Bytes
  | [] => []
  | c :: rest =>
    if c = 37 then
      match rest with
      | a :: b :: rest => unescape a b :: decoded rest
      | rest => decoded rest
    else if c = 43 then 32 :: decoded rest
    else c :: decoded rest

def Decoder.puts (s : Decoder) (bs : Bytes) : Decoder :=
  ⟨SysPrg.put s.buf s.pbuf bs, s.pbuf + bs.length⟩

theorem Decoder.puts_cons (s : Decoder) (b : UInt8) (bs : Bytes) :
    (s.put b).puts bs = s.puts (b :: bs) := by
  have hend : s.pbuf + 1 + bs.length = s.pbuf + (b :: bs).length := by
    rw [List.length_cons]
    omega
  exact congrArg (Decoder.mk _) hend

theorem decoded_escape (a b : UInt8) (rest : Bytes) :
    decoded (37 :: a :: b :: rest) = unescape a b :: decoded rest := by
  rw [decoded, if_pos rfl]

theorem decoded_plus (rest : Bytes) : decoded (43 :: rest) = 32 :: decoded rest := by
  conv_lhs => unfold decoded
  rw [if_neg (by decide), if_pos rfl]

theorem decoded_literal (h : c ≠ 37) (h' : c ≠ 43) (rest : Bytes) :
    decoded (c :: rest) = c :: decoded rest := by
  conv_lhs => unfold decoded
  rw [if_neg h, if_neg h']

theorem loop_eq (str : Bytes) (s : Decoder) : loop str s = s.puts (decoded str) := by
  fun_induction loop str s with
  | case1 s => exact congrArg (Decoder.mk _) (Int.add_zero _).symm
  | case2 s a b rest ih => rw [ih, decoded_escape, Decoder.puts_cons]
  | case3 s rest hshort ih =>
    rw [ih, decoded, if_pos rfl]
    exact hshort
  | case4 rest s h ih => rw [ih, decoded_plus, Decoder.puts_cons]
  | case5 c rest s h h' ih => rw [ih, decoded_literal h h', Decoder.puts_cons]

theorem decoded_length_le (str : Bytes) : (decoded str).length ≤ str.length := by
  fun_induction decoded str with
  | case1 => exact Nat.le_refl 0
  | case2 a b rest ih => exact Nat.succ_le_succ (ih.trans (Nat.le_add_right _ 2))
  | case3 rest hshort ih => exact ih.trans (Nat.le_succ _)
  | case4 rest h ih => exact Nat.succ_le_succ ih
  | case5 c rest h h' ih => exact Nat.succ_le_succ ih

theorem urlencodingDecode_eq (str : Bytes) (heap : Int → UInt8) :
    urlencodingDecode str heap = put heap 0 (decoded str ++ [0]) := by
  rw [urlencodingDecode, loop_eq, put_append, put_singleton]
  rfl

def hexDigitVal (c : UInt8) : Option Nat :=
  if 48 ≤ c ∧ c ≤ 57 then some (c.toNat - 48)
  else if 65 ≤ c ∧ c ≤ 70 then some (c.toNat - 55)
  else if 97 ≤ c ∧ c ≤ 102 then some (c.toNat - 87) else none

/-- The ways to write a string: every byte as it is, as an escape, or a space as a plus sign. -/
inductive Encodes : Bytes → Bytes → Prop where
  | nil : Encodes [] []
  | literal (hb : b ≠ 37 ∧ b ≠ 43 ∧ b ≠ 32) (h : Encodes s e) : Encodes (b :: s) (b :: e)
  | escape (hhi : hexDigitVal hi = some (b.toNat / 16)) (hlo : hexDigitVal lo = some (b.toNat % 16))
      (h : Encodes s e) : Encodes (b :: s) (37 :: hi :: lo :: e)
  | plus (h : Encodes s e) : Encodes (32 :: s) (43 :: e)

theorem fromHex_table : ∀ hi lo : Fin 16, ∀ d ∈ hexDigitVal (UInt8.ofNat (16 * hi + lo)),
    d < 16 ∧ UInt8.ofNat (16 * hi + lo) ≠ 0 ∧
      (fromHex (UInt8.ofNat (16 * hi + lo))).toInt32 = Int32.ofNat d := by
  decide

theorem fromHex_eq (h : hexDigitVal c = some d) :
    d < 16 ∧ c ≠ 0 ∧ (fromHex c).toInt32 = Int32.ofNat d := by
  have hlt := c.toNat_lt
  have hc : UInt8.ofNat (16 * (c.toNat / 16) + c.toNat % 16) = c := by
    rw [Nat.div_add_mod, UInt8.ofNat_toNat]
  have htable := fromHex_table ⟨c.toNat / 16, by omega⟩ ⟨c.toNat % 16, by omega⟩ d
  simp only [hc] at htable
  exact htable h

theorem join_nibbles : ∀ hi lo : Fin 16,
    (Int32.ofNat hi <<< 4 ||| Int32.ofNat lo).toInt8.toUInt8 = UInt8.ofNat (16 * hi + lo) := by
  decide

theorem unescape_eq (hhi : hexDigitVal hi = some (b.toNat / 16))
    (hlo : hexDigitVal lo = some (b.toNat % 16)) : unescape hi lo = b := by
  obtain ⟨hhi16, -, hhi⟩ := fromHex_eq hhi
  obtain ⟨hlo16, -, hlo⟩ := fromHex_eq hlo
  have hsum : 16 * (b.toNat / 16) + b.toNat % 16 = b.toNat := Nat.div_add_mod _ _
  have hjoin := join_nibbles ⟨_, hhi16⟩ ⟨_, hlo16⟩
  rw [unescape, hhi, hlo, hjoin, hsum, UInt8.ofNat_toNat]

theorem Encodes.decoded (h : Encodes s e) : decoded e = s := by
  induction h with
  | nil => rfl
  | literal hb h ih => rw [decoded_literal hb.1 hb.2.1, ih]
  | escape hhi hlo h ih => rw [decoded_escape, unescape_eq hhi hlo, ih]
  | plus h ih => rw [decoded_plus, ih]

theorem Encodes.noNul (h : Encodes s e) (h0 : (0 : UInt8) ∉ s) : (0 : UInt8) ∉ e := by
  induction h with
  | nil => exact h0
  | literal hb h ih =>
    have hrest := ih (List.not_mem_of_not_mem_cons h0)
    exact List.not_mem_cons_of_ne_of_not_mem (List.ne_of_not_mem_cons h0) hrest
  | escape hhi hlo h ih =>
    have hrest := ih (List.not_mem_of_not_mem_cons h0)
    obtain ⟨-, hhi0, -⟩ := fromHex_eq hhi
    obtain ⟨-, hlo0, -⟩ := fromHex_eq hlo
    apply List.not_mem_cons_of_ne_of_not_mem (by decide)
    apply List.not_mem_cons_of_ne_of_not_mem hhi0.symm
    exact List.not_mem_cons_of_ne_of_not_mem hlo0.symm hrest
  | plus h ih =>
    have hrest := ih (List.not_mem_of_not_mem_cons h0)
    exact List.not_mem_cons_of_ne_of_not_mem (by decide) hrest

/-- Decoding gives back every string from each of its encodings, and on any string at all at most
as many bytes are written as it takes, all of them into the buffer. -/
theorem urlencodingDecode_inverts (heap : Int → UInt8) :
    (∀ s e, (0 : UInt8) ∉ s → Encodes s e →
      (0 : UInt8) ∉ e ∧ StrHere (urlencodingDecode e heap) s) ∧
    ∀ str : CString, (loop str.bytes ⟨heap, 0⟩).pbuf + 1 ≤ str.bytes.length + 1 ∧
      ∀ i, i < 0 ∨ (str.bytes.length : Int) + 1 ≤ i →
        urlencodingDecode str.bytes heap i = heap i := by
  constructor
  · intro s e h0 h
    refine ⟨h.noNul h0, ?_⟩
    rw [urlencodingDecode_eq, h.decoded]
    exact put_strHere heap h0
  · intro str
    have hlen := decoded_length_le str.bytes
    constructor
    · rw [loop_eq]
      change 0 + ((decoded str.bytes).length : Int) + 1 ≤ _
      omega
    · intro i hi
      rw [urlencodingDecode_eq]
      rcases hi with hi | hi
      · exact put_of_lt heap _ hi
      · apply put_of_ge
        rw [List.length_append, List.length_singleton]
        omega

/-- The text `a%C3%a9+%`: a letter, two bytes above 127 and a space; the last `%` is left out. -/
theorem urlencodingDecode_accent :
    StrHere (urlencodingDecode [97, 37, 67, 51, 37, 97, 57, 43] fun _ => 1) [97, 195, 169, 32] ∧
      decoded [97, 37, 67, 51, 37, 97, 57, 43, 37] = [97, 195, 169, 32] :=
  ⟨((urlencodingDecode_inverts fun _ => 1).1 [97, 195, 169, 32] [97, 37, 67, 51, 37, 97, 57, 43]
    (by decide) (.literal (by decide) (.escape rfl rfl (.escape rfl rfl (.plus .nil))))).2,
    by decide⟩

end SysPrg.UrlDecode
