import SysPrg.Block
import SysPrg.OnesSum

namespace SysPrg.RawEth
set_option autoImplicit true

/-- A 16-bit word as the machine loads it, the low byte first. -/
def word (lo hi : UInt8) : UInt16 := lo.toUInt16 + hi.toUInt16 <<< 8

def addWords : UInt64 → Bytes → UInt64
  | sum, lo :: hi :: buf => addWords (sum + (word lo hi).toUInt64) buf
  | sum, [b] => sum + b.toUInt64
  | sum, [] => sum

def checksum (buf : Bytes) : UInt16 :=
  let sum := addWords 0 buf
  let sum := (sum >>> 16) + (sum &&& 0xffff)
  let sum := sum + (sum >>> 16)
  (~~~sum).toUInt16

/-- The words of a buffer as numbers; an odd last byte is padded with a zero behind it. -/
def words : Bytes → List Nat
  | lo :: hi :: buf => (lo.toNat + 256 * hi.toNat) :: words buf
  | [b] => [b.toNat]
  | [] => []

def leBytes (w : UInt16) : Bytes := [w.toUInt8, (w >>> 8).toUInt8]

theorem toNat_word (lo hi : UInt8) : (word lo hi).toNat = lo.toNat + 256 * hi.toNat := by
  have hlo := lo.toNat_lt
  have hhi := hi.toNat_lt
  have hshift : (hi.toUInt16 <<< 8).toNat = 256 * hi.toNat := by
    rw [UInt16.toNat_shiftLeft, UInt8.toNat_toUInt16, Nat.shiftLeft_eq]
    change hi.toNat * 256 % 65536 = _
    omega
  rw [word, UInt16.toNat_add, hshift, UInt8.toNat_toUInt16, Nat.mod_eq_of_lt (by omega)]

theorem words_le (h : w ∈ words buf) : w ≤ 65535 := by
  fun_induction words buf with
  | case1 lo hi buf ih =>
    rcases List.mem_cons.mp h with rfl | h
    · have hlo := lo.toNat_lt
      have hhi := hi.toNat_lt
      omega
    · exact ih h
  | case2 b =>
    have hb := b.toNat_lt
    rw [List.mem_singleton.mp h]
    omega
  | case3 => cases h

theorem sum_words_le (buf : Bytes) : 2 * (words buf).sum ≤ 65535 * (buf.length + 1) := by
  fun_induction words buf with
  | case1 lo hi buf ih =>
    have hlo := lo.toNat_lt
    have hhi := hi.toNat_lt
    rw [List.sum_cons, List.length_cons, List.length_cons]
    omega
  | case2 b =>
    have hb := b.toNat_lt
    rw [List.sum_singleton, List.length_singleton]
    omega
  | case3 => exact Nat.zero_le _

theorem toNat_addWords (sum : UInt64) (buf : Bytes) (h : sum.toNat + (words buf).sum < 2 ^ 64) :
    (addWords sum buf).toNat = sum.toNat + (words buf).sum := by
  fun_induction addWords sum buf with
  | case1 sum lo hi buf ih =>
    rw [words, List.sum_cons] at h ⊢
    have hadd : (sum + (word lo hi).toUInt64).toNat = sum.toNat + (lo.toNat + 256 * hi.toNat) := by
      rw [UInt64.toNat_add, UInt16.toNat_toUInt64, toNat_word, Nat.mod_eq_of_lt (by omega)]
    rw [ih (by rw [hadd]; omega), hadd]
    omega
  | case2 sum b =>
    rw [words, List.sum_singleton] at h ⊢
    rw [UInt64.toNat_add, UInt8.toNat_toUInt64, Nat.mod_eq_of_lt (by omega)]
  | case3 sum => rfl

theorem toNat_high (sum : UInt64) : (sum >>> 16).toNat = sum.toNat / 65536 := by
  rw [UInt64.toNat_shiftRight, Nat.shiftRight_eq_div_pow]
  rfl

theorem toNat_low (sum : UInt64) : (sum &&& 0xffff).toNat = sum.toNat % 65536 := by
  rw [UInt64.toNat_and]
  exact Nat.and_two_pow_sub_one_eq_mod sum.toNat 16

theorem toNat_complement (sum : UInt64) : (~~~sum).toUInt16.toNat = 65535 - sum.toNat % 65536 := by
  have hlt := sum.toNat_lt
  rw [UInt64.toNat_toUInt16, UInt64.toNat_not]
  change (18446744073709551615 - sum.toNat) % 65536 = _
  omega

theorem toNat_checksum (h : buf.length ≤ 131072) :
    (checksum buf).toNat = 65535 - residue 65535 (words buf).sum := by
  have hle := sum_words_le buf
  have hsum : (addWords 0 buf).toNat = (words buf).sum := by
    rw [toNat_addWords 0 buf (by rw [UInt64.toNat_zero]; omega), UInt64.toNat_zero, Nat.zero_add]
  have hfold : ((addWords 0 buf >>> 16) + (addWords 0 buf &&& 0xffff)).toNat =
      (words buf).sum / 65536 + (words buf).sum % 65536 := by
    rw [UInt64.toNat_add, toNat_high, toNat_low, hsum, Nat.mod_eq_of_lt (by omega)]
  have hcarry : ((words buf).sum / 65536 + (words buf).sum % 65536 +
      ((words buf).sum / 65536 + (words buf).sum % 65536) / 65536) < 2 ^ 64 := by omega
  rw [← residue_fold (by omega), checksum, toNat_complement, UInt64.toNat_add, toNat_high, hfold,
    Nat.mod_eq_of_lt hcarry]

theorem sum_words_replace (pre post : Bytes) (hpre : pre.length % 2 = 0) (lo hi : UInt8) :
    (words (pre ++ lo :: hi :: post)).sum =
      (words (pre ++ 0 :: 0 :: post)).sum + (lo.toNat + 256 * hi.toNat) := by
  fun_induction words pre with
  | case1 a b pre ih =>
    have heven : pre.length % 2 = 0 := by
      rw [List.length_cons, List.length_cons] at hpre
      omega
    rw [List.cons_append, List.cons_append, List.cons_append, List.cons_append, words, words,
      List.sum_cons, List.sum_cons, ih heven]
    omega
  | case2 b => cases hpre
  | case3 =>
    rw [List.nil_append, List.nil_append, words, words, List.sum_cons, List.sum_cons]
    change _ = 0 + _ + _
    omega

theorem word_leBytes (c : UInt16) : c.toUInt8.toNat + 256 * (c >>> 8).toUInt8.toNat = c.toNat := by
  have hc := c.toNat_lt
  rw [UInt16.toNat_toUInt8, UInt16.toNat_toUInt8, UInt16.toNat_shiftRight,
    Nat.shiftRight_eq_div_pow]
  change c.toNat % 256 + 256 * (c.toNat / 256 % 256) = c.toNat
  omega

theorem checksum_completed (pre post : Bytes) (hpre : pre.length % 2 = 0)
    (hlen : (pre ++ 0 :: 0 :: post).length ≤ 131072) :
    checksum (pre ++ (leBytes (checksum (pre ++ 0 :: 0 :: post)) ++ post)) = 0 := by
  have hc := toNat_checksum hlen
  have hlen' : (pre ++ (leBytes (checksum (pre ++ 0 :: 0 :: post)) ++ post)).length ≤ 131072 := by
    rw [List.length_append] at hlen ⊢
    exact hlen
  have hsum := sum_words_replace pre post hpre (checksum (pre ++ 0 :: 0 :: post)).toUInt8
    (checksum (pre ++ 0 :: 0 :: post) >>> 8).toUInt8
  rw [word_leBytes, hc] at hsum
  have hnew := toNat_checksum hlen'
  apply UInt16.toNat_inj.mp
  rw [hnew]
  change 65535 - residue 65535 (words (pre ++ _ :: _ :: post)).sum = 0
  rw [hsum, residue_complement (by decide)]

theorem field_split {buf : Bytes} (h : (buf.drop k).take 2 = [0, 0]) :
    buf = buf.take k ++ (0 :: 0 :: buf.drop (k + 2)) ∧ (buf.take k).length = k := by
  have hdrop : buf.drop k = 0 :: 0 :: buf.drop (k + 2) := by
    rw [← List.drop_drop]
    exact (List.take_append_drop 2 (buf.drop k)).symm.trans (by rw [h]; rfl)
  have hk : k ≤ buf.length := by
    by_contra hlt
    rw [List.drop_eq_nil_of_le (by omega)] at h
    cases h
  refine ⟨?_, ?_⟩
  · rw [← hdrop, List.take_append_drop]
  · rw [List.length_take]
    omega

/-- `checksum` is the complement of the one's complement sum of the words, and a buffer in which it
is stored where zeros were has checksum zero. -/
theorem checksum_internet (buf : Bytes) (h : buf.length ≤ 131072) :
    (checksum buf).toNat = 65535 - onesSum 65535 (words buf) ∧
    ∀ k, k % 2 = 0 → (buf.drop k).take 2 = [0, 0] →
      checksum (writeAt buf k (leBytes (checksum buf))) = 0 := by
  constructor
  · rw [onesSum_eq (by decide) fun w hw => words_le hw]
    exact toNat_checksum h
  · intro k heven hfield
    obtain ⟨hsplit, hk⟩ := field_split hfield
    have hover := writeAt_cover (buf.take k) buf (leBytes (checksum buf))
    rw [hk, List.take_append_drop, List.append_assoc] at hover
    have hdone := checksum_completed (buf.take k) (buf.drop (k + 2)) (by rw [hk]; exact heven)
      (by rw [← hsplit]; exact h)
    rw [← hsplit] at hdone
    rw [hover]
    exact hdone

/-- An IPv4 header before its checksum is stored, as `main` fills it. -/
theorem checksum_internet_header :
    checksum [0x45, 0, 0, 39, 48, 57, 0, 0, 64, 17, 0, 0, 192, 168, 0, 100, 192, 168, 0, 255] =
      0xd9c7 ∧
    checksum (writeAt
      [0x45, 0, 0, 39, 48, 57, 0, 0, 64, 17, 0, 0, 192, 168, 0, 100, 192, 168, 0, 255] 10
      (leBytes (checksum
        [0x45, 0, 0, 39, 48, 57, 0, 0, 64, 17, 0, 0, 192, 168, 0, 100, 192, 168, 0, 255]))) = 0 :=
  ⟨by decide, (checksum_internet
    [0x45, 0, 0, 39, 48, 57, 0, 0, 64, 17, 0, 0, 192, 168, 0, 100, 192, 168, 0, 255]
    (by decide)).2 10 (by decide) (by decide)⟩

/-! The packet that `main` sends. -/

def ethHdrLen : Nat := 14

def ipHdrLen : Nat := 20

def udpHdrLen : Nat := 8

def ethFrameLen : Nat := 1514

structure Addr where
  a : UInt8
  b : UInt8
  c : UInt8
  d : UInt8
  deriving DecidableEq, Repr

def Addr.bytes (x : Addr) : Bytes := [x.a, x.b, x.c, x.d]

structure Mac where
  bytes : Bytes
  length : bytes.length = 6

def htons (n : Nat) : Bytes := [(UInt16.ofNat n >>> 8).toUInt8, (UInt16.ofNat n).toUInt8]

/-- What the program has as constants: addresses, ports and the payload. -/
structure Params where
  saddr : Addr
  daddr : Addr
  source : UInt16
  dest : UInt16
  data : CString

def Params.dataLen (p : Params) : Nat := p.data.bytes.length

def Params.ethHeader (mac : Mac) : Bytes := List.replicate 6 0xff ++ mac.bytes ++ [0x08, 0x00]

def Params.ipHeader (p : Params) (check : UInt16) : Bytes :=
  [0x45, 0] ++ htons (ipHdrLen + udpHdrLen + p.dataLen) ++ htons 12345 ++ [0, 0, 64, 17] ++
    leBytes check ++ p.saddr.bytes ++ p.daddr.bytes

def Params.udpHeader (p : Params) (check : UInt16) : Bytes :=
  htons p.source.toNat ++ htons p.dest.toNat ++ htons (udpHdrLen + p.dataLen) ++ leBytes check

def Params.pseudoHeader (p : Params) : Bytes :=
  p.saddr.bytes ++ p.daddr.bytes ++ [0, 17] ++ htons (udpHdrLen + p.dataLen)

/-- The UDP checksum, over the pseudo-header and the packet with a zero in its field. -/
def Params.udpCheck (p : Params) : UInt16 :=
  checksum (p.pseudoHeader ++ (p.udpHeader 0 ++ p.data.bytes))

/-- What `main` hands to `sendto`, if it fits into `sendbuf`. -/
def main (mac : Mac) (p : Params) : Option Bytes :=
  if ethHdrLen + ipHdrLen + udpHdrLen + p.dataLen ≤ ethFrameLen then
    some (Params.ethHeader mac ++ p.ipHeader (checksum (p.ipHeader 0)) ++ p.udpHeader p.udpCheck ++
      p.data.bytes)
  else none

def datagram (frame : Bytes) : Bytes := frame.drop (ethHdrLen + ipHdrLen)

/-- What a receiver sums up: addresses from the IP header, protocol, length, and the packet. -/
def received (frame : Bytes) : Bytes :=
  (frame.drop 26).take 8 ++ [0, 17] ++ ((datagram frame).drop 4).take 2 ++ datagram frame

/-- The words of a buffer in network order, the high byte first. -/
def netWords : Bytes → List Nat
  | hi :: lo :: buf => (256 * hi.toNat + lo.toNat) :: netWords buf
  | [b] => [256 * b.toNat]
  | [] => []

/-- The sum of the pseudo-packet in the protocol's terms; the length of the packet is in it
twice. -/
def Params.netSum (p : Params) : Nat :=
  (netWords p.saddr.bytes).sum + (netWords p.daddr.bytes).sum + 17 +
    2 * (udpHdrLen + p.dataLen) + p.source.toNat + p.dest.toNat + (netWords p.data.bytes).sum

/-- Swapping the bytes of the words multiplies their sum by 256, up to the modulus. -/
theorem sum_words_swap (buf : Bytes) :
    ∃ k, 256 * (words buf).sum = (netWords buf).sum + 65535 * k := by
  fun_induction words buf with
  | case1 lo hi buf ih =>
    obtain ⟨k, hk⟩ := ih
    refine ⟨k + hi.toNat, ?_⟩
    rw [netWords, List.sum_cons, List.sum_cons]
    omega
  | case2 b => exact ⟨0, rfl⟩
  | case3 => exact ⟨0, rfl⟩

theorem dvd_words_iff (buf : Bytes) : 65535 ∣ (words buf).sum ↔ 65535 ∣ (netWords buf).sum := by
  obtain ⟨k, hk⟩ := sum_words_swap buf
  omega

theorem toNat_htons (h : n < 65536) :
    256 * (UInt16.ofNat n >>> 8).toUInt8.toNat + (UInt16.ofNat n).toUInt8.toNat = n := by
  have hword := word_leBytes (UInt16.ofNat n)
  rw [UInt16.toNat_ofNat_of_lt' h] at hword
  omega

theorem sum_pseudogram (p : Params) (h : p.dataLen ≤ 1472) :
    (netWords (p.pseudoHeader ++ (p.udpHeader 0 ++ p.data.bytes))).sum = p.netSum := by
  have hlen : udpHdrLen + p.dataLen < 65536 := by
    rw [udpHdrLen]
    omega
  have hl := toNat_htons hlen
  have hs := toNat_htons p.source.toNat_lt
  have hd := toNat_htons p.dest.toNat_lt
  have hzero : (0 : UInt16).toUInt8.toNat = 0 ∧ ((0 : UInt16) >>> 8).toUInt8.toNat = 0 := by decide
  have hproto : (0 : UInt8).toNat = 0 ∧ (17 : UInt8).toNat = 17 := by decide
  simp only [Params.pseudoHeader, Params.udpHeader, Params.netSum, Addr.bytes, htons, leBytes,
    List.cons_append, List.nil_append, netWords, List.sum_cons, List.sum_nil]
  omega

theorem pseudogram_length (p : Params) (h : p.dataLen ≤ 1472) :
    (p.pseudoHeader ++ (p.udpHeader 0 ++ p.data.bytes)).length ≤ 131072 := by
  change p.data.bytes.length + 20 ≤ 131072
  rw [Params.dataLen] at h
  omega

theorem udpCheck_eq_zero_iff (p : Params) (h : p.dataLen ≤ 1472) :
    p.udpCheck = 0 ↔ 65535 ∣ p.netSum := by
  have hsum := sum_pseudogram p h
  have hlen := pseudogram_length p h
  have hne : (words (p.pseudoHeader ++ (p.udpHeader 0 ++ p.data.bytes))).sum ≠ 0 := by
    obtain ⟨k, hk⟩ := sum_words_swap (p.pseudoHeader ++ (p.udpHeader 0 ++ p.data.bytes))
    rw [hsum, Params.netSum] at hk
    omega
  have hle := residue_le (m := 65535) (by decide)
    (words (p.pseudoHeader ++ (p.udpHeader 0 ++ p.data.bytes))).sum
  rw [← hsum, ← dvd_words_iff, ← residue_eq_iff (by decide) hne, ← UInt16.toNat_inj,
    Params.udpCheck, toNat_checksum hlen, UInt16.toNat_zero]
  omega

theorem main_eq (h : main mac p = some frame) : p.dataLen ≤ 1472 ∧
    datagram frame = p.udpHeader p.udpCheck ++ p.data.bytes ∧
    received frame = p.pseudoHeader ++ (p.udpHeader p.udpCheck ++ p.data.bytes) := by
  unfold main at h
  split at h
  · next hfit =>
    cases h
    have heth : (Params.ethHeader mac).length = 14 := by
      rw [Params.ethHeader, List.length_append, List.length_append, mac.length]
      rfl
    have hdatagram : datagram (Params.ethHeader mac ++ p.ipHeader (checksum (p.ipHeader 0)) ++
        p.udpHeader p.udpCheck ++ p.data.bytes) = p.udpHeader p.udpCheck ++ p.data.bytes := by
      rw [datagram, List.append_assoc (_ ++ _)]
      apply List.drop_left'
      rw [List.length_append, heth]
      rfl
    have haddrs : ((Params.ethHeader mac ++ p.ipHeader (checksum (p.ipHeader 0)) ++
        p.udpHeader p.udpCheck ++ p.data.bytes).drop 26).take 8 =
          p.saddr.bytes ++ p.daddr.bytes := by
      rw [List.append_assoc, List.append_assoc, ← List.drop_drop (i := 12) (j := 14),
        List.drop_left' heth]
      rfl
    refine ⟨?_, hdatagram, ?_⟩
    · rw [ethHdrLen, ipHdrLen, udpHdrLen, ethFrameLen] at hfit
      omega
    · rw [received, hdatagram, haddrs]
      rfl
  · cases h

theorem leBytes_ne_zero_iff (c : UInt16) : leBytes c ≠ [0, 0] ↔ c ≠ 0 := by
  refine not_congr ⟨fun h => ?_, fun h => by rw [h]; rfl⟩
  have hword := word_leBytes c
  obtain ⟨hlo, htail⟩ := List.cons.inj h
  rw [hlo, (List.cons.inj htail).1] at hword
  exact UInt16.toNat_inj.mp hword.symm

/-- The UDP checksum that is sent verifies, and it is there unless the words of the pseudo-packet
sum up to a multiple of 65535. -/
theorem udp_checksum_present_iff (mac : Mac) (p : Params) (frame : Bytes)
    (h : main mac p = some frame) :
    (((datagram frame).drop 6).take 2 ≠ [0, 0] ∧ checksum (received frame) = 0) ↔
      ¬ 65535 ∣ p.netSum := by
  obtain ⟨hlen, hdatagram, hreceived⟩ := main_eq h
  have hfield : ((datagram frame).drop 6).take 2 = leBytes p.udpCheck := by
    rw [hdatagram]
    rfl
  have hverify : checksum (received frame) = 0 := by
    have hdone := checksum_completed (p.pseudoHeader ++ (p.udpHeader 0).take 6) p.data.bytes
      (show 18 % 2 = 0 by decide) (pseudogram_length p hlen)
    rw [hreceived]
    exact hdone
  rw [hfield, leBytes_ne_zero_iff, ← udpCheck_eq_zero_iff p hlen]
  exact ⟨fun hp => hp.1, fun hp => ⟨hp, hverify⟩⟩

def constants (data : CString) : Params :=
  ⟨⟨192, 168, 0, 100⟩, ⟨192, 168, 0, 255⟩, 12345, 54321, data⟩

def anyMac : Mac := ⟨[2, 0, 0, 0, 0, 1], rfl⟩

theorem udp_checksum_hello :
    ∃ frame, main anyMac (constants (.lit "Hello, UDP!" (by decide))) = some frame ∧
      ((datagram frame).drop 6).take 2 ≠ [0, 0] ∧ checksum (received frame) = 0 :=
  ⟨_, rfl, (udp_checksum_present_iff anyMac (constants (.lit "Hello, UDP!" (by decide))) _
    rfl).mpr (by decide)⟩

/-- The payload `<<<\x7b` between the program's own addresses and ports. -/
theorem udp_checksum_absent :
    ∃ frame, main anyMac (constants (.lit "<<<\x7b" (by decide))) = some frame ∧
      ((datagram frame).drop 6).take 2 = [0, 0] :=
  ⟨_, rfl, by decide⟩

end SysPrg.RawEth
