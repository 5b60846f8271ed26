import SysPrg.Kernel
import SysPrg.ShmLines

namespace SysPrg
set_option autoImplicit true

open ShmLines (getLine)

/-- What standard input is open on: whether it can seek, the size of the buffer that stdio has for
it, and, for one that cannot seek, how much is there for a `read` when so much has been read. -/
structure InputKind where
  seekable : Bool
  blksize : Nat
  pos : 0 < blksize
  there : Nat → Nat

def InputKind.blockEnd (kind : InputKind) (p : Nat) : Nat :=
  (p + kind.blksize - 1) / kind.blksize * kind.blksize

theorem InputKind.blockEnd_spec (kind : InputKind) (p : Nat) :
    p ≤ kind.blockEnd p ∧ kind.blockEnd p < p + kind.blksize := by
  have hpos := kind.pos
  have hdiv := Nat.div_add_mod' (p + kind.blksize - 1) kind.blksize
  have hmod := Nat.mod_lt (p + kind.blksize - 1) hpos
  unfold blockEnd
  omega

theorem InputKind.blockEnd_unique (kind : InputKind) {p k : Nat} (h : p ≤ k * kind.blksize)
    (h' : k * kind.blksize < p + kind.blksize) : kind.blockEnd p = k * kind.blksize := by
  have hpos := kind.pos
  have hk : (p + kind.blksize - 1) / kind.blksize = k := by
    rw [Nat.div_eq_iff hpos]
    omega
  rw [blockEnd, hk]

theorem InputKind.blockEnd_succ (kind : InputKind) (p : Nat) :
    kind.blockEnd (p + 1) =
      if kind.blockEnd p = p then p + kind.blksize else kind.blockEnd p := by
  obtain ⟨hle, hlt⟩ := kind.blockEnd_spec p
  split
  · next h =>
    have hsucc : ((p + kind.blksize - 1) / kind.blksize + 1) * kind.blksize = p + kind.blksize := by
      rw [Nat.succ_mul]
      exact congrArg (· + kind.blksize) h
    have hpos := kind.pos
    rw [← hsucc]
    apply kind.blockEnd_unique
    · omega
    · omega
  · apply kind.blockEnd_unique
    · change p + 1 ≤ kind.blockEnd p
      omega
    · change kind.blockEnd p < p + 1 + kind.blksize
      omega

/-- The stream `stdin` of a process that shares the open file with its children. What is in `buf`
has been read from the file, but not yet from the stream. -/
structure Stdin where
  file : OpenFile
  buf : Bytes
  eof : Bool
  deriving DecidableEq, Repr

namespace Stdin

def start (inp : Bytes) : Stdin := ⟨⟨inp, 0⟩, [], false⟩

/-- What one `read` into the empty buffer gets. -/
def block (kind : InputKind) (s : Stdin) : Bytes :=
  if kind.seekable then (s.file.data.drop s.file.off).take kind.blksize
  else s.file.next (kind.there s.file.off) kind.blksize

/-- The end of the file is not forgotten, even if the offset is moved. -/
def getc (kind : InputKind) (s : Stdin) : Option UInt8 × Stdin :=
  match s.buf with
  | b :: buf => (some b, { s with buf := buf })
  | [] =>
    if s.eof then (none, s)
    else
      match s.block kind with
      | [] => (none, { s with eof := true })
      | b :: buf => (some b, ⟨s.file.advance (buf.length + 1), buf, false⟩)

def fgets (kind : InputKind) : Nat → Stdin → Bytes × Stdin
  | 0, s => ([], s)
  | n + 1, s =>
    match s.getc kind with
    | (none, s) => ([], s)
    | (some b, s) => if b = 10 then ([b], s) else (b :: (fgets kind n s).1, (fgets kind n s).2)

/-- `exit` in a child that was forked with a copy of the stream: what the copy has buffered is given
back to the file, by an `lseek` from where the offset is. -/
def childExit (kind : InputKind) (s : Stdin) : Stdin :=
  if kind.seekable ∧ s.buf.length ≤ s.file.off then
    { s with file := { s.file with off := s.file.off - s.buf.length } }
  else s

/-- Another process reads from the file. -/
def childRead (s : Stdin) (k : Nat) : Stdin :=
  { s with file := { s.file with off := max s.file.off (min (s.file.off + k) s.file.data.length) } }

/-- What is still to come from the stream, if nobody moves the offset. -/
def rest (s : Stdin) : Bytes := s.buf ++ s.file.data.drop s.file.off

def Sound (s : Stdin) : Prop := s.eof = true → s.rest = []

/-- The file has been read in whole blocks, and nobody else has moved the offset. -/
structure Aligned (kind : InputKind) (s : Stdin) : Prop where
  inside : s.file.off ≤ s.file.data.length
  taken : s.buf.length ≤ s.file.off
  off : s.file.off = min (kind.blockEnd (s.file.off - s.buf.length)) s.file.data.length

theorem start_rest (inp : Bytes) : (start inp).rest = inp := rfl

theorem start_sound (inp : Bytes) : (start inp).Sound := nofun

theorem childRead_zero (s : Stdin) : s.childRead 0 = s := by
  have h : max s.file.off (min (s.file.off + 0) s.file.data.length) = s.file.off := by omega
  rw [childRead, h]

theorem childExit_of_not_seekable (h : kind.seekable = false) (s : Stdin) :
    s.childExit kind = s :=
  if_neg fun hs => by
    rw [h] at hs
    cases hs.1

theorem childExit_of_nil {s : Stdin} (h : s.buf = []) : s.childExit kind = s := by
  have hoff : s.file.off - s.buf.length = s.file.off := by rw [h, List.length_nil, Nat.sub_zero]
  unfold childExit
  split
  · rw [hoff]
  · rfl

theorem childExit_buf (s : Stdin) : (s.childExit kind).buf = s.buf := by
  unfold childExit
  split <;> rfl

theorem block_append (kind : InputKind) (s : Stdin) :
    s.block kind ++ s.file.data.drop (s.file.off + (s.block kind).length) =
      s.file.data.drop s.file.off := by
  rw [← List.drop_drop]
  unfold block
  split
  · rw [List.length_take, ← List.drop_eq_drop_min]
    exact List.take_append_drop _ _
  · exact chunk_append_drop _ _ _

theorem block_eq_nil (kind : InputKind) (s : Stdin) :
    s.block kind = [] ↔ s.file.data.drop s.file.off = [] := by
  have hpos := kind.pos
  unfold block
  split
  · rw [List.take_eq_nil_iff]
    constructor
    · rintro (h | h)
      · omega
      · exact h
    · exact .inr
  · exact chunk_eq_nil hpos

theorem getc_spec {s : Stdin} (h : s.Sound) (kind : InputKind) :
    (s.getc kind).2.Sound ∧ (s.rest = [] ∧ (s.getc kind).1 = none ∧ (s.getc kind).2.rest = [] ∨
      ∃ b, (s.getc kind).1 = some b ∧ s.rest = b :: (s.getc kind).2.rest) := by
  unfold getc
  cases hbuf : s.buf with
  | cons b buf =>
    refine ⟨?_, .inr ⟨b, rfl, ?_⟩⟩
    · intro heof
      have hrest := h heof
      rw [rest, hbuf] at hrest
      cases hrest
    · rw [rest, hbuf]
      rfl
  | nil =>
    simp only
    split
    · next heof => exact ⟨h, .inl ⟨h heof, rfl, h heof⟩⟩
    · next heof =>
      have hrest : s.rest = s.file.data.drop s.file.off := by rw [rest, hbuf, List.nil_append]
      cases hb : s.block kind with
      | nil =>
        have hnil : s.file.data.drop s.file.off = [] := (block_eq_nil kind s).mp hb
        exact ⟨fun _ => hnil, .inl ⟨hrest.trans hnil, rfl, hnil⟩⟩
      | cons b buf =>
        refine ⟨fun heof => absurd heof Bool.false_ne_true, .inr ⟨b, rfl, ?_⟩⟩
        rw [hrest, ← block_append kind s, hb]
        rfl

/-- As long as nobody else moves the offset, the stream has the lines of the file. -/
theorem fgets_spec {s : Stdin} (h : s.Sound) (kind : InputKind) (n : Nat) :
    (s.fgets kind n).2.Sound ∧ (s.fgets kind n).1 = (getLine n s.rest).1 ∧
      (s.fgets kind n).2.rest = (getLine n s.rest).2 := by
  induction n generalizing s with
  | zero => exact ⟨h, rfl, rfl⟩
  | succ n ih =>
    obtain ⟨hsound, ⟨hnil, hnone, hnil'⟩ | ⟨b, hb, hrest⟩⟩ := getc_spec h kind
    · rw [fgets, hnil]
      revert hnone hsound hnil'
      rcases s.getc kind with ⟨_, s'⟩
      rintro hsound rfl hnil'
      exact ⟨hsound, rfl, hnil'⟩
    · rw [fgets, hrest, getLine]
      revert hb hsound hrest
      rcases s.getc kind with ⟨_, s'⟩
      rintro hsound rfl hrest
      simp only
      split
      · exact ⟨hsound, rfl, rfl⟩
      · obtain ⟨ih₁, ih₂, ih₃⟩ := ih hsound
        exact ⟨ih₁, congrArg (b :: ·) ih₂, ih₃⟩

theorem start_aligned (kind : InputKind) (inp : Bytes) : (start inp).Aligned kind := by
  refine ⟨Nat.zero_le _, Nat.le_refl 0, ?_⟩
  have h := (kind.blockEnd_unique (p := 0) (k := 0) (by omega) (by have := kind.pos; omega))
  change 0 = min (kind.blockEnd 0) inp.length
  rw [h, Nat.zero_mul, Nat.zero_min]

theorem Aligned.getc {s : Stdin} (h : s.Aligned kind) (hseek : kind.seekable = true) :
    (s.getc kind).2.Aligned kind := by
  obtain ⟨hin, htaken, hoff⟩ := h
  unfold Stdin.getc
  cases hbuf : s.buf with
  | cons b buf =>
    rw [hbuf, List.length_cons] at htaken hoff
    refine ⟨hin, Nat.le_of_succ_le htaken, ?_⟩
    have hsucc := kind.blockEnd_succ (s.file.off - (buf.length + 1))
    have hnext : s.file.off - (buf.length + 1) + 1 = s.file.off - buf.length := by omega
    rw [if_neg (by omega), hnext] at hsucc
    simp only [hsucc]
    exact hoff
  | nil =>
    rw [hbuf, List.length_nil, Nat.sub_zero] at hoff
    simp only
    split
    · exact ⟨hin, htaken, by rw [hbuf]; exact hoff⟩
    · have hlen : (s.block kind).length =
          min kind.blksize (s.file.data.length - s.file.off) := by
        rw [block, if_pos hseek, List.length_take, List.length_drop]
      cases hb : s.block kind with
      | nil => exact ⟨hin, Nat.zero_le _, hoff⟩
      | cons b buf =>
        rw [hb, List.length_cons] at hlen
        have hsucc := kind.blockEnd_succ s.file.off
        rw [if_pos (by omega)] at hsucc
        refine ⟨?_, ?_, ?_⟩
        · simp only [OpenFile.advance]
          omega
        · simp only [OpenFile.advance]
          omega
        · simp only [OpenFile.advance]
          rw [show s.file.off + (buf.length + 1) - buf.length = s.file.off + 1 by omega, hsucc]
          omega

theorem Aligned.fgets {s : Stdin} (h : s.Aligned kind) (hseek : kind.seekable = true) (n : Nat) :
    (s.fgets kind n).2.Aligned kind := by
  induction n generalizing s with
  | zero => exact h
  | succ n ih =>
    have hc := h.getc hseek
    rw [Stdin.fgets]
    revert hc
    rcases s.getc kind with ⟨_ | b, s'⟩
    · exact id
    · intro hc
      simp only
      split
      · exact hc
      · exact ih hc

theorem Aligned.length_buf {s : Stdin} (h : s.Aligned kind)
    (hp : p + s.rest.length = s.file.data.length) :
    p + s.buf.length = min (kind.blockEnd p) s.file.data.length := by
  obtain ⟨hin, htaken, hoff⟩ := h
  rw [rest, List.length_append, List.length_drop] at hp
  have hpos : s.file.off - s.buf.length = p := by omega
  rw [hpos] at hoff
  omega

theorem getc_data (kind : InputKind) (s : Stdin) : (s.getc kind).2.file.data = s.file.data := by
  unfold getc
  split
  · rfl
  · split
    · rfl
    · split <;> rfl

theorem fgets_data (kind : InputKind) (n : Nat) (s : Stdin) :
    (s.fgets kind n).2.file.data = s.file.data := by
  induction n generalizing s with
  | zero => rfl
  | succ n ih =>
    have hc := s.getc_data kind
    rw [fgets]
    revert hc
    rcases s.getc kind with ⟨_ | b, s'⟩
    · exact id
    · intro hc
      simp only
      split
      · exact hc
      · exact (ih s').trans hc

/-- A line that is buffered is taken without the file. -/
theorem fgets_buffered {s : Stdin} (kind : InputKind) (hl : (10 : UInt8) ∉ l)
    (hlen : l.length < n) (hbuf : s.buf = l ++ 10 :: more) :
    s.fgets kind n = (l ++ [10], { s with buf := more }) := by
  induction l generalizing s n with
  | nil =>
    obtain ⟨n, rfl⟩ := Nat.exists_eq_add_of_lt hlen
    rw [fgets, getc, hbuf]
    rfl
  | cons b l ih =>
    cases n with
    | zero => omega
    | succ n =>
      have hb : b ≠ 10 := fun h => hl (h ▸ List.mem_cons_self)
      have ih := ih (s := { s with buf := l ++ 10 :: more })
        (fun h => hl (List.mem_cons_of_mem b h)) (Nat.lt_of_succ_lt_succ hlen) rfl
      rw [fgets, getc, hbuf]
      simp only [List.cons_append, if_neg hb, ih]

end Stdin

end SysPrg
