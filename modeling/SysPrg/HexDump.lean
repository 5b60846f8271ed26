import SysPrg.Block
import SysPrg.Memory

namespace SysPrg.HexDump
set_option autoImplicit true

def hexDigit (d : Nat) : UInt8 := UInt8.ofNat (if d < 10 then 48 + d else 87 + d)

def hex02 (b : UInt8) : Bytes := [hexDigit (b.toNat / 16), hexDigit (b.toNat % 16)]

def zeroPad (width : Nat) (bs : Bytes) : Bytes := List.replicate (width - bs.length) 48 ++ bs

def plusHex04 (i : Nat) : Bytes := 43 :: zeroPad 4 ((Nat.digits 16 i).reverse.map hexDigit)

/-- The text of `+%06d`; a minus sign takes one of the six places. -/
def plusDec06 (z : Int) : Bytes :=
  43 :: if z < 0 then 45 :: zeroPad 5 (CString.digits z.natAbs).bytes
    else zeroPad 6 (CString.digits z.natAbs).bytes

/-- The variables of `hex_dump`, and what it has printed below the ruler. -/
structure Dump where
  buffer : Int → UInt8
  j : Nat
  out : Bytes

/-- `printf("%s", buffer)`, from an array of 128 cells. -/
def printed (buffer : Int → UInt8) : Bytes := cStr ((List.range 128).map fun c : Nat => buffer c)

/-- The line buffer before the loop. `stack` is what the array held before it was cleared. -/
def start (stack : Int → UInt8) (first : Bytes) : Dump :=
  let buffer := put (put stack 0 (List.replicate 128 0)) 0 (List.replicate (58 + 16) 32)
  let buffer := Function.update (Function.update buffer (58 + 16) 10) (58 + 17) 0
  { buffer := put buffer 0 first, j := 0, out := [] }

def Dump.newLine (s : Dump) (label : Bytes) : Dump :=
  { out := s.out ++ printed s.buffer
    buffer := put (put s.buffer 0 (List.replicate (58 + 16) 32)) 0 label
    j := 0 }

def ascii (b : UInt8) : UInt8 := if b > 31 ∧ b < 127 then b else 46

def Dump.place (s : Dump) (b : UInt8) : Dump :=
  { s with
    buffer := put (put s.buffer (8 + s.j * 3) (hex02 b)) (58 + s.j) [ascii b]
    j := s.j + 1 }

def Dump.turn (label : Nat → Bytes) (s : Dump) (i : Nat) (b : UInt8) : Dump :=
  if s.j = 16 then (s.newLine (label i)).place b else s.place b

def Dump.loop (label : Nat → Bytes) (s : Dump) (i : Nat) : Bytes → Dump
  | [] => s
  | b :: data => (s.turn label i b).loop label (i + 1) data

def Dump.finish (s : Dump) : Bytes := if s.j ≠ 0 then s.out ++ printed s.buffer else s.out

def header (caption : Option CString) (verbose : Bool) (size : Nat) (address : CString) : Bytes :=
  match verbose, caption with
  | true, some c =>
    (CString.lit "---------> " (by decide) ++ c ++ CString.lit " <--------- (" (by decide) ++
      CString.decimal size ++ CString.lit " bytes from " (by decide) ++ address ++
      CString.lit ")\n" (by decide)).bytes
  | _, _ => []

def ruler : Bytes := CString.bytes (CString.lit
  "        +0          +4          +8          +c            0   4   8   c   \n" (by decide))

/-- `hex_dump` of common.c. -/
def hexDump (stack : Int → UInt8) (data : Bytes) (caption : Option CString) (verbose : Bool)
    (address : CString) : Bytes :=
  header caption verbose data.length address ++ ruler ++
    ((start stack [43, 48, 48, 48, 48]).loop (fun i => (plusHex04 i).take 5) 0 data).finish

/-- `hex_dump` of mmap_simple.c, whose labels are decimal and start at `offset`. -/
def hexDumpFrom (stack : Int → UInt8) (data : Bytes) (offset : Int) (caption : Option CString)
    (verbose : Bool) (address : CString) : Bytes :=
  header caption verbose data.length address ++ ruler ++
    ((start stack (43 :: ((plusDec06 offset).drop 1).take 6)).loop
      (fun i => (plusDec06 (toInt (i + offset))).take 7) 0 data).finish

/-- A line buffer that shows the bytes of `cell` in its columns. -/
structure Holds (m : Int → UInt8) (cell : Nat → Option UInt8) : Prop where
  byte : ∀ j b, j < 16 → cell j = some b → m (8 + j * 3) = hexDigit (b.toNat / 16) ∧
    m (8 + j * 3 + 1) = hexDigit (b.toNat % 16) ∧ m (58 + j) = ascii b
  blank : ∀ j, j < 16 → cell j = none →
    m (8 + j * 3) = 32 ∧ m (8 + j * 3 + 1) = 32 ∧ m (58 + j) = 32
  text : ∀ c : Int, 0 ≤ c → c < 74 → m c ≠ 0 ∧ m c ≠ 10
  newline : m 74 = 10
  nul : m 75 = 0

def Plain (bs : Bytes) : Prop := ∀ b ∈ bs, b ≠ 0 ∧ b ≠ 10

/-- What may stand at the start of a line: at most the eight columns before the digits. -/
structure Label (bs : Bytes) : Prop where
  short : bs.length ≤ 8
  text : Plain bs

theorem Holds.blanked {m : Int → UInt8} {label : Bytes} (hl : Label label) (hn : m 74 = 10)
    (h0 : m 75 = 0) :
    Holds (put (put m 0 (List.replicate 74 32)) 0 label) fun _ => none := by
  have hcol : ∀ c : Int, 8 ≤ c → c < 74 →
      put (put m 0 (List.replicate 74 32)) 0 label c = 32 := by
    intro c hc hc'
    have hs := hl.short
    rw [put_of_ge _ _ (by omega)]
    exact put_replicate m 32 (by omega) (by omega)
  have hend : ∀ c : Int, 74 ≤ c → put (put m 0 (List.replicate 74 32)) 0 label c = m c := by
    intro c hc
    have hs := hl.short
    rw [put_of_ge _ _ (by omega), put_of_ge _ _ (by rw [List.length_replicate]; omega)]
  constructor
  · intro j b _ hb
    cases hb
  · intro j hj _
    exact ⟨hcol _ (by omega) (by omega), hcol _ (by omega) (by omega),
      hcol _ (by omega) (by omega)⟩
  · intro c hc hc'
    rcases put_mem (put m 0 (List.replicate 74 32)) 0 label c with h | h
    · rw [h, put_replicate m 32 hc (by omega)]
      decide
    · exact hl.text _ h
  · rw [hend 74 (by decide), hn]
  · rw [hend 75 (by decide), h0]

theorem hexDigit_text (d : Nat) (h : d < 16) : hexDigit d ≠ 0 ∧ hexDigit d ≠ 10 := by
  interval_cases d <;> decide

theorem ascii_text (b : UInt8) : ascii b ≠ 0 ∧ ascii b ≠ 10 := by
  unfold ascii
  split
  · next h => exact ⟨fun h0 => by rw [h0] at h; exact absurd h (by decide),
      fun h0 => by rw [h0] at h; exact absurd h (by decide)⟩
  · decide

theorem Holds.place {j : Nat} (h : Holds m cell) (b : UInt8) (hj : j < 16) :
    Holds (put (put m (8 + j * 3) (hex02 b)) (58 + j) [ascii b])
      (Function.update cell j (some b)) := by
  have hput : put (put m (8 + j * 3) (hex02 b)) (58 + j) [ascii b] = fun c : Int =>
      if c = 58 + j then ascii b
      else if c = 8 + j * 3 + 1 then hexDigit (b.toNat % 16)
      else if c = 8 + j * 3 then hexDigit (b.toNat / 16) else m c := by
    funext c
    simp only [put, hex02, Function.update_apply]
  have hother : ∀ c : Int, c ≠ 58 + j → c ≠ 8 + j * 3 + 1 → c ≠ 8 + j * 3 →
      put (put m (8 + j * 3) (hex02 b)) (58 + j) [ascii b] c = m c := by
    intro c h₁ h₂ h₃
    rw [hput]
    exact (if_neg h₁).trans ((if_neg h₂).trans (if_neg h₃))
  constructor
  · intro i x hi hx
    by_cases hij : i = j
    · subst hij
      obtain rfl : b = x := by simpa using hx
      rw [hput]
      refine ⟨?_, ?_, if_pos rfl⟩
      · exact (if_neg (by omega)).trans ((if_neg (by omega)).trans (if_pos rfl))
      · exact (if_neg (by omega)).trans (if_pos rfl)
    · rw [Function.update_of_ne hij] at hx
      rw [hother _ (by omega) (by omega) (by omega), hother _ (by omega) (by omega) (by omega),
        hother _ (by omega) (by omega) (by omega)]
      exact h.byte i x hi hx
  · intro i hi hx
    have hij : i ≠ j := by
      rintro rfl
      rw [Function.update_self] at hx
      cases hx
    rw [Function.update_of_ne hij] at hx
    rw [hother _ (by omega) (by omega) (by omega), hother _ (by omega) (by omega) (by omega),
      hother _ (by omega) (by omega) (by omega)]
    exact h.blank i hi hx
  · intro c hc hc'
    have hb := b.toNat_lt
    rw [hput]
    dsimp only
    split
    · exact ascii_text b
    · split
      · exact hexDigit_text _ (by omega)
      · split
        · exact hexDigit_text _ (by omega)
        · exact h.text c hc hc'
  · rw [hother _ (by omega) (by omega) (by omega)]
    exact h.newline
  · rw [hother _ (by omega) (by omega) (by omega)]
    exact h.nul

/-- A printed line that shows the bytes of `cell`, in hexadecimal and as characters. -/
structure Shows (row : Bytes) (cell : Nat → Option UInt8) : Prop where
  length : row.length = 75
  newline : row[74]? = some 10
  text : 10 ∉ row.take 74
  byte : ∀ j b, j < 16 → cell j = some b → row[8 + j * 3]? = some (hexDigit (b.toNat / 16)) ∧
    row[8 + j * 3 + 1]? = some (hexDigit (b.toNat % 16)) ∧ row[58 + j]? = some (ascii b)
  blank : ∀ j, j < 16 → cell j = none →
    row[8 + j * 3]? = some 32 ∧ row[8 + j * 3 + 1]? = some 32 ∧ row[58 + j]? = some 32

theorem Shows.congr (h : Shows row cell) (hc : ∀ j, j < 16 → cell j = cell' j) :
    Shows row cell' where
  length := h.length
  newline := h.newline
  text := h.text
  byte j b hj hb := h.byte j b hj ((hc j hj).trans hb)
  blank j hj hb := h.blank j hj ((hc j hj).trans hb)

theorem Holds.printed (h : Holds m cell) :
    printed m = (List.range 75).map fun c : Nat => m c := by
  have hnul : (0 : UInt8) ∉ (List.range 75).map fun c : Nat => m c := by
    intro h0
    obtain ⟨c, hc, hz⟩ := List.mem_map.mp h0
    have hc' := List.mem_range.mp hc
    by_cases h74 : c = 74
    · subst h74
      exact absurd (hz.symm.trans h.newline) (by decide)
    · exact (h.text c (by omega) (by omega)).1 hz
  have hsplit : (List.range 128).map (fun c : Nat => m c) =
      ((List.range 75).map fun c : Nat => m c) ++
        0 :: ((List.range 52).map fun c => m (75 + (c + 1) : Nat)) := by
    rw [show 128 = 75 + (52 + 1) from rfl, List.range_add, List.range_succ_eq_map, List.map_cons,
      List.map_append, List.map_cons, List.map_map, List.map_map]
    exact congrArg _ (congrArg (· :: _) h.nul)
  rw [HexDump.printed, hsplit, cStr_append hnul]

theorem Holds.shows (h : Holds m cell) : Shows (HexDump.printed m) cell := by
  have hcol : ∀ c : Nat, c < 75 → ((List.range 75).map fun c : Nat => m c)[c]? = some (m c) := by
    intro c hc
    rw [List.getElem?_map, List.getElem?_range hc]
    rfl
  rw [h.printed]
  constructor
  · rw [List.length_map, List.length_range]
  · rw [hcol 74 (by decide)]
    exact congrArg some h.newline
  · intro hmem
    rw [← List.map_take, List.take_range] at hmem
    obtain ⟨c, hc, h10⟩ := List.mem_map.mp hmem
    have hc' := List.mem_range.mp hc
    exact (h.text c (by omega) (by omega)).2 h10
  · intro j b hj hb
    obtain ⟨h₁, h₂, h₃⟩ := h.byte j b hj hb
    rw [hcol _ (by omega), hcol _ (by omega), hcol _ (by omega)]
    exact ⟨congrArg some h₁, congrArg some h₂, congrArg some h₃⟩
  · intro j hj hb
    obtain ⟨h₁, h₂, h₃⟩ := h.blank j hj hb
    rw [hcol _ (by omega), hcol _ (by omega), hcol _ (by omega)]
    exact ⟨congrArg some h₁, congrArg some h₂, congrArg some h₃⟩

/-- After the bytes `done`: whole lines printed, the bytes behind them in the line buffer. -/
structure Dumped (done : Bytes) (lines : List Bytes) (s : Dump) : Prop where
  out : s.out = lines.flatten
  shows : ∀ (l : Nat) row, lines[l]? = some row → Shows row fun j => done[16 * l + j]?
  length : done.length = 16 * lines.length + s.j
  j_le : s.j ≤ 16
  buffer : Holds s.buffer fun j => done[16 * lines.length + j]?

theorem getElem?_concat_cases {xs : List α} (h : (xs ++ [x])[k]? = some y) :
    xs[k]? = some y ∨ k = xs.length ∧ x = y := by
  rw [List.getElem?_append] at h
  split at h
  · exact .inl h
  · have hk : k - xs.length = 0 := by
      by_contra hne
      rw [List.getElem?_eq_none (by rw [List.length_singleton]; omega)] at h
      cases h
    rw [hk] at h
    exact .inr ⟨by omega, Option.some.inj h⟩

theorem Dumped.newLine (h : Dumped done lines s) (hj : s.j = 16) (hl : Label label) :
    Dumped done (lines ++ [printed s.buffer]) (s.newLine label) := by
  have hnone : (fun j => done[16 * (lines ++ [printed s.buffer]).length + j]?) =
      fun _ => none := by
    funext j
    have hlen := h.length
    rw [List.length_append, List.length_singleton]
    exact List.getElem?_eq_none (by omega)
  constructor
  · rw [List.flatten_append, List.flatten_singleton, ← h.out]
    rfl
  · intro l row hrow
    rcases getElem?_concat_cases hrow with h' | ⟨rfl, rfl⟩
    · exact h.shows l row h'
    · exact h.buffer.shows
  · have hlen := h.length
    rw [List.length_append, List.length_singleton]
    change _ = _ + 0
    omega
  · exact Nat.zero_le _
  · rw [hnone]
    exact .blanked hl h.buffer.newline h.buffer.nul

theorem Dumped.place (h : Dumped done lines s) (hj : s.j < 16) (b : UInt8) :
    Dumped (done ++ [b]) lines (s.place b) := by
  have hlen := h.length
  constructor
  · exact h.out
  · intro l row hrow
    have hl : l < lines.length := (List.getElem?_eq_some_iff.mp hrow).1
    have hcell : ∀ j, j < 16 → (done ++ [b])[16 * l + j]? = done[16 * l + j]? := by
      intro j hj
      exact List.getElem?_append_left (by omega)
    exact (h.shows l row hrow).congr fun j hj => (hcell j hj).symm
  · rw [List.length_append, List.length_singleton]
    change _ = _ + (s.j + 1)
    omega
  · exact hj
  · have hcell : (fun j => (done ++ [b])[16 * lines.length + j]?) =
        Function.update (fun j => done[16 * lines.length + j]?) s.j (some b) := by
      funext j
      by_cases hjs : j = s.j
      · subst hjs
        rw [Function.update_self, ← hlen]
        exact List.getElem?_concat_length
      · rw [Function.update_of_ne hjs, List.getElem?_append]
        split
        · rfl
        · rw [List.getElem?_eq_none (by rw [List.length_singleton]; omega),
            List.getElem?_eq_none (by omega)]
    rw [hcell]
    exact h.buffer.place b hj

theorem loop_keeps {P : Bytes → List Bytes → Dump → Prop}
    (hturn : ∀ done lines s b, P done lines s →
      ∃ lines', P (done ++ [b]) lines' (s.turn label done.length b))
    (h : P done lines s) (data : Bytes) :
    ∃ lines', P (done ++ data) lines' (s.loop label done.length data) := by
  induction data generalizing done lines s with
  | nil =>
    rw [List.append_nil]
    exact ⟨lines, h⟩
  | cons b data ih =>
    obtain ⟨lines', h'⟩ := hturn done lines s b h
    have hrest := ih h'
    rw [List.append_assoc, List.length_append, List.length_singleton] at hrest
    exact hrest

structure Body (data : Bytes) (lines : List Bytes) : Prop where
  count : lines.length = (data.length + 15) / 16
  shows : ∀ (l : Nat) row, lines[l]? = some row → Shows row fun j => data[16 * l + j]?

theorem Dumped.finish (h : Dumped data lines s) (hpos : data ≠ [] → 0 < s.j) :
    ∃ lines', s.finish = lines'.flatten ∧ Body data lines' ∧
      (lines' = lines ∨ lines' = lines ++ [printed s.buffer]) := by
  have hlen := h.length
  have hle := h.j_le
  unfold Dump.finish
  by_cases hj : s.j = 0
  · have hdata : data = [] := by
      by_contra hne
      exact Nat.lt_irrefl 0 (hj ▸ hpos hne)
    rw [if_neg (by rw [hj]; decide)]
    refine ⟨lines, h.out, ⟨?_, h.shows⟩, .inl rfl⟩
    rw [hdata, List.length_nil] at hlen ⊢
    omega
  · rw [if_pos hj]
    refine ⟨lines ++ [printed s.buffer], ?_, ⟨?_, ?_⟩, .inr rfl⟩
    · rw [List.flatten_append, List.flatten_singleton, ← h.out]
    · rw [List.length_append, List.length_singleton]
      omega
    · intro l row hrow
      rcases getElem?_concat_cases hrow with h' | ⟨rfl, rfl⟩
      · exact h.shows l row h'
      · exact h.buffer.shows

theorem start_buffer (stack : Int → UInt8) (first : Bytes) :
    ∃ m : Int → UInt8, m 74 = 10 ∧ m 75 = 0 ∧
      (start stack first).buffer = put (put m 0 (List.replicate 74 32)) 0 first := by
  refine ⟨Function.update (Function.update (put stack 0 (List.replicate 128 0)) 74 10) 75 0,
    by simp, by simp, ?_⟩
  unfold start
  dsimp only
  rw [put_update _ _ _ (.inr (by rw [List.length_replicate]; decide)),
    put_update _ _ _ (.inr (by rw [List.length_replicate]; decide))]
  rfl

theorem start_dumped (stack : Int → UInt8) (hl : Label first) :
    Dumped [] [] (start stack first) := by
  obtain ⟨m, hn, h0, hm⟩ := start_buffer stack first
  refine ⟨rfl, fun l row h => (by cases h), rfl, Nat.zero_le _, ?_⟩
  rw [hm]
  exact .blanked hl hn h0

/-- The lines that are printed start with their labels, and so does the line buffer. -/
structure Labelled (lab : Nat → Bytes) (lines : List Bytes) (m : Int → UInt8) : Prop where
  rows : ∀ (l : Nat) row, lines[l]? = some row → lab l ++ [32] <+: row
  buffer : Begins m (lab lines.length ++ [32])

theorem blanked_label (m : Int → UInt8) {label : Bytes} (hs : label.length ≤ 7) :
    Begins (put (put m 0 (List.replicate 74 32)) 0 label) (label ++ [32]) := by
  intro k c h
  rcases getElem?_concat_cases h with h | ⟨rfl, rfl⟩
  · exact put_begins _ label k c h
  · rw [put_of_ge _ _ (by omega)]
    exact put_replicate m 32 (by omega) (by omega)

theorem Labelled.printed (h : Labelled lab lines m) (hm : Holds m cell)
    (hs : (lab lines.length).length ≤ 7) : lab lines.length ++ [32] <+: HexDump.printed m := by
  rw [hm.printed, List.prefix_iff_getElem?]
  intro k hk
  have hk' := hk
  rw [List.length_append, List.length_singleton] at hk'
  rw [List.getElem?_map, List.getElem?_range (by omega)]
  exact congrArg some (h.buffer k _ (List.getElem?_eq_getElem hk))

theorem Labelled.printed_rows (h : Labelled lab lines m) (hm : Holds m cell)
    (hs : (lab lines.length).length ≤ 7) {l : Nat}
    (hrow : (lines ++ [HexDump.printed m])[l]? = some row) : lab l ++ [32] <+: row := by
  rcases getElem?_concat_cases hrow with h' | ⟨rfl, rfl⟩
  · exact h.rows l row h'
  · exact h.printed hm hs

theorem Labelled.newLine {s : Dump} (h : Labelled lab lines s.buffer) (hd : Dumped done lines s)
    (hs : ∀ l, (lab l).length ≤ 7) :
    Labelled lab (lines ++ [HexDump.printed s.buffer])
      (s.newLine (lab (lines.length + 1))).buffer where
  rows l row hrow := h.printed_rows hd.buffer (hs _) hrow
  buffer := by
    rw [List.length_append, List.length_singleton]
    exact blanked_label s.buffer (hs _)

theorem Labelled.place {s : Dump} (h : Labelled lab lines s.buffer) (hs : ∀ l, (lab l).length ≤ 7)
    (b : UInt8) : Labelled lab lines (s.place b).buffer where
  rows := h.rows
  buffer k c hc := by
    have hk := (List.getElem?_eq_some_iff.mp hc).1
    have hlen := hs lines.length
    rw [List.length_append, List.length_singleton] at hk
    have hput : (s.place b).buffer k = s.buffer k := by
      rw [Dump.place]
      exact (put_of_lt _ _ (by omega)).trans (put_of_lt _ _ (by omega))
    rw [hput, h.buffer k c hc]

theorem Labelled.turn {s : Dump} (h : Labelled lab lines s.buffer) (hd : Dumped done lines s)
    (hs : ∀ l, (lab l).length ≤ 7) (hl : ∀ i, Label (label i))
    (hlab : ∀ l, label (16 * (l + 1)) = lab (l + 1)) (b : UInt8) :
    ∃ lines', Labelled lab lines' (s.turn label done.length b).buffer ∧
      Dumped (done ++ [b]) lines' (s.turn label done.length b) ∧
      0 < (s.turn label done.length b).j := by
  have hlen := hd.length
  have hle := hd.j_le
  unfold Dump.turn
  split
  · next hj =>
    have hi : label done.length = lab (lines.length + 1) := by
      rw [← hlab]
      congr 1
      omega
    refine ⟨_, ?_, (hd.newLine hj (hl _)).place (Nat.succ_pos 15) b, Nat.succ_pos _⟩
    rw [hi]
    exact (h.newLine hd hs).place hs b
  · next hj => exact ⟨lines, h.place hs b, hd.place (by omega) b, Nat.succ_pos _⟩

theorem dump_labels (lab : Nat → Bytes) (stack : Int → UInt8) (hs : ∀ l, (lab l).length ≤ 7)
    (hf : Label (lab 0)) (hl : ∀ i, Label (label i))
    (hlab : ∀ l, label (16 * (l + 1)) = lab (l + 1)) (data : Bytes) :
    ∃ lines, ((start stack (lab 0)).loop label 0 data).finish = lines.flatten ∧
      Body data lines ∧ ∀ (l : Nat) row, lines[l]? = some row → lab l ++ [32] <+: row := by
  have hstart : Labelled lab [] (start stack (lab 0)).buffer := by
    obtain ⟨m, -, -, hm⟩ := start_buffer stack (lab 0)
    refine ⟨fun l row h => (by cases h), ?_⟩
    rw [hm]
    exact blanked_label m (hs 0)
  obtain ⟨lines, h, hd, hpos⟩ := loop_keeps
    (P := fun done lines s => Labelled lab lines s.buffer ∧ Dumped done lines s ∧
      (done ≠ [] → 0 < s.j))
    (fun done lines s b h => (h.1.turn h.2.1 hs hl hlab b).imp
      fun _ h' => ⟨h'.1, h'.2.1, fun _ => h'.2.2⟩)
    ⟨hstart, start_dumped stack hf, fun hne => absurd rfl hne⟩ data
  obtain ⟨lines', hout, hbody, rfl | rfl⟩ := hd.finish hpos
  · exact ⟨_, hout, hbody, h.rows⟩
  · exact ⟨_, hout, hbody, fun l row => h.printed_rows hd.buffer (hs _)⟩

/-! Reading the bytes back from the columns. -/

def hexVal (c : UInt8) : Option Nat :=
  if 48 ≤ c ∧ c ≤ 57 then some (c.toNat - 48)
  else if 97 ≤ c ∧ c ≤ 102 then some (c.toNat - 87) else none

def readByte (row : Bytes) (c : Nat) : Option UInt8 := do
  let hi ← row[c]?.bind hexVal
  let lo ← row[c + 1]?.bind hexVal
  some (UInt8.ofNat (16 * hi + lo))

def readLine (row : Bytes) : Bytes :=
  (List.range 16).filterMap fun j => readByte row (8 + j * 3)

theorem hexVal_hexDigit (h : d < 16) : hexVal (hexDigit d) = some d := by
  interval_cases d <;> decide

theorem Shows.readByte (h : Shows row cell) (hj : j < 16) :
    readByte row (8 + j * 3) = cell j := by
  unfold HexDump.readByte
  cases hc : cell j with
  | none =>
    obtain ⟨h₁, -, -⟩ := h.blank j hj hc
    rw [h₁]
    rfl
  | some b =>
    obtain ⟨h₁, h₂, -⟩ := h.byte j b hj hc
    have hb := b.toNat_lt
    have hsum : 16 * (b.toNat / 16) + b.toNat % 16 = b.toNat := Nat.div_add_mod _ _
    rw [h₁, h₂, Option.bind_some, Option.bind_some, hexVal_hexDigit (by omega),
      hexVal_hexDigit (by omega)]
    change some (UInt8.ofNat (16 * (b.toNat / 16) + b.toNat % 16)) = some b
    rw [hsum, UInt8.ofNat_toNat]

theorem filterMap_range (xs : List α) (n : Nat) :
    (List.range n).filterMap (fun j => xs[j]?) = xs.take n := by
  induction n with
  | zero => rfl
  | succ n ih =>
    rw [List.range_succ, List.filterMap_append, ih, List.take_add_one]
    cases hx : xs[n]? <;> simp [hx]

theorem Shows.readLine {data : Bytes} (h : Shows row fun j => data[k + j]?) :
    readLine row = (data.drop k).take 16 := by
  rw [← filterMap_range]
  apply List.filterMap_congr
  intro j hj
  rw [h.readByte (List.mem_range.mp hj), List.getElem?_drop]

theorem flatMap_readLine (data : Bytes) (lines : List Bytes)
    (h : ∀ (l : Nat) row, lines[l]? = some row → Shows row fun j => data[16 * l + j]?) :
    lines.flatMap readLine = data.take (16 * lines.length) := by
  induction lines using List.reverseRecOn with
  | nil => rfl
  | append_singleton lines row ih =>
    have hrow := (h lines.length row List.getElem?_concat_length).readLine
    have hrest := ih fun l x hx => h l x (by
      rw [List.getElem?_append_left (List.getElem?_eq_some_iff.mp hx).1]
      exact hx)
    rw [List.flatMap_append, hrest, List.flatMap_singleton, hrow, List.length_append,
      List.length_singleton, Nat.mul_add, List.take_add]

theorem Body.decode (h : Body data lines) : lines.flatMap readLine = data := by
  rw [flatMap_readLine data lines h.shows]
  apply List.take_of_length_le
  have hc := h.count
  omega

/-! The labels keep to their columns. -/

theorem Plain.cons (hb : b ≠ 0 ∧ b ≠ 10) (h : Plain bs) : Plain (b :: bs) :=
  List.forall_mem_cons.mpr ⟨hb, h⟩

theorem Plain.zeroPad (width : Nat) (h : Plain bs) : Plain (zeroPad width bs) := by
  intro b hb
  rcases List.mem_append.mp hb with hb | hb
  · rw [(List.mem_replicate.mp hb).2]
    decide
  · exact h b hb

theorem plusHex04_plain (i : Nat) : Plain (plusHex04 i) := by
  have hdigits : Plain ((Nat.digits 16 i).reverse.map hexDigit) := by
    intro c hc
    obtain ⟨d, hd, rfl⟩ := List.mem_map.mp hc
    exact hexDigit_text d (Nat.digits_lt_base (by decide) (List.mem_reverse.mp hd))
  exact (hdigits.zeroPad 4).cons (by decide)

theorem digits_plain (n : Nat) : Plain (CString.digits n).bytes := by
  intro b hb
  unfold CString.digits at hb
  dsimp only at hb
  split at hb
  · rw [List.mem_singleton.mp hb]
    decide
  · obtain ⟨d, hd, rfl⟩ := List.mem_map.mp hb
    have hlt : d < 10 := Nat.digits_lt_base (by decide) (List.mem_reverse.mp hd)
    interval_cases d <;> decide

theorem plusDec06_plain (z : Int) : Plain (plusDec06 z) := by
  refine Plain.cons (by decide) ?_
  split
  · exact ((digits_plain _).zeroPad 5).cons (by decide)
  · exact (digits_plain _).zeroPad 6

theorem Plain.label (h : Plain bs) (hn : n ≤ 8) : Label (bs.take n) where
  short := (List.length_take_le n bs).trans hn
  text b hb := h b (List.mem_of_mem_take hb)

theorem dump_hex (stack : Int → UInt8) (data : Bytes) :
    ∃ lines, ((start stack [43, 48, 48, 48, 48]).loop (fun i => (plusHex04 i).take 5) 0
        data).finish = lines.flatten ∧ Body data lines ∧
      ∀ (l : Nat) row, lines[l]? = some row → (plusHex04 (16 * l)).take 5 ++ [32] <+: row := by
  have hlabel : ∀ i, Label ((plusHex04 i).take 5) := fun i => (plusHex04_plain i).label (by decide)
  have hshort : ∀ i, ((plusHex04 i).take 5).length ≤ 7 :=
    fun i => (List.length_take_le _ _).trans (by decide)
  have hfirst : [43, 48, 48, 48, 48] = (plusHex04 (16 * 0)).take 5 := by
    rw [plusHex04, Nat.mul_zero, Nat.digits_zero]
    rfl
  rw [hfirst]
  exact dump_labels (fun l => (plusHex04 (16 * l)).take 5) stack (fun l => hshort _)
    (hlabel _) hlabel (fun l => rfl) data

/-- What the label of a line of mmap_simple.c is made from. The first one does not go through
the sum. -/
def decLine (offset : Int) (l : Nat) : Int :=
  if l = 0 then offset else toInt ((16 * l : Nat) + offset)

theorem dump_dec (stack : Int → UInt8) (data : Bytes) (offset : Int) :
    ∃ lines, ((start stack (43 :: ((plusDec06 offset).drop 1).take 6)).loop
        (fun i => (plusDec06 (toInt (i + offset))).take 7) 0 data).finish = lines.flatten ∧
      Body data lines ∧ ∀ (l : Nat) row, lines[l]? = some row →
        (plusDec06 (decLine offset l)).take 7 ++ [32] <+: row := by
  have hlabel : ∀ z, Label ((plusDec06 z).take 7) := fun z => (plusDec06_plain z).label (by decide)
  have hshort : ∀ z, ((plusDec06 z).take 7).length ≤ 7 := fun z => List.length_take_le _ _
  have hfirst : 43 :: ((plusDec06 offset).drop 1).take 6 =
      (plusDec06 (decLine offset 0)).take 7 := by
    rw [decLine, if_pos rfl, plusDec06, List.take_succ_cons, List.drop_one, List.tail_cons]
  have hnext : ∀ l : Nat, decLine offset (l + 1) = toInt ((16 * (l + 1) : Nat) + offset) :=
    fun l => if_neg (Nat.succ_ne_zero l)
  rw [hfirst]
  exact dump_labels (fun l => (plusDec06 (decLine offset l)).take 7) stack
    (fun l => hshort _) (hlabel _) (fun i => hlabel _) (fun l => by rw [hnext]) data

/-- Both dumps show every byte of the data, in lines that can be read back, for every length. -/
theorem hexDump_content (stack : Int → UInt8) (data : Bytes) (caption : Option CString)
    (verbose : Bool) (address : CString) :
    (∃ lines, hexDump stack data caption verbose address =
        header caption verbose data.length address ++ ruler ++ lines.flatten ∧
      Body data lines ∧ lines.flatMap readLine = data) ∧
    ∀ offset, ∃ lines, hexDumpFrom stack data offset caption verbose address =
        header caption verbose data.length address ++ ruler ++ lines.flatten ∧
      Body data lines ∧ lines.flatMap readLine = data := by
  constructor
  · obtain ⟨lines, hout, hbody, -⟩ := dump_hex stack data
    exact ⟨lines, congrArg _ hout, hbody, hbody.decode⟩
  · intro offset
    obtain ⟨lines, hout, hbody, -⟩ := dump_dec stack data offset
    exact ⟨lines, congrArg _ hout, hbody, hbody.decode⟩

end SysPrg.HexDump
