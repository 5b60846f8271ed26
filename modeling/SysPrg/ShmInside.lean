import SysPrg.Strtol
import SysPrg.ShmTurn

namespace SysPrg.ShmLines
set_option autoImplicit true

/-- `SHMSZ_OUR_MAX`. -/
def shmszOurMax : UInt64 := 100 * 1024 * 1024

/-- The size that `shm1_w` makes of its argument, if it accepts it. -/
def shmsz (arg : Bytes) : Option UInt64 :=
  let shmsz := (strtoul 0 arg).val * 1024
  if shmsz ≤ 0 ∨ shmsz > shmszOurMax then none else some shmsz

/-- The number that the argument denotes; it is zero when there are no digits. -/
def number (arg : Bytes) : Int := (written 0 arg).getD 0

/-- What is known to be in memory from the position on, after a line was entered there. -/
def overlay (known line : Bytes) : Bytes :=
  if line = [] then known else line ++ 0 :: known.drop (line.length + 1)

/-- How far a turn moves the position. The last character is cut off, if there is one. -/
def hop (known : Bytes) : Nat := max (cStr known).length 1

/-- The next `n` turns find strings that are known to be in the `room` left of the segment. -/
def Kept : Nat → Nat → Bytes → Bytes → Prop
  | 0, _, _, _ => True
  | n + 1, room, known, inp =>
    let (line, rest) := getLine (lineLength - 1) inp
    let known := overlay known line
    0 ∈ known ∧ known.length ≤ room ∧ Kept n (room - hop known) (known.drop (hop known)) rest

instance Kept.decidable : (n room : Nat) → (known inp : Bytes) → Decidable (Kept n room known inp)
  | 0, _, _, _ => isTrue trivial
  | n + 1, _, _, _ =>
    have := Kept.decidable n
    inferInstanceAs (Decidable (_ ∧ _ ∧ _))

theorem overlay_length (known : Bytes) (h : line ≠ []) :
    (overlay known line).length = max (line.length + 1) known.length := by
  rw [overlay, if_neg h, List.length_append, List.length_cons, List.length_drop]
  omega

theorem Holds.overlay (h : Holds m₀ m addr known) (line : Bytes) :
    Holds m₀ (if line = [] then m else put m addr (line ++ [0])) addr (overlay known line) := by
  by_cases hline : line = []
  · rw [if_pos hline, ShmLines.overlay, if_pos hline]
    exact h
  · have hlen := overlay_length known hline
    have hput : (line ++ [0]).length = line.length + 1 := List.length_append
    rw [if_neg hline]
    constructor
    · intro k x hx
      rw [ShmLines.overlay, if_neg hline, List.append_cons] at hx
      by_cases hk : k < line.length + 1
      · rw [List.getElem?_append_left (hput ▸ hk)] at hx
        exact put_get m addr hx
      · rw [List.getElem?_append_right (by omega), List.getElem?_drop, hput] at hx
        rw [put_of_ge _ _ (by omega)]
        refine h.entered k x ?_
        rw [← hx]
        congr 1
        omega
    · intro i hi
      rw [hlen] at hi
      rw [put_of_ge _ _ (by omega)]
      exact h.behind i (by omega)

theorem Holds.next (h : Holds m₀ m addr known) {n k : Nat} (hn : n ≤ k) (hk : k ≤ known.length) :
    Holds m₀ (Function.update m (addr + n - 1) 0) (addr + k) (known.drop k) := by
  constructor
  · intro j x hx
    rw [List.getElem?_drop] at hx
    rw [Function.update_of_ne (by omega), ← h.entered (k + j) x hx]
    congr 1
    omega
  · intro i hi
    rw [List.length_drop] at hi
    rw [Function.update_of_ne (by omega)]
    exact h.behind i (by omega)

theorem cStr_length_lt (h : (0 : UInt8) ∈ bs) : (cStr bs).length < bs.length := by
  obtain ⟨tail, hs⟩ := cStr_split h
  have hlen := congrArg List.length hs
  rw [List.length_append, List.length_cons] at hlen
  omega

theorem hop_range (h : (0 : UInt8) ∈ bs) : 0 < hop bs ∧ hop bs ≤ bs.length := by
  have hlen := cStr_length_lt h
  rw [hop]
  omega

theorem turn_eq (h : Holds m₀ m addr known) (hline : getLine (lineLength - 1) inp = (line, rest))
    (h0 : 0 ∈ overlay known line) (hroom : addr + (overlay known line).length ≤ size)
    (hmax : size < 2 ^ 31) (htop : (size : Int) ≤ top) :
    ∃ m', turn top m addr inp =
        (entered addr line ++ [(addr + (cStr (overlay known line)).length - 1 : Int)],
          some (m', ((addr + hop (overlay known line) : Nat) : Int), rest)) ∧
      Holds m₀ m' (addr + hop (overlay known line))
        ((overlay known line).drop (hop (overlay known line))) := by
  have hlen := cStr_length_lt h0
  have hns := zero_notMem_cStr (overlay known line)
  obtain ⟨tail, hs⟩ := cStr_split h0
  have hover : Holds m₀ (if line = [] then m else put m addr (line ++ [0])) addr
      (cStr (overlay known line) ++ 0 :: tail) := by
    rw [← hs]
    exact h.overlay line
  have hroom' : (cStr (overlay known line)).length < (top - addr).toNat := by omega
  have hhop : (addr : Int) + toInt (((cStr (overlay known line)).length - 1 : Nat) + 1) =
      (addr + hop (overlay known line) : Nat) := by
    rw [← Int.natCast_succ, toInt_of_lt (by omega), hop]
    omega
  refine ⟨_, ?_, (h.overlay line).next (Nat.le_max_left _ 1) (hop_range h0).2⟩
  simp only [turn, hline, hover.strlen hns hroom', hover.strlen_cut hns hroom', Option.map_some,
    hhop]
  rfl

theorem kept_succ (hline : getLine (lineLength - 1) inp = (line, rest)) :
    Kept (n + 1) room known inp ↔ 0 ∈ overlay known line ∧ (overlay known line).length ≤ room ∧
      Kept n (room - hop (overlay known line))
        ((overlay known line).drop (hop (overlay known line))) rest := by
  simp only [Kept, hline]

theorem line_length_lt (h : 0 ∈ overlay known line) :
    line.length < (overlay known line).length := by
  by_cases hline : line = []
  · have hpos := List.length_pos_of_mem h
    rw [hline] at hpos ⊢
    exact hpos
  · rw [overlay_length known hline]
    omega

theorem writes_inside {addr room size : Nat} (hkept : Kept n room known inp)
    (h : Holds m₀ m addr known) (hsize : addr + room = size) (hmax : size < 2 ^ 31)
    (htop : (size : Int) ≤ top)
    (hfirst : 0 < addr ∨ cStr (overlay known (getLine (lineLength - 1) inp).1) ≠ []) :
    ∀ a ∈ writes top n m addr inp, 0 ≤ a ∧ a < size := by
  induction n generalizing room known inp m addr with
  | zero =>
    intro a ha
    cases ha
  | succ n ih =>
    obtain ⟨line, rest, hline⟩ : ∃ line rest, getLine (lineLength - 1) inp = (line, rest) :=
      ⟨_, _, rfl⟩
    obtain ⟨h0, hroom, hrest⟩ := (kept_succ hline).1 hkept
    have hlen := line_length_lt h0
    have hslen := cStr_length_lt h0
    have hhop := hop_range h0
    obtain ⟨m', hturn, hnext⟩ := turn_eq h hline h0 (by omega) hmax htop
    rw [hline, ← List.length_pos_iff] at hfirst
    dsimp only at hfirst
    intro a ha
    rw [writes, hturn] at ha
    rcases List.mem_append.1 ha with ha | ha
    · rcases List.mem_append.1 ha with ha | ha
      · have hrange := mem_entered ha
        omega
      · rw [List.mem_singleton.1 ha]
        omega
    · exact ih hrest hnext (by omega) (.inl (by omega)) a ha

def unended (size : Nat) (i : Int) : UInt8 := if i < size + 1 then 1 else 0

theorem Holds.strlen_unended {addr size : Nat} (h : Holds (unended size) m addr known)
    (h0 : (0 : UInt8) ∉ known) (hroom : addr + known.length ≤ size) :
    SysPrg.strlen m addr ((size : Int) + 2 - addr).toNat = some (size + 1 - addr) := by
  apply strlen_eq
  · intro k hk
    by_cases hlen : k < known.length
    · have hget := h.entered k _ (List.getElem?_eq_getElem hlen)
      rw [hget]
      intro hzero
      exact h0 (hzero ▸ List.getElem_mem hlen)
    · have hone : unended size (addr + k) = 1 := if_pos (by omega)
      rw [h.behind _ (by omega), hone]
      decide
  · have hnul : unended size (addr + (size + 1 - addr : Nat)) = 0 := if_neg (by omega)
    rw [h.behind _ (by omega), hnul]
  · omega

theorem writes_outside {addr room size : Nat} (hkept : ¬ Kept n room known inp)
    (h : Holds (unended size) m addr known) (hsize : addr + room = size)
    (hknown : known.length ≤ room) (hmax : size < 2 ^ 31) :
    ∃ a ∈ writes (size + 2) n m addr inp, ¬ (0 ≤ a ∧ a < size) := by
  induction n generalizing room known inp m addr with
  | zero => exact (hkept trivial).elim
  | succ n ih =>
    obtain ⟨line, rest, hline⟩ : ∃ line rest, getLine (lineLength - 1) inp = (line, rest) :=
      ⟨_, _, rfl⟩
    rw [kept_succ hline] at hkept
    by_cases hroom : (overlay known line).length ≤ room
    · by_cases h0 : 0 ∈ overlay known line
      · have hhop := hop_range h0
        have htop : (size : Int) ≤ size + 2 := by omega
        obtain ⟨m', hturn, hnext⟩ := turn_eq h hline h0 (by omega) hmax htop
        have hrest := fun hrest => hkept ⟨h0, hroom, hrest⟩
        obtain ⟨a, ha, hout⟩ := ih hrest hnext (by omega) (by rw [List.length_drop]; omega)
        refine ⟨a, ?_, hout⟩
        rw [writes, hturn]
        exact List.mem_append_right _ ha
      · -- no terminator is known of, so that the one behind the segment is found
        have hn := (h.overlay line).strlen_unended h0 (by omega)
        refine ⟨_, List.mem_append_left _ (cut_mem_turn hline hn), ?_⟩
        omega
    · -- the line itself, or its terminator, does not fit
      have hne : line ≠ [] := by
        rintro rfl
        exact hroom hknown
      have hlen := overlay_length known hne
      have hlast : (addr : Int) + line.length ∈ entered addr line := by
        rw [entered, if_neg hne]
        exact List.mem_map.2 ⟨line.length, List.mem_range.2 (Nat.lt_succ_self _), rfl⟩
      refine ⟨_, List.mem_append_left _ (entered_subset_turn _ m addr hline hlast), ?_⟩
      omega

theorem shmsz_range (h : shmsz arg = some size) :
    size = (strtoul 0 arg).val * 1024 ∧ 0 < size.toNat ∧ size.toNat ≤ 100 * 1024 * 1024 := by
  unfold shmsz at h
  dsimp only at h
  split at h
  · cases h
  · next hno =>
    cases h
    rw [not_or, UInt64.not_le, UInt64.not_lt] at hno
    exact ⟨rfl, UInt64.lt_iff_toNat_lt.1 hno.1, UInt64.le_iff_toNat_le.1 hno.2⟩

theorem shmsz_exact_iff (h : shmsz arg = some size) :
    (size.toNat : Int) = 1024 * number arg ↔
      0 ≤ number arg ∧ 1024 * number arg < 2 ^ 64 := by
  obtain ⟨hval, hpos, hle⟩ := shmsz_range h
  have hsize := congrArg UInt64.toNat hval
  have h1024 : (1024 : UInt64).toNat = 1024 := rfl
  rw [UInt64.toNat_mul, h1024] at hsize
  constructor
  · intro heq
    omega
  · rintro ⟨hnonneg, hlt⟩
    cases hs : scan 0 arg with
    | none =>
      have hzero : (strtoul 0 arg).val.toNat = 0 := by
        simp only [strtoul, hs]
        rfl
      omega
    | some n =>
      have hnumber : number arg = n.value := by
        simp only [number, written, hs, Option.map_some, Option.getD_some]
      have hexact := strtoul_exact hs (by omega) (by omega)
      omega

theorem cStr_ne_nil_iff (bs : Bytes) : cStr bs ≠ [] ↔ ∃ b rest, bs = b :: rest ∧ b ≠ 0 := by
  cases bs with
  | nil =>
    constructor
    · intro h
      exact (h rfl).elim
    · rintro ⟨b, rest, heq, -⟩
      cases heq
  | cons b rest =>
    by_cases hb : b = 0
    · subst hb
      constructor
      · intro h
        exact (h rfl).elim
      · rintro ⟨b', rest', heq, hne⟩
        cases heq
        exact (hne rfl).elim
    · rw [cStr, List.takeWhile_cons_of_pos (p := fun x => decide (x ≠ 0)) (decide_eq_true hb)]
      exact ⟨fun _ => ⟨b, rest, rfl, hb⟩, fun _ => List.cons_ne_nil _ _⟩

theorem getLine_nil (n : Nat) : getLine n [] = ([], []) := by
  cases n with
  | zero => rfl
  | succ n => rfl

/-- The first string has a character if the input begins with one, or the segment does when there is
no input. -/
theorem cStr_first_iff (seg inp : Bytes) :
    cStr (overlay seg (getLine (lineLength - 1) inp).1) ≠ [] ↔
      ∃ b rest, inp ++ seg = b :: rest ∧ b ≠ 0 := by
  cases inp with
  | nil => rw [getLine_nil, overlay, if_pos rfl, cStr_ne_nil_iff, List.nil_append]
  | cons b rest =>
    obtain ⟨line, hline⟩ : ∃ line, (getLine (lineLength - 1) (b :: rest)).1 = b :: line := by
      change ∃ line, (getLine (130 + 1) (b :: rest)).1 = b :: line
      rw [getLine]
      split
      · exact ⟨[], rfl⟩
      · exact ⟨_, rfl⟩
    rw [hline, overlay, if_neg (List.cons_ne_nil _ _), cStr_ne_nil_iff]
    constructor
    · rintro ⟨b', rest', heq, hb⟩
      cases heq
      exact ⟨b, _, rfl, hb⟩
    · rintro ⟨b', rest', heq, hb⟩
      cases heq
      exact ⟨b, _, rfl, hb⟩

theorem put_holds (m : Int → UInt8) (seg : Bytes) : Holds m (put m 0 seg) 0 seg := by
  refine ⟨fun k x hx => ?_, fun i hi => put_of_ge _ _ hi⟩
  rw [Int.natCast_zero, Int.zero_add]
  exact put_begins m seg k x hx

theorem writes_before {size : Nat} (h : Holds m₀ m 0 seg) (hmax : size < 2 ^ 31)
    (hkept : Kept (n + 1) size seg inp)
    (hempty : cStr (overlay seg (getLine (lineLength - 1) inp).1) = []) :
    (-1 : Int) ∈ writes size (n + 1) m 0 inp := by
  obtain ⟨line, rest, hline⟩ : ∃ line rest, getLine (lineLength - 1) inp = (line, rest) :=
    ⟨_, _, rfl⟩
  obtain ⟨h0, hroom, -⟩ := (kept_succ hline).1 hkept
  obtain ⟨m', hturn, -⟩ := turn_eq h hline h0 (by omega) hmax (Int.le_refl _)
  rw [hline] at hempty
  rw [writes]
  change _ ∈ (turn size m (0 : Nat) inp).1 ++ _
  rw [hturn, hempty]
  exact List.mem_append_left _ (List.mem_append_right _ List.mem_cons_self)

/-- `shm1_w` creates a segment of the size it was asked for and stays in it if the size does not
overflow, the first string has a character, and every turn finds a string in the segment. The
strings are made of what is entered and of what the segment is known to begin with: the zeros of a
new one, or nothing if it may hold anything. -/
theorem shm1_w_inside_iff (arg seg inp : Bytes) (h : shmsz arg = some size)
    (hseg : seg.length ≤ size.toNat) :
    ((size.toNat : Int) = 1024 * number arg ∧
      ∀ (m : Int → UInt8) (top : Int), Begins m seg → size.toNat ≤ top →
        ∀ a ∈ writes top num m 0 inp, 0 ≤ a ∧ a < size.toNat) ↔
    (0 ≤ number arg ∧ 1024 * number arg < 2 ^ 64) ∧ (∃ b rest, inp ++ seg = b :: rest ∧ b ≠ 0) ∧
      Kept num size.toNat seg inp := by
  have hmax : size.toNat < 2 ^ 31 := Nat.lt_of_le_of_lt (shmsz_range h).2.2 (by decide)
  rw [shmsz_exact_iff h, ← cStr_first_iff]
  refine and_congr_right fun _ => ?_
  constructor
  · intro hinside
    have hbegins := put_begins (unended size.toNat) seg
    have hholds := put_holds (unended size.toNat) seg
    have hkept : Kept num size.toNat seg inp := by
      by_contra hkept
      obtain ⟨a, ha, hout⟩ := writes_outside hkept hholds (Nat.zero_add _) hseg hmax
      exact hout (hinside _ _ hbegins (by omega) a ha)
    refine ⟨fun hempty => ?_, hkept⟩
    have hbefore := writes_before hholds hmax hkept hempty
    exact absurd (hinside _ _ hbegins (Int.le_refl _) _ hbefore).1 (by decide)
  · rintro ⟨hfirst, hkept⟩ m top hbegins htop
    exact writes_inside hkept (begins_holds hbegins 0) (Nat.zero_add _) hmax htop (.inr hfirst)

def pieces : Nat → Bytes → List Bytes
  | 0, _ => []
  | n + 1, inp => (getLine (lineLength - 1) inp).1 :: pieces n (getLine (lineLength - 1) inp).2

theorem overlay_text (h : known.length ≤ 1) (hne : line ≠ []) :
    overlay known line = line ++ [0] := by
  rw [overlay, if_neg hne, List.drop_of_length_le (by omega)]

theorem kept_line (hline : getLine (lineLength - 1) inp = (line, rest)) (hne : line ≠ [])
    (h0 : (0 : UInt8) ∉ line) (hknown : known.length ≤ 1) :
    Kept (n + 1) room known inp ↔ line.length < room ∧ Kept n (room - line.length) [0] rest := by
  have hpos := List.length_pos_iff.2 hne
  have hhop : hop (line ++ [0]) = line.length := by
    rw [hop, cStr_append h0]
    omega
  rw [kept_succ hline, overlay_text hknown hne, hhop, List.drop_left, List.length_append]
  exact ⟨fun h => h.2, fun h => ⟨List.mem_append_right _ List.mem_cons_self, h⟩⟩

theorem pieces_nil (n : Nat) : pieces n [] = List.replicate n [] := by
  induction n with
  | zero => rfl
  | succ n ih => rw [pieces, getLine_nil, ih, List.replicate_succ]

theorem kept_end (n room : Nat) : Kept (n + 1) room [0] [] ↔ n = 0 ∧ 0 < room := by
  rw [kept_succ (getLine_nil _)]
  cases n with
  | zero => exact ⟨fun h => ⟨rfl, h.2.1⟩, fun h => ⟨List.mem_cons_self, h.2, trivial⟩⟩
  | succ n =>
    constructor
    · rintro ⟨-, -, hrest⟩
      exact absurd ((kept_succ (getLine_nil _)).1 hrest).1 List.not_mem_nil
    · rintro ⟨h, -⟩
      cases h

theorem getLine_text (hinp : inp ≠ []) (h0 : (0 : UInt8) ∉ inp) :
    ∃ line rest, getLine (lineLength - 1) inp = (line, rest) ∧ line ≠ [] ∧ (0 : UInt8) ∉ line ∧
      (0 : UInt8) ∉ rest := by
  have hne := getLine_ne_nil (lineLength - 2) hinp
  rw [← getLine_append (lineLength - 1) inp, List.mem_append, not_or] at h0
  exact ⟨_, _, rfl, hne, h0⟩

theorem kept_text (n room : Nat) (h0 : (0 : UInt8) ∉ inp) :
    Kept (n + 1) room [0] inp ↔
      (∀ line ∈ pieces n inp, line ≠ []) ∧ (pieces (n + 1) inp).flatten.length < room := by
  have hone : ([0] : Bytes).length ≤ 1 := Nat.le_refl 1
  induction n generalizing room inp with
  | zero =>
    by_cases hinp : inp = []
    · subst hinp
      rw [kept_end, pieces_nil, pieces_nil]
      exact ⟨fun h => ⟨fun line hl => (by cases hl), h.2⟩, fun h => ⟨rfl, h.2⟩⟩
    · obtain ⟨line, rest, hline, hne, hline0, -⟩ := getLine_text hinp h0
      have hflat : (pieces 1 inp).flatten = line := by
        simp only [pieces, hline, List.flatten_cons, List.flatten_nil, List.append_nil]
      rw [kept_line hline hne hline0 hone, hflat]
      exact ⟨fun h => ⟨fun line hl => (by cases hl), h.1⟩, fun h => ⟨h.2, trivial⟩⟩
  | succ n ih =>
    by_cases hinp : inp = []
    · subst hinp
      rw [kept_end, pieces_nil]
      constructor
      · rintro ⟨h, -⟩
        cases h
      · rintro ⟨h, -⟩
        exact (h [] List.mem_cons_self rfl).elim
    · obtain ⟨line, rest, hline, hne, hline0, hrest0⟩ := getLine_text hinp h0
      have hpieces (k : Nat) : pieces (k + 1) inp = line :: pieces k rest := by
        rw [pieces, hline]
      have hrest := ih (room - line.length) hrest0
      rw [kept_line hline hne hline0 hone, hpieces, hpieces, List.flatten_cons, List.length_append,
        List.forall_mem_cons]
      constructor
      · rintro ⟨-, hkept⟩
        obtain ⟨hlines, hlen⟩ := hrest.1 hkept
        exact ⟨⟨hne, hlines⟩, by omega⟩
      · rintro ⟨⟨-, hlines⟩, hlen⟩
        exact ⟨by omega, hrest.2 ⟨hlines, by omega⟩⟩

/-- Text stays in the segment when nine turns have something to read and all of it fits. -/
theorem kept_text_iff (size : Nat) (hinp : inp ≠ []) (h0 : (0 : UInt8) ∉ inp) :
    Kept num size [] inp ↔
      (∀ line ∈ pieces (num - 1) inp, line ≠ []) ∧ (pieces num inp).flatten.length < size := by
  obtain ⟨line, rest, hline, hne, hline0, -⟩ := getLine_text hinp h0
  have hnone : ([] : Bytes).length ≤ 1 := Nat.zero_le 1
  have hone : ([0] : Bytes).length ≤ 1 := Nat.le_refl 1
  have hstart : Kept num size [] inp ↔ Kept num size [0] inp :=
    (kept_line hline hne hline0 hnone).trans (kept_line hline hne hline0 hone).symm
  exact hstart.trans (kept_text (num - 1) size h0)

/-- Ten lines of two letters in a segment of two kilobytes. -/
theorem shm1_w_inside_lines :
    shmsz [50] = some 2048 ∧
    ∀ a ∈ writes 4096 num (fun _ => 7) 0 (List.replicate 10 [97, 98, 10]).flatten,
      0 ≤ a ∧ a < 2048 := by
  have hsize : shmsz [50] = some 2048 := by decide
  have hinside := (shm1_w_inside_iff [50] [] (List.replicate 10 [97, 98, 10]).flatten hsize
    (Nat.zero_le _)).2 ⟨by decide, ⟨97, _, rfl, by decide⟩, by decide⟩
  exact ⟨hsize, hinside.2 (fun _ => 7) 4096 (put_begins _ []) (by decide)⟩

/-- A size that overflows is accepted, and so is an input that ends early: on a new segment the byte
before it is written to. Lines that are not too long need not fit in one kilobyte. -/
theorem shm1_w_leaves_segment :
    (shmsz (CString.lit "18014398509481985" (by decide)).bytes = some 1024 ∧
      number (CString.lit "18014398509481985" (by decide)).bytes = 18014398509481985) ∧
    shmsz (CString.lit "1" (by decide)).bytes = some 1024 ∧
    (-1 : Int) ∈ writes 4096 num (fun _ => 0) 0 [] ∧
    ∃ a ∈ writes 1026 num (unended 1024) 0 (List.replicate 1024 97), ¬ (0 ≤ a ∧ a < 1024) := by
  have hkept : ¬ Kept num 1024 [] (List.replicate 1024 97) := by decide +kernel
  have houtside := writes_outside hkept (put_holds (unended 1024) []) (Nat.zero_add _)
    (Nat.zero_le _) (by decide)
  exact ⟨⟨by decide, by decide⟩, by decide, by decide, houtside⟩

end SysPrg.ShmLines
