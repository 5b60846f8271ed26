import SysPrg.Block

namespace SysPrg.ShmLines
set_option autoImplicit true

def lineLength : Nat := 132

def num : Nat := 10

/-- The bytes that `fgets` takes from its input, at most `n`, and what is left. -/
def getLine : Nat → Bytes → Bytes × Bytes
  | 0, inp => ([], inp)
  | _ + 1, [] => ([], [])
  | n + 1, b :: inp =>
    if b = 10 then ([b], inp)
    else (b :: (getLine n inp).1, (getLine n inp).2)

/-- `fgets(shm_addr, size, stdin)`: it leaves the memory alone when there is nothing to read. -/
def fgets (seg : Bytes) (addr size : Nat) (inp : Bytes) : Option (Bytes × Bytes) :=
  let (line, rest) := getLine (size - 1) inp
  if line = [] then some (seg, rest)
  else (store seg addr (line ++ [0])).map (·, rest)

/-- One turn of the writer's loop. The byte before an empty string is overwritten, too. -/
def enter (seg : Bytes) (addr : Nat) (inp : Bytes) : Option (Bytes × Nat × Bytes) := do
  let (seg, rest) ← fgets seg addr lineLength inp
  let s ← strAt seg addr
  let seg ← if addr + s.length = 0 then none else store seg (addr + s.length - 1) [0]
  let s ← strAt seg addr
  let incr := s.length + 1
  return (seg, addr + incr, rest)

def writer : Nat → Bytes → Nat → Bytes → Option Bytes
  | 0, seg, _, _ => some seg
  | n + 1, seg, addr, inp => do
    let (seg, addr, rest) ← enter seg addr inp
    writer n seg addr rest

/-- The loop of `shm1_r`, from `next` on: the strings that it prints. -/
def reader : Nat → Bytes → Nat → Option (List Bytes)
  | 0, _, _ => some []
  | n + 1, seg, next => do
    let s ← strAt seg next
    let incr := s.length + 1
    let ss ← reader n seg (next + incr)
    return s :: ss

def exchange (seg inp : Bytes) : Option (List Bytes) := do
  let seg ← writer num seg 0 inp
  reader num seg 0

/-- What the programs exchange: each time a line, or a part of one, without its last byte. -/
def strings : Nat → Bytes → List Bytes
  | 0, _ => []
  | n + 1, inp => (getLine (lineLength - 1) inp).1.dropLast ::
      strings n (getLine (lineLength - 1) inp).2

theorem strings_length (n : Nat) (inp : Bytes) : (strings n inp).length = n := by
  induction n generalizing inp with
  | zero => rfl
  | succ n ih => rw [strings, List.length_cons, ih]

theorem getLine_append (n : Nat) (inp : Bytes) : (getLine n inp).1 ++ (getLine n inp).2 = inp := by
  induction n generalizing inp with
  | zero => rfl
  | succ n ih =>
    cases inp with
    | nil => rfl
    | cons b inp =>
      rw [getLine]
      split
      · rfl
      · exact congrArg (b :: ·) (ih inp)

theorem getLine_length_le (n : Nat) (inp : Bytes) : (getLine n inp).1.length ≤ n := by
  induction n generalizing inp with
  | zero => exact Nat.le_refl 0
  | succ n ih =>
    cases inp with
    | nil => exact Nat.zero_le _
    | cons b inp =>
      rw [getLine]
      split
      · exact Nat.succ_le_succ (Nat.zero_le n)
      · exact Nat.succ_le_succ (ih inp)

theorem getLine_ne_nil (n : Nat) (h : inp ≠ []) : (getLine (n + 1) inp).1 ≠ [] := by
  cases inp with
  | nil => exact (h rfl).elim
  | cons b inp =>
    rw [getLine]
    split
    · exact List.cons_ne_nil _ _
    · exact List.cons_ne_nil _ _

theorem getLine_newlines (n : Nat) (inp : Bytes) : (getLine n inp).1.count 10 ≤ 1 := by
  induction n generalizing inp with
  | zero => exact Nat.zero_le 1
  | succ n ih =>
    cases inp with
    | nil => exact Nat.zero_le 1
    | cons b inp =>
      rw [getLine]
      split
      · next hb => rw [hb, List.count_singleton_self]
      · next hb =>
        rw [List.count_cons_of_ne hb]
        exact ih inp

theorem getLine_line (n : Nat) (hl : (10 : UInt8) ∉ l) (rest : Bytes) :
    getLine n (l ++ 10 :: rest) =
      if l.length < n then (l ++ [10], rest) else (l.take n, l.drop n ++ 10 :: rest) := by
  induction n generalizing l with
  | zero => rfl
  | succ n ih =>
    cases l with
    | nil => rfl
    | cons b l =>
      have hb : b ≠ 10 := fun h => hl (h ▸ List.mem_cons_self)
      have hl' : (10 : UInt8) ∉ l := fun h => hl (List.mem_cons_of_mem b h)
      rw [List.cons_append, getLine, if_neg hb, ih hl', List.length_cons]
      by_cases hn : l.length < n
      · rw [if_pos hn, if_pos (Nat.succ_lt_succ hn)]
        rfl
      · rw [if_neg hn, if_neg (fun h => hn (Nat.lt_of_succ_lt_succ h))]
        rfl

theorem strings_eq_lines_iff (lines : List Bytes) (h : ∀ l ∈ lines, (10 : UInt8) ∉ l)
    (rest : Bytes) :
    strings lines.length ((lines.map (· ++ [10])).flatten ++ rest) = lines ↔
      ∀ l ∈ lines, l.length ≤ lineLength - 2 := by
  induction lines with
  | nil => exact ⟨fun _ l hl => (by cases hl), fun _ => rfl⟩
  | cons l lines ih =>
    have ih := ih (fun l' hl' => h l' (List.mem_cons_of_mem l hl'))
    have hinp : ((l :: lines).map (· ++ [10])).flatten ++ rest =
        l ++ 10 :: ((lines.map (· ++ [10])).flatten ++ rest) := by
      simp only [List.map_cons, List.flatten_cons, List.append_assoc, List.cons_append,
        List.nil_append]
    rw [hinp, List.length_cons, strings, getLine_line _ (h l List.mem_cons_self),
      List.forall_mem_cons]
    by_cases hlen : l.length < lineLength - 1
    · rw [if_pos hlen, List.dropLast_concat, List.cons_inj_right, ih]
      exact ⟨fun hall => ⟨Nat.le_pred_of_lt hlen, hall⟩, fun hall => hall.2⟩
    · rw [if_neg hlen]
      constructor
      · intro heq
        have hlength := congrArg List.length (List.cons.inj heq).1
        rw [List.length_dropLast, List.length_take, Nat.min_eq_left (Nat.not_lt.1 hlen)] at hlength
        rw [← hlength] at hlen
        exact (hlen (by decide)).elim
      · intro hall
        exact (hlen (Nat.lt_of_le_of_lt hall.1 (by decide))).elim

theorem enter_line (pre tail : Bytes) (hline : getLine (lineLength - 1) inp = (s ++ [b], rest))
    (h0 : (0 : UInt8) ∉ s ++ [b]) (hroom : s.length + 2 ≤ tail.length) :
    enter (pre ++ tail) pre.length inp =
      some (pre ++ (s ++ 0 :: (0 :: tail.drop (s.length + 2))), pre.length + (s.length + 1),
        rest) := by
  have hs : (0 : UInt8) ∉ s := fun h => h0 (List.mem_append_left _ h)
  have hne : s ++ [b] ≠ [] := List.append_ne_nil_of_right_ne_nil s (List.cons_ne_nil b [])
  have hlen : (s ++ [b] ++ [0]).length = s.length + 2 := by
    rw [List.length_append, List.length_append, List.length_singleton, List.length_singleton]
  have hput : store (pre ++ tail) pre.length (s ++ [b] ++ [0]) =
      some (pre ++ (s ++ [b] ++ 0 :: tail.drop (s.length + 2))) := by
    rw [store_over pre tail (hlen ▸ hroom), hlen, List.append_assoc (s ++ [b])]
    rfl
  have hcut : store (pre ++ (s ++ [b] ++ 0 :: tail.drop (s.length + 2))) (pre.length + s.length)
      [0] = some (pre ++ (s ++ 0 :: (0 :: tail.drop (s.length + 2)))) := by
    have hcut := store_over (pre ++ s) (b :: 0 :: tail.drop (s.length + 2))
      (show [0].length ≤ _ from Nat.succ_le_succ (Nat.zero_le _))
    rw [List.length_append] at hcut
    simpa only [List.append_assoc, List.singleton_append, List.length_singleton,
      List.drop_succ_cons, List.drop_zero] using hcut
  have haddr : pre.length + (s ++ [b]).length = pre.length + s.length + 1 := by
    rw [List.length_append, List.length_singleton, Nat.add_assoc]
  simp only [enter, fgets, hline, if_neg hne, hput, Option.map_some, Option.bind_eq_bind,
    Option.bind_some, strAt_append pre h0, haddr, Nat.succ_ne_zero, if_false,
    Nat.add_sub_cancel, hcut, strAt_append pre hs]
  rfl

theorem writer_spec (n : Nat) (pre tail : Bytes) (h0 : (0 : UInt8) ∉ inp) (hn : n ≤ inp.count 10)
    (hroom : n * lineLength ≤ tail.length) :
    ∃ tail', writer n (pre ++ tail) pre.length inp =
      some (pre ++ (pack (strings n inp) ++ tail')) := by
  -- `pre` is what the turns before have packed, and a turn takes at most `lineLength` of `tail`.
  induction n generalizing pre inp tail with
  | zero => exact ⟨tail, rfl⟩
  | succ n ih =>
    have hne : (getLine (lineLength - 1) inp).1 ≠ [] := by
      apply getLine_ne_nil
      rintro rfl
      exact Nat.not_succ_le_zero n hn
    have hlen := getLine_length_le (lineLength - 1) inp
    have hcount := getLine_newlines (lineLength - 1) inp
    have happend := getLine_append (lineLength - 1) inp
    rw [strings]
    obtain ⟨line, rest, hline⟩ : ∃ line rest, getLine (lineLength - 1) inp = (line, rest) :=
      ⟨_, _, rfl⟩
    simp only [hline] at hne hlen hcount happend ⊢
    obtain ⟨s, b, hsb⟩ := (List.eq_nil_or_concat line).resolve_left hne
    rw [List.concat_eq_append] at hsb
    subst hsb happend
    rw [List.mem_append, not_or] at h0
    rw [List.count_append] at hn
    rw [List.length_append, List.length_singleton] at hlen
    simp only [lineLength] at hlen hroom
    have hturn := enter_line pre tail hline h0.1 (by omega)
    obtain ⟨tail', htail⟩ := ih (pre ++ (s ++ [0])) (0 :: tail.drop (s.length + 2)) h0.2
      (by omega) (by
        rw [List.length_cons, List.length_drop]
        simp only [lineLength]
        omega)
    refine ⟨tail', ?_⟩
    rw [writer, hturn, List.dropLast_concat, pack_cons]
    simpa only [Option.bind_eq_bind, Option.bind_some, List.append_assoc, List.length_append,
      List.cons_append, List.nil_append, List.length_singleton] using htail

theorem reader_pack (strs : List Bytes) (h : ∀ s ∈ strs, (0 : UInt8) ∉ s) (pre tail : Bytes) :
    reader strs.length (pre ++ (pack strs ++ tail)) pre.length = some strs := by
  induction strs generalizing pre with
  | nil => rfl
  | cons s strs ih =>
    have hs := h s List.mem_cons_self
    have ih := ih (fun s' hs' => h s' (List.mem_cons_of_mem s hs')) (pre ++ (s ++ [0]))
    simp only [List.append_assoc, List.length_append, List.cons_append, List.nil_append,
      List.length_singleton] at ih
    rw [List.length_cons, pack_cons]
    simp only [reader, List.append_assoc, List.cons_append, strAt_append pre hs,
      Option.bind_eq_bind, Option.bind_some, ih]
    rfl

theorem strings_no_nul (n : Nat) (h0 : (0 : UInt8) ∉ inp) :
    ∀ s ∈ strings n inp, (0 : UInt8) ∉ s := by
  induction n generalizing inp with
  | zero =>
    intro s hs
    cases hs
  | succ n ih =>
    rw [← getLine_append (lineLength - 1) inp, List.mem_append, not_or] at h0
    rw [strings, List.forall_mem_cons]
    exact ⟨fun h => h0.1 (List.dropLast_subset _ h), ih h0.2⟩

/-- What comes out, for an input with enough lines and a segment with enough room. -/
theorem exchange_eq (seg : Bytes) (h0 : (0 : UInt8) ∉ inp) (hn : num ≤ inp.count 10)
    (hroom : num * lineLength ≤ seg.length) : exchange seg inp = some (strings num inp) := by
  obtain ⟨tail, hw⟩ := writer_spec num [] seg h0 hn hroom
  have hr := reader_pack (strings num inp) (strings_no_nul num h0) [] tail
  rw [strings_length] at hr
  simp only [List.nil_append, List.length_nil] at hw hr
  simp only [exchange, hw, Option.bind_eq_bind, Option.bind_some, hr]

theorem newlines_of_lines (lines : List Bytes) (rest : Bytes) :
    lines.length ≤ ((lines.map (· ++ [10])).flatten ++ rest).count 10 := by
  induction lines with
  | nil => exact Nat.zero_le _
  | cons l lines ih =>
    simp only [List.map_cons, List.flatten_cons, List.append_assoc, List.count_append,
      List.count_singleton_self, List.length_cons] at ih ⊢
    omega

theorem no_nul_of_lines {lines : List Bytes} (h : ∀ l ∈ lines, (0 : UInt8) ∉ l)
    (hrest : (0 : UInt8) ∉ rest) : (0 : UInt8) ∉ (lines.map (· ++ [10])).flatten ++ rest := by
  rw [List.mem_append, not_or]
  refine ⟨?_, hrest⟩
  intro hmem
  obtain ⟨l', hl', h0⟩ := List.mem_flatten.1 hmem
  obtain ⟨l, hl, rfl⟩ := List.mem_map.1 hl'
  rcases List.mem_append.1 h0 with h0 | h0
  · exact h l hl h0
  · cases List.mem_singleton.1 h0

theorem exchange_lines_iff (seg : Bytes) (lines : List Bytes) (rest : Bytes)
    (hlines : lines.length = num) (hline : ∀ l ∈ lines, (10 : UInt8) ∉ l ∧ (0 : UInt8) ∉ l)
    (hrest : (0 : UInt8) ∉ rest) (hroom : num * lineLength ≤ seg.length) :
    exchange seg ((lines.map (· ++ [10])).flatten ++ rest) = some lines ↔
      ∀ l ∈ lines, l.length ≤ lineLength - 2 := by
  rw [exchange_eq seg (no_nul_of_lines (fun l hl => (hline l hl).2) hrest)
    (hlines ▸ newlines_of_lines lines rest) hroom, ← hlines, Option.some_inj]
  exact strings_eq_lines_iff lines (fun l hl => (hline l hl).1) rest

theorem exchange_short_lines :
    exchange (List.replicate 2048 0)
      (((List.replicate 10 [97, 98]).map (· ++ [10])).flatten ++ [99, 10]) =
      some (List.replicate 10 [97, 98]) :=
  (exchange_lines_iff (List.replicate 2048 0) (List.replicate 10 [97, 98]) [99, 10] rfl
    (by decide) (by decide) (by rw [List.length_replicate]; decide)).2 (by decide)

/-- A first line of 131 bytes comes out as its first 130 and an empty string, and the tenth line
does not come out. -/
theorem exchange_long_line :
    exchange (List.replicate 2048 0)
      (((List.replicate 131 97 :: List.replicate 9 [98]).map (· ++ [10])).flatten) =
      some (List.replicate 130 97 :: [] :: List.replicate 8 [98]) := by
  decide +kernel

end SysPrg.ShmLines
