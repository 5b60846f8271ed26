import SysPrg.Memory

namespace SysPrg.GetLine
set_option autoImplicit true

/-- A finished call of `get_line`: what it returns, the buffer, and what is unread. -/
structure Call where
  ret : Nat
  buf : Int → UInt8
  sock : Bytes

/-- The loop of `get_line`, with `i` bytes stored and `c` the last one seen. -/
def loop (size : Nat) (sock : Bytes) (i : Nat) (c : UInt8) (buf : Int → UInt8) : Call :=
  if i < size - 1 ∧ c ≠ 10 then
    match sock with
    -- the end of the stream: the buffer is not terminated
    | [] => ⟨0, buf, []⟩
    | b :: sock =>
      if b = 13 then
        -- the byte behind a carriage return is only looked at, unless it is a newline, but it is
        -- in `c` then
        match sock with
        | [] => loop size [] i b buf
        | d :: rest => if d = 10 then loop size rest i d buf else loop size (d :: rest) i d buf
      else loop size sock (i + 1) b (Function.update buf i b)
  else ⟨i, Function.update buf i 0, sock⟩
termination_by sock.length
decreasing_by
  · exact Nat.succ_pos _
  · exact Nat.lt_succ_of_lt (Nat.lt_succ_self _)
  · exact Nat.lt_succ_self _
  · exact Nat.lt_succ_self _

def getLine (sock : Bytes) (buf : Int → UInt8) (size : Nat) : Call := loop size sock 0 0 buf

/-- The bytes of a line that are stored: no carriage return, but the newline when there is none in
front of it. -/
def stored (raw : Bytes) : Bytes :=
  raw.filter (· ≠ 13) ++ if raw.getLast? = some 13 then [] else [10]

theorem loop_stop (h : ¬ (i < size - 1 ∧ c ≠ 10)) (sock : Bytes) (buf : Int → UInt8) :
    loop size sock i c buf = ⟨i, Function.update buf i 0, sock⟩ := by
  rw [loop.eq_def, if_neg h]

section
variable {size i : Nat} {c : UInt8} (h : i < size - 1 ∧ c ≠ 10)
include h

theorem loop_end (buf : Int → UInt8) : loop size [] i c buf = ⟨0, buf, []⟩ := by
  rw [loop.eq_def, if_pos h]

theorem loop_byte (hb : b ≠ 13) (sock : Bytes) (buf : Int → UInt8) :
    loop size (b :: sock) i c buf = loop size sock (i + 1) b (Function.update buf i b) := by
  rw [loop.eq_def, if_pos h]
  exact if_neg hb

theorem loop_cr_end (buf : Int → UInt8) : loop size [13] i c buf = loop size [] i 13 buf := by
  rw [loop.eq_def, if_pos h]
  exact if_pos rfl

theorem loop_crlf (rest : Bytes) (buf : Int → UInt8) :
    loop size (13 :: 10 :: rest) i c buf = loop size rest i 10 buf := by
  rw [loop.eq_def, if_pos h]
  exact (if_pos rfl).trans (if_pos rfl)

theorem loop_cr (hd : d ≠ 10) (rest : Bytes) (buf : Int → UInt8) :
    loop size (13 :: d :: rest) i c buf = loop size (d :: rest) i d buf := by
  rw [loop.eq_def, if_pos h]
  exact (if_pos rfl).trans (if_neg hd)

end

theorem stored_cr (d : UInt8) (raw : Bytes) : stored (13 :: d :: raw) = stored (d :: raw) := by
  rw [stored, stored, List.getLast?_cons_cons]
  rfl

theorem stored_byte (hb : b ≠ 13) (raw : Bytes) : stored (b :: raw) = b :: stored raw := by
  have hfilter : (b :: raw).filter (· ≠ 13) = b :: raw.filter (· ≠ 13) :=
    List.filter_cons_of_pos (decide_eq_true hb)
  cases raw with
  | nil =>
    have hlast : [b].getLast? ≠ some 13 := fun h => hb (Option.some.inj h)
    rw [stored, hfilter, if_neg hlast]
    rfl
  | cons d raw =>
    rw [stored, stored, hfilter, List.getLast?_cons_cons]
    rfl

theorem loop_line (raw rest : Bytes) (i : Nat) (c : UInt8) (buf : Int → UInt8)
    (hraw : (10 : UInt8) ∉ raw) (hc : c ≠ 10)
    (hlen : i + (raw.filter (· ≠ 13)).length < size - 1) :
    loop size (raw ++ 10 :: rest) i c buf =
      ⟨i + (stored raw).length, put buf i (stored raw ++ [0]), rest⟩ := by
  induction raw generalizing i c buf with
  | nil =>
    have hgo : i < size - 1 ∧ c ≠ 10 := ⟨by omega, hc⟩
    rw [List.nil_append, loop_byte hgo (by decide), loop_stop fun h => h.2 rfl]
    rfl
  | cons b raw ih =>
    have hgo : i < size - 1 ∧ c ≠ 10 := ⟨by omega, hc⟩
    have hraw' : (10 : UInt8) ∉ raw := List.not_mem_of_not_mem_cons hraw
    have hb10 : b ≠ 10 := (List.ne_of_not_mem_cons hraw).symm
    by_cases hb : b = 13
    · subst hb
      cases raw with
      | nil =>
        rw [List.cons_append, List.nil_append, loop_crlf hgo, loop_stop fun h => h.2 rfl]
        rfl
      | cons d raw =>
        have hd : d ≠ 10 := (List.ne_of_not_mem_cons hraw').symm
        rw [stored_cr, List.cons_append, List.cons_append, loop_cr hgo hd]
        exact ih i d buf hraw' hd hlen
    · have hfilter : (b :: raw).filter (· ≠ 13) = b :: raw.filter (· ≠ 13) :=
        List.filter_cons_of_pos (decide_eq_true hb)
      rw [hfilter, List.length_cons] at hlen
      have hrest := ih (i + 1) b (Function.update buf i b) hraw' hb10 (by omega)
      rw [stored_byte hb, List.cons_append, loop_byte hgo hb, hrest, List.length_cons,
        List.cons_append, put]
      have hi : i + 1 + (stored raw).length = i + ((stored raw).length + 1) := by omega
      rw [hi]
      rfl

theorem loop_rest (raw : Bytes) (i : Nat) (c : UInt8) (buf : Int → UInt8)
    (hraw : (10 : UInt8) ∉ raw) (hc : c ≠ 10) (hlen : i + raw.length < size - 1) :
    (loop size raw i c buf).ret = 0 ∧ (loop size raw i c buf).sock = [] := by
  induction raw generalizing i c buf with
  | nil =>
    rw [loop_end ⟨by omega, hc⟩]
    exact ⟨rfl, rfl⟩
  | cons b raw ih =>
    rw [List.length_cons] at hlen
    have hgo : i < size - 1 ∧ c ≠ 10 := ⟨by omega, hc⟩
    have hraw' : (10 : UInt8) ∉ raw := List.not_mem_of_not_mem_cons hraw
    by_cases hb : b = 13
    · subst hb
      cases raw with
      | nil =>
        rw [loop_cr_end hgo]
        exact ih i 13 buf hraw' (by decide) (by omega)
      | cons d raw =>
        have hd : d ≠ 10 := (List.ne_of_not_mem_cons hraw').symm
        rw [loop_cr hgo hd]
        exact ih i d buf hraw' hd (by omega)
    · rw [loop_byte hgo hb]
      exact ih (i + 1) b _ hraw' (List.ne_of_not_mem_cons hraw).symm (by omega)

/-- A line of a stream, without its terminator, and whether that is CR LF. -/
structure Line where
  text : Bytes
  crlf : Bool
  deriving DecidableEq, Repr

def Line.ofRaw (raw : Bytes) : Line :=
  if raw.getLast? = some 13 then ⟨raw.dropLast, true⟩ else ⟨raw, false⟩

def lines (stream : Bytes) : List Line := (stream.splitOn 10).dropLast.map Line.ofRaw

/-- Calls one after the other return the lines, and the next one nothing at the end of the stream
(where what comes without a newline is longer than the buffer, that is not said). -/
def Returns (size : Nat) : List Line → Bytes → (Int → UInt8) → Prop
  | [], sock, buf => sock.length < size - 1 →
    (getLine sock buf size).ret = 0 ∧ (getLine sock buf size).sock = []
  | line :: ls, sock, buf =>
    (getLine sock buf size).ret = line.text.length ∧
      Begins (getLine sock buf size).buf (line.text ++ [0]) ∧
      Returns size ls (getLine sock buf size).sock (getLine sock buf size).buf

theorem begins_put_iff (m : Int → UInt8) (hlen : xs.length = ys.length) :
    Begins (put m 0 (xs ++ [0])) (ys ++ [0]) ↔ xs = ys := by
  have hput := put_begins m (xs ++ [0])
  constructor
  · intro h
    apply List.ext_getElem hlen
    intro k hk hk'
    have hx := hput k xs[k] (by rw [List.getElem?_append_left hk, List.getElem?_eq_getElem hk])
    have hy := h k ys[k] (by rw [List.getElem?_append_left hk', List.getElem?_eq_getElem hk'])
    exact hx.symm.trans hy
  · rintro rfl
    exact hput

theorem stored_eq_text_iff (h : (10 : UInt8) ∉ raw) : stored raw = (Line.ofRaw raw).text ↔
    (Line.ofRaw raw).crlf = true ∧ (13 : UInt8) ∉ (Line.ofRaw raw).text := by
  unfold stored Line.ofRaw
  split
  · next hlast =>
    obtain ⟨init, rfl⟩ := List.getLast?_eq_some_iff.mp hlast
    have hfilter : (init ++ [13]).filter (· ≠ 13) = init.filter (· ≠ 13) := by
      rw [List.filter_append]
      exact List.append_nil _
    rw [hfilter, List.append_nil, List.dropLast_concat, List.filter_eq_self]
    constructor
    · intro hall
      exact ⟨rfl, fun hmem => of_decide_eq_true (hall 13 hmem) rfl⟩
    · rintro ⟨-, hno⟩ b hb
      exact decide_eq_true fun h13 => hno (h13 ▸ hb)
  · constructor
    · intro heq
      have hmem : (10 : UInt8) ∈ raw.filter (· ≠ 13) ++ [10] :=
        List.mem_append_right _ List.mem_cons_self
      exact (h (heq.subst (motive := (10 ∈ ·)) hmem)).elim
    · rintro ⟨hcrlf, -⟩
      cases hcrlf

theorem length_filter_le_text (raw : Bytes) :
    (raw.filter (· ≠ 13)).length ≤ (Line.ofRaw raw).text.length := by
  unfold Line.ofRaw
  split
  · next hlast =>
    obtain ⟨init, rfl⟩ := List.getLast?_eq_some_iff.mp hlast
    rw [List.filter_append, List.dropLast_concat, List.length_append]
    exact List.length_filter_le _ init
  · exact List.length_filter_le _ raw

theorem lines_line (h : (10 : UInt8) ∉ raw) (rest : Bytes) :
    lines (raw ++ 10 :: rest) = Line.ofRaw raw :: lines rest := by
  have hall : ∀ x ∈ raw, (x == 10) = false := by
    intro x hx
    exact beq_eq_false_iff_ne.mpr fun hx' => h (hx' ▸ hx)
  have hsplit : (raw ++ 10 :: rest).splitOn 10 = raw :: rest.splitOn 10 :=
    List.splitOnP_append_cons_of_forall_mem hall 10 rfl rest
  rw [lines, hsplit, List.dropLast_cons_of_ne_nil (List.splitOn_ne_nil 10 rest)]
  rfl

theorem lines_rest (h : (10 : UInt8) ∉ stream) : lines stream = [] := by
  rw [lines, List.splitOn_eq_singleton h]
  rfl

/-- Successive calls of `get_line` return the lines of a stream, if and only if all of them end in
CR LF and have no other carriage return. -/
theorem getLine_splits_iff (size : Nat) (stream : Bytes) (buf : Int → UInt8)
    (hlen : ∀ line ∈ lines stream, line.text.length < size - 1) :
    Returns size (lines stream) stream buf ↔
      ∀ line ∈ lines stream, line.crlf = true ∧ (13 : UInt8) ∉ line.text := by
  induction hn : stream.length using Nat.strong_induction_on generalizing stream buf with
  | _ n ih =>
    by_cases hnl : (10 : UInt8) ∈ stream
    · obtain ⟨raw, rest, rfl, hraw⟩ := List.eq_append_cons_of_mem hnl
      have hlt : rest.length < n := by
        rw [← hn, List.length_append, List.length_cons]
        omega
      rw [lines_line hraw] at hlen ⊢
      obtain ⟨hline, hrest⟩ := List.forall_mem_cons.mp hlen
      have hstored := length_filter_le_text raw
      have hcall : getLine (raw ++ 10 :: rest) buf size =
          ⟨(stored raw).length, put buf 0 (stored raw ++ [0]), rest⟩ := by
        have hloop : loop size (raw ++ 10 :: rest) 0 0 buf = _ :=
          loop_line raw rest 0 0 buf hraw (by decide) (by omega)
        rw [Nat.zero_add] at hloop
        exact hloop
      rw [List.forall_mem_cons, ← stored_eq_text_iff hraw,
        ← ih rest.length hlt rest (put buf 0 (stored raw ++ [0])) hrest rfl, Returns, hcall]
      constructor
      · rintro ⟨hret, hbuf, hmore⟩
        exact ⟨(begins_put_iff buf hret).mp hbuf, hmore⟩
      · rintro ⟨heq, hmore⟩
        have hret := congrArg List.length heq
        exact ⟨hret, (begins_put_iff buf hret).mpr heq, hmore⟩
    · rw [lines_rest hnl]
      refine ⟨fun _ line h => (by cases h), fun _ hshort => ?_⟩
      exact loop_rest stream 0 0 buf hnl (by decide) (by omega)

/-- The lines `a`, an empty one and `bc`, and two bytes without a newline. -/
theorem getLine_splits_three : lines [97, 13, 10, 13, 10, 98, 99, 13, 10, 100, 100] =
      [⟨[97], true⟩, ⟨[], true⟩, ⟨[98, 99], true⟩] ∧
    Returns 4 (lines [97, 13, 10, 13, 10, 98, 99, 13, 10, 100, 100])
      [97, 13, 10, 13, 10, 98, 99, 13, 10, 100, 100] fun _ => 1 :=
  ⟨by decide, (getLine_splits_iff 4 [97, 13, 10, 13, 10, 98, 99, 13, 10, 100, 100] (fun _ => 1)
    (by decide)).mpr (by decide)⟩

/-- A line that ends in a bare newline is returned with it. -/
theorem getLine_keeps_newline : lines [97, 10] = [⟨[97], false⟩] ∧
    (getLine [97, 10] (fun _ => 1) 16).ret = 2 ∧
    (getLine [97, 10] (fun _ => 1) 16).buf 1 = 10 ∧
    ¬ Returns 16 (lines [97, 10]) [97, 10] fun _ => 1 := by
  have hcall : getLine [97, 10] (fun _ => 1) 16 = ⟨2, put (fun _ => 1) 0 [97, 10, 0], []⟩ :=
    loop_line [97] [] 0 0 (fun _ => 1) (by decide) (by decide) (by decide)
  refine ⟨by decide, by rw [hcall], by rw [hcall]; decide, ?_⟩
  rintro ⟨hret, -⟩
  rw [hcall] at hret
  cases hret

end SysPrg.GetLine
