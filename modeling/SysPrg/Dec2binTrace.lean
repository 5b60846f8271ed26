import SysPrg.Dec2bin

namespace SysPrg.Dec2bin
set_option autoImplicit true

inductive Access where
  | readTemp (i : Int)
  | writeTemp (i : Int)
  | writeBinary (n : Int)
  deriving DecidableEq, Repr

def Access.isWriteBinary : Access → Bool
  | .writeBinary _ => true
  | _ => false

def Scan.digitsLog (s : Scan) : Scan × List Access :=
  if s.digit.decimal > 0 then (s.digit.digitsLog.1, .writeTemp s.k :: s.digit.digitsLog.2)
  else (s.digit, [.writeTemp s.k])
termination_by s.decimal.toInt.toNat
decreasing_by all_goals exact toInt_half_lt ‹_›

def reverseLog (temp : Int → UInt8) (k n : Int) (binary : Int → UInt8) :
    (Int × (Int → UInt8)) × List Access :=
  if k ≥ 0 then
    let out := reverseLog temp (k - 1) (n + 1) (Function.update binary n (temp (k - 1)))
    (out.1, .readTemp (k - 1) :: .writeBinary n :: out.2)
  else ((n, binary), [])
termination_by (k + 1).toNat
decreasing_by omega

/-- `dec2bin` with its accesses to the two arrays, in their order. -/
def dec2binLog (decimal : Int64) (temp binary : Int → UInt8) : (Int → UInt8) × List Access :=
  let (s, digits) := Scan.digitsLog
    { decimal := if decimal < 0 then -decimal else decimal, k := 0, temp := temp }
  let temp := Function.update s.temp s.k (if decimal < 0 then 45 else 32)
  let (out, copies) := reverseLog temp (s.k + 1) 0 binary
  (Function.update out.2 (out.1 - 1) 0,
    digits ++ .writeTemp s.k :: (copies ++ [.writeBinary (out.1 - 1)]))

theorem Scan.digitsLog_fst (s : Scan) : s.digitsLog.1 = s.digits := by
  fun_induction Scan.digits s with
  | case1 s hpos ih => rw [Scan.digitsLog, if_pos hpos, ih]
  | case2 s hpos => rw [Scan.digitsLog, if_neg hpos]

theorem reverseLog_fst (temp : Int → UInt8) (k n : Int) (binary : Int → UInt8) :
    (reverseLog temp k n binary).1 = reverse temp k n binary := by
  fun_induction reverse temp k n binary with
  | case1 k n binary hk ih => rw [reverseLog, if_pos hk, ih]
  | case2 k n binary hk => rw [reverseLog, if_neg hk]

theorem dec2binLog_fst (decimal : Int64) (temp binary : Int → UInt8) :
    (dec2binLog decimal temp binary).1 = dec2bin decimal temp binary := by
  simp only [dec2binLog, dec2bin, reverseLog_fst, Scan.digitsLog_fst]

theorem Scan.lt_digits_k (s : Scan) : s.k < s.digits.k := by
  fun_induction Scan.digits s with
  | case1 s hpos ih => exact Int.lt_trans (Int.lt_succ s.k) ih
  | case2 s hpos => exact Int.lt_succ s.k

theorem Scan.mem_digitsLog (s : Scan) :
    a ∈ s.digitsLog.2 ↔ ∃ i, a = .writeTemp i ∧ s.k ≤ i ∧ i < s.digits.k := by
  fun_induction Scan.digits s with
  | case1 s hpos ih =>
    have hlt := s.digit.lt_digits_k
    have hk : s.digit.k = s.k + 1 := rfl
    rw [Scan.digitsLog, if_pos hpos, List.mem_cons, ih]
    constructor
    · rintro (rfl | ⟨i, rfl, hlo, hhi⟩)
      · exact ⟨s.k, rfl, Int.le_refl _, by omega⟩
      · exact ⟨i, rfl, by omega, hhi⟩
    · rintro ⟨i, rfl, hlo, hhi⟩
      by_cases hi : i = s.k
      · exact .inl (congrArg Access.writeTemp hi)
      · exact .inr ⟨i, rfl, by omega, hhi⟩
  | case2 s hpos =>
    have hk : s.digit.k = s.k + 1 := rfl
    rw [Scan.digitsLog, if_neg hpos, List.mem_singleton]
    constructor
    · rintro rfl
      exact ⟨s.k, rfl, Int.le_refl _, by omega⟩
    · rintro ⟨i, rfl, hlo, hhi⟩
      exact congrArg Access.writeTemp (by omega)

/-- The loop looks at `k` before it is decremented, so that it reads `temp[-1]`. -/
theorem readTemp_mem_reverseLog (temp : Int → UInt8) (k n : Int) (binary : Int → UInt8) :
    .readTemp i ∈ (reverseLog temp k n binary).2 ↔ -1 ≤ i ∧ i < k := by
  fun_induction reverseLog temp k n binary with
  | case1 k n binary hk out ih =>
    rw [List.mem_cons, List.mem_cons, ih, Access.readTemp.injEq]
    constructor
    · rintro (rfl | h | h)
      · omega
      · cases h
      · omega
    · intro h
      by_cases hi : i = k - 1
      · exact .inl hi
      · exact .inr (.inr (by omega))
  | case2 k n binary hk =>
    constructor
    · intro h
      cases h
    · intro h
      omega

theorem writeTemp_not_mem_reverseLog (temp : Int → UInt8) (k n : Int) (binary : Int → UInt8) :
    .writeTemp i ∉ (reverseLog temp k n binary).2 := by
  fun_induction reverseLog temp k n binary with
  | case1 k n binary hk out ih =>
    intro h
    rcases List.mem_cons.1 h with h | h
    · cases h
    · rcases List.mem_cons.1 h with h | h
      · cases h
      · exact ih h
  | case2 k n binary hk =>
    intro h
    cases h

theorem countP_reverseLog (temp : Int → UInt8) (k n : Int) (binary : Int → UInt8) :
    (reverseLog temp k n binary).2.countP Access.isWriteBinary = (k + 1).toNat := by
  fun_induction reverseLog temp k n binary with
  | case1 k n binary hk out ih =>
    rw [List.countP_cons_of_neg Bool.false_ne_true, List.countP_cons_of_pos rfl, ih]
    omega
  | case2 k n binary hk =>
    rw [List.countP_nil]
    omega

/-- What a caller and its two arrays can rely on: `temp` has 80 cells, and a character goes into it
before it comes out. -/
structure Disciplined (log : List Access) : Prop where
  inside : ∀ i, .readTemp i ∈ log ∨ .writeTemp i ∈ log → 0 ≤ i ∧ i ≤ 79
  written : ∀ pre i post, log = pre ++ .readTemp i :: post → .writeTemp i ∈ pre
  chars : log.countP Access.isWriteBinary ≤ 66

theorem disciplined_append (hw : ∀ a ∈ ws, ∃ i, a = .writeTemp i ∧ 0 ≤ i ∧ i ≤ 79)
    (hr : ∀ i, .readTemp i ∈ rs → .writeTemp i ∈ ws) (hrw : ∀ i, .writeTemp i ∉ rs)
    (hchars : rs.countP Access.isWriteBinary ≤ 66) : Disciplined (ws ++ rs) where
  inside i hi := by
    have hmem : .writeTemp i ∈ ws := by
      rcases hi with hi | hi
      · rcases List.mem_append.1 hi with hi | hi
        · obtain ⟨j, hj, -⟩ := hw _ hi
          cases hj
        · exact hr i hi
      · exact (List.mem_append.1 hi).resolve_right (hrw i)
    obtain ⟨j, hj, hrange⟩ := hw _ hmem
    cases hj
    exact hrange
  written pre i post h := by
    rcases List.append_eq_append_iff.1 h with ⟨mid, rfl, hrs⟩ | ⟨mid, hws, hmid⟩
    · have hmem : .readTemp i ∈ rs := hrs ▸ List.mem_append_right _ List.mem_cons_self
      exact List.mem_append_left _ (hr i hmem)
    · cases mid with
      | nil =>
        rw [List.nil_append] at hmid
        have hmem : .readTemp i ∈ rs := hmid ▸ List.mem_cons_self
        rw [List.append_nil] at hws
        exact hws ▸ hr i hmem
      | cons a mid =>
        obtain ⟨rfl, -⟩ := List.cons.inj hmid
        obtain ⟨j, hj, -⟩ := hw (.readTemp i) (hws ▸ List.mem_append_right _ List.mem_cons_self)
        cases hj
  chars := by
    have hnone : ws.countP Access.isWriteBinary = 0 := by
      rw [List.countP_eq_zero]
      intro a ha
      obtain ⟨i, rfl, -⟩ := hw a ha
      exact Bool.false_ne_true
    rw [List.countP_append, hnone, Nat.zero_add]
    exact hchars

theorem dec2binLog_split (decimal : Int64) (temp binary : Int → UInt8) :
    ∃ (k : Nat) (ws rs : List Access), k ≤ 63 ∧ (dec2binLog decimal temp binary).2 = ws ++ rs ∧
      (∀ a, a ∈ ws ↔ ∃ i, a = .writeTemp i ∧ 0 ≤ i ∧ i ≤ k) ∧
      (∀ i : Int, .readTemp i ∈ rs ↔ -1 ≤ i ∧ i ≤ k) ∧ (∀ i, .writeTemp i ∉ rs) ∧
      rs.countP Access.isWriteBinary = k + 3 := by
  obtain ⟨k, hk, hpos, hle⟩ := scanned_k decimal temp
  have hsplit (digits copies : List Access) (last sign : Access) :
      digits ++ sign :: (copies ++ [last]) = (digits ++ [sign]) ++ (copies ++ [last]) := by
    rw [List.append_assoc, List.singleton_append]
  refine ⟨k, _, _, hle, hsplit _ _ _ _, ?_, ?_, ?_, ?_⟩
  · intro a
    rw [List.mem_append, Scan.mem_digitsLog, List.mem_singleton, Scan.digitsLog_fst, ← scanned, hk]
    constructor
    · rintro (⟨i, rfl, hlo, hhi⟩ | rfl)
      · exact ⟨i, rfl, hlo, by omega⟩
      · exact ⟨k, rfl, by omega, Int.le_refl _⟩
    · rintro ⟨i, rfl, hlo, hhi⟩
      by_cases hi : i = k
      · exact .inr (congrArg Access.writeTemp hi)
      · exact .inl ⟨i, rfl, hlo, by omega⟩
  · intro i
    rw [List.mem_append, readTemp_mem_reverseLog, List.mem_singleton, Scan.digitsLog_fst,
      ← scanned, hk]
    constructor
    · rintro (h | h)
      · omega
      · cases h
    · intro h
      exact .inl (by omega)
  · intro i h
    rcases List.mem_append.1 h with h | h
    · exact writeTemp_not_mem_reverseLog _ _ _ _ h
    · cases List.mem_singleton.1 h
  · rw [List.countP_append, countP_reverseLog, Scan.digitsLog_fst, ← scanned, hk]
    change ((k : Int) + 1 + 1).toNat + 1 = _
    omega

/-- Every call reads `temp[-1]`; but for that one read it keeps to its arrays. -/
theorem dec2bin_never_disciplined (decimal : Int64) (temp binary : Int → UInt8) :
    ¬ Disciplined (dec2binLog decimal temp binary).2 ∧
      Disciplined ((dec2binLog decimal temp binary).2.filter (· ≠ .readTemp (-1))) := by
  obtain ⟨k, ws, rs, hk, hlog, hws, hrs, hrw, hchars⟩ := dec2binLog_split decimal temp binary
  rw [hlog]
  constructor
  · intro h
    have hmem : .readTemp (-1) ∈ ws ++ rs :=
      List.mem_append_right _ ((hrs (-1)).2 ⟨Int.le_refl _, by omega⟩)
    exact absurd (h.inside (-1) (.inl hmem)).1 (by decide)
  · rw [List.filter_append]
    apply disciplined_append
    · intro a ha
      obtain ⟨i, rfl, hlo, hhi⟩ := (hws a).1 (List.mem_of_mem_filter ha)
      exact ⟨i, rfl, hlo, by omega⟩
    · intro i hi
      obtain ⟨hmem, hne⟩ := List.mem_filter.1 hi
      have hi' : i ≠ -1 := fun he => of_decide_eq_true hne (congrArg Access.readTemp he)
      have hrange := (hrs i).1 hmem
      refine List.mem_filter.2 ⟨(hws _).2 ⟨i, rfl, by omega, by omega⟩, ?_⟩
      exact decide_eq_true fun he => (by cases he)
    · intro i hi
      exact hrw i (List.mem_of_mem_filter hi)
    · have hle := List.Sublist.countP_le (p := Access.isWriteBinary)
        (List.filter_sublist (p := (· ≠ .readTemp (-1))) (l := rs))
      omega

/-- What `dec2bin` does for zero. -/
theorem dec2bin_reads_before :
    (dec2binLog 0 (fun _ => 0) (fun _ => 0)).2 =
      [.writeTemp 0, .writeTemp 1, .readTemp 1, .writeBinary 0, .readTemp 0, .writeBinary 1,
        .readTemp (-1), .writeBinary 2, .writeBinary 2] ∧
    ¬ Disciplined (dec2binLog 0 (fun _ => 0) (fun _ => 0)).2 := by
  have hlog : (dec2binLog 0 (fun _ => 0) (fun _ => 0)).2 =
      [.writeTemp 0, .writeTemp 1, .readTemp 1, .writeBinary 0, .readTemp 0, .writeBinary 1,
        .readTemp (-1), .writeBinary 2, .writeBinary 2] := by
    simp [dec2binLog, Scan.digitsLog, Scan.digit, reverseLog]
  refine ⟨hlog, ?_⟩
  rw [hlog]
  intro h
  exact absurd (h.inside (-1) (.inl (by decide))).1 (by decide)

end SysPrg.Dec2bin
