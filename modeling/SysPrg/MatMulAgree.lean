import SysPrg.MatMulRun

namespace SysPrg.MatMul
set_option autoImplicit true

def macroN : Nat := 2048

def macroNthreads : Nat := 12

def Sys.writesRow (s : Sys) (t i : Nat) : Prop := ∃ j k v, s.pc t = .write i j k v

theorem Sys.Sound.row_of_write {s : Sys} (h : s.Sound n nthreads a b) (hw : s.writesRow t i) :
    t * (n / nthreads) ≤ i ∧ i < t * (n / nthreads) + n / nthreads := by
  obtain ⟨j, k, v, hpc⟩ := hw
  have hstarted : s.pc t ≠ .idle := by
    rw [hpc]
    exact fun hx => by cases hx
  have hrange := (h.threads t (h.started t hstarted).1).range
  rw [hpc] at hrange
  exact ⟨hrange.1, hrange.2.1⟩

theorem schedule_independent (n nthreads : Nat) (a b : Array2) (es es' : List Ev)
    (h : (run (Sys.step n nthreads a b) .start es).main = .exited)
    (h' : (run (Sys.step n nthreads a b) .start es').main = .exited) :
    (run (Sys.step n nthreads a b) .start es).c = (run (Sys.step n nthreads a b) .start es').c ∧
    (∀ pre pre' t t' i, pre <+: es → pre' <+: es →
      (run (Sys.step n nthreads a b) .start pre).writesRow t i →
      (run (Sys.step n nthreads a b) .start pre').writesRow t' i → t = t') ∧
    ∀ i j : Fin n, i < nthreads * (n / nthreads) →
      (run (Sys.step n nthreads a b) .start es).c i j = (a.toMatrix n * b.toMatrix n) i j := by
  have hfinal := (run_sound n nthreads a b es).final h
  have hfinal' := (run_sound n nthreads a b es').final h'
  refine ⟨?_, ?_, ?_⟩
  · funext i j
    rw [hfinal, hfinal']
  · intro pre pre' t t' i _ _ hw hw'
    exact row_thread ((run_sound n nthreads a b pre).row_of_write hw)
      ((run_sound n nthreads a b pre').row_of_write hw')
  · intro i j hi
    rw [hfinal, if_pos ⟨hi, j.2⟩, psum_eq_mul]

/-- Two threads one after the other, or in turns. -/
theorem schedule_independent_two_threads :
    (run (Sys.step 2 2 (fun _ _ => 1) fun _ _ => 2) .start
        (List.replicate 3 .main ++ List.replicate 15 (.thread 0) ++ List.replicate 15 (.thread 1) ++
          List.replicate 3 .main)).c =
      (run (Sys.step 2 2 (fun _ _ => 1) fun _ _ => 2) .start
        (List.replicate 3 .main ++ (List.replicate 15 [.thread 1, .thread 0]).flatten ++
          List.replicate 3 .main)).c :=
  (schedule_independent 2 2 (fun _ _ => 1) (fun _ _ => 2) _ _ (by decide +kernel)
    (by decide +kernel)).1

/-- How many steps a loop still takes for `x` turns of `c` steps. -/
def turnsLeft (c x : Nat) : Nat := x * c + 1

def rowsLeft (n x : Nat) : Nat := turnsLeft (n * (2 * n + 2) + 2) x

def colsLeft (n x : Nat) : Nat := turnsLeft (2 * n + 2) x

def Pc.left (n lo hi : Nat) : Pc → Nat
  | .idle => rowsLeft n (hi - lo)
  | .loopI i => rowsLeft n (hi - i)
  | .loopJ i j => colsLeft n (n - j) + rowsLeft n (hi - (i + 1))
  | .loopK i j k => 2 * (n - k) + 1 + colsLeft n (n - (j + 1)) + rowsLeft n (hi - (i + 1))
  | .write i j k _ => 2 * (n - k) + colsLeft n (n - (j + 1)) + rowsLeft n (hi - (i + 1))
  | .exited => 0

def MainPc.left (nthreads : Nat) : MainPc → Nat
  | .create i => nthreads - i + (nthreads + 2)
  | .join i => nthreads - i + 1
  | .exited => 0

def Sys.left (n nthreads : Nat) (s : Sys) : Nat :=
  s.main.left nthreads + ∑ t ∈ Finset.range nthreads,
    (s.pc t).left n (t * (n / nthreads)) (t * (n / nthreads) + n / nthreads)

theorem turnsLeft_sub (h : i < hi) (c : Nat) :
    turnsLeft c (hi - i) = turnsLeft c (hi - (i + 1)) + c := by
  obtain ⟨x, rfl⟩ := Nat.exists_eq_add_of_lt h
  have hx : i + x + 1 - i = x + 1 := by omega
  have hx' : i + x + 1 - (i + 1) = x := by omega
  rw [hx, hx', turnsLeft, turnsLeft, Nat.succ_mul]
  omega

theorem threadfun_left (hr : pc.InRange n lo hi) (hidle : pc ≠ .idle) (hexit : pc ≠ .exited) :
    (threadfun n a b hi c pc).2.left n lo hi < pc.left n lo hi := by
  cases pc with
  | idle => exact (hidle rfl).elim
  | exited => exact (hexit rfl).elim
  | loopI i =>
    simp only [threadfun]
    split
    · next hi =>
      have hrow := turnsLeft_sub hi (n * (2 * n + 2) + 2)
      have hcols : colsLeft n n = n * (2 * n + 2) + 1 := rfl
      simp only [Pc.left, rowsLeft, Nat.sub_zero]
      omega
    · exact Nat.succ_pos _
  | loopJ i j =>
    simp only [threadfun]
    split
    · next hj =>
      simp only [Pc.left, colsLeft, turnsLeft_sub hj, Nat.sub_zero]
      omega
    · simp only [Pc.left, colsLeft, turnsLeft]
      omega
  | loopK i j k =>
    simp only [threadfun]
    split
    · simp only [Pc.left]
      omega
    · simp only [Pc.left]
      omega
  | write i j k v =>
    have hk : k < n := hr.2.2.2
    simp only [threadfun, Pc.left]
    omega

section
variable {n nthreads : Nat} {a b : Array2} {s : Sys}

theorem Sys.Sound.thread_left (h : s.Sound n nthreads a b) (hidle : s.pc t ≠ .idle)
    (hexit : s.pc t ≠ .exited) :
    (s.step n nthreads a b (.thread t)).left n nthreads < s.left n nthreads := by
  obtain ⟨ht, hrow⟩ := h.started t hidle
  simp only [Sys.step, Sys.left, hrow]
  apply Nat.add_lt_add_left
  apply Finset.sum_lt_sum
  · intro t' _
    by_cases heq : t' = t
    · subst heq
      rw [Function.update_self]
      exact Nat.le_of_lt (threadfun_left (h.threads t' ht).range hidle hexit)
    · rw [Function.update_of_ne heq]
  · refine ⟨t, Finset.mem_range.2 ht, ?_⟩
    rw [Function.update_self]
    exact threadfun_left (h.threads t ht).range hidle hexit

theorem create_left (hm : s.main = .create i) (hi : i < nthreads) (hidle : s.pc i = .idle)
    (a b : Array2) : (s.step n nthreads a b .main).left n nthreads < s.left n nthreads := by
  have hsum : ∑ t ∈ Finset.range nthreads, (Function.update s.pc i
        (.loopI (i * (n / nthreads))) t).left n (t * (n / nthreads))
        (t * (n / nthreads) + n / nthreads) =
      ∑ t ∈ Finset.range nthreads, (s.pc t).left n (t * (n / nthreads))
        (t * (n / nthreads) + n / nthreads) := by
    apply Finset.sum_congr rfl
    intro t _
    by_cases heq : t = i
    · rw [heq, Function.update_self, hidle]
      rfl
    · rw [Function.update_of_ne heq]
  simp only [Sys.step, Sys.mainStep, hm, if_pos hi, Sys.left, hsum, MainPc.left]
  omega

theorem Sys.Sound.progress (h : s.Sound n nthreads a b) : s.main = .exited ∨
    ∃ e, (s.step n nthreads a b e).Sound n nthreads a b ∧
      (s.step n nthreads a b e).left n nthreads < s.left n nthreads := by
  have hphase := h.phase
  cases hm : s.main with
  | exited => exact .inl rfl
  | create i =>
    rw [hm] at hphase
    refine .inr ⟨.main, h.step .main, ?_⟩
    by_cases hi : i < nthreads
    · exact create_left hm hi ((hphase i hi).2 (Nat.le_refl i)) a b
    · simp only [Sys.step, Sys.mainStep, hm, if_neg hi, Sys.left, MainPc.left]
      omega
  | join i =>
    rw [hm] at hphase
    by_cases hi : i < nthreads
    · by_cases hexit : s.pc i = .exited
      · refine .inr ⟨.main, h.step .main, ?_⟩
        simp only [Sys.step, Sys.mainStep, hm, if_pos hi, hexit, Sys.left, MainPc.left]
        omega
      · exact .inr ⟨.thread i, h.step (.thread i), h.thread_left (hphase i hi).1 hexit⟩
    · refine .inr ⟨.main, h.step .main, ?_⟩
      simp only [Sys.step, Sys.mainStep, hm, if_neg hi, Sys.left, MainPc.left]
      omega

end

theorem exists_complete_run (n nthreads : Nat) (a b : Array2) :
    ∃ es, (run (Sys.step n nthreads a b) .start es).main = .exited := by
  obtain ⟨es, -, hes⟩ := exists_run_of_progress (p := fun _ _ => false)
    (Sys.Sound n nthreads a b) (fun s => s.main = .exited) (Sys.left n nthreads)
    (fun s h => h.progress.imp_right fun ⟨e, he⟩ => ⟨e, rfl, he⟩) (start_sound n nthreads a b)
  exact ⟨es, hes⟩

theorem threaded_eq_serial_iff (n nthreads : Nat) :
    (∀ a b es, (run (Sys.step n nthreads a b) .start es).main = .exited →
      ∀ i j, i < n → j < n →
        (run (Sys.step n nthreads a b) .start es).c i j = prcs n a b i j) ↔
      nthreads ∣ n := by
  constructor
  · intro h
    rw [Nat.dvd_iff_div_mul_eq, Nat.mul_comm]
    apply Nat.le_antisymm (Nat.mul_div_le n nthreads)
    rw [← Nat.not_lt]
    intro hlt
    -- One column of ones, so that every cell of the product is one.
    obtain ⟨es, hes⟩ := exists_complete_run n nthreads (fun _ k => if k = 0 then 1 else 0)
      (fun _ _ => 1)
    have hn : 0 < n := Nat.zero_lt_of_lt hlt
    have hcell := h _ _ es hes _ 0 hlt hn
    rw [(run_sound n nthreads _ _ es).final hes, if_neg (fun hx => Nat.lt_irrefl _ hx.1),
      prcs_apply, if_pos ⟨hlt, hn⟩, psum] at hcell
    simp only [mul_one, Finset.sum_ite_eq', Finset.mem_range, hn, if_true] at hcell
    cases hcell
  · intro hdvd a b es hes i j hi hj
    have hall : nthreads * (n / nthreads) = n := Nat.mul_div_cancel' hdvd
    rw [(run_sound n nthreads a b es).final hes, prcs_apply, hall]

/-- With the program's own matrices: the rows from 2040 on are not computed. -/
theorem threaded_leaves_rows :
    ∃ es, (run (Sys.step macroN macroNthreads (fun _ _ => 1) fun _ _ => 1) .start es).main =
        .exited ∧
      (run (Sys.step macroN macroNthreads (fun _ _ => 1) fun _ _ => 1) .start es).c 2040 0 = 0 ∧
      prcs macroN (fun _ _ => 1) (fun _ _ => 1) 2040 0 = 2048 := by
  obtain ⟨es, hes⟩ := exists_complete_run macroN macroNthreads (fun _ _ => 1) (fun _ _ => 1)
  refine ⟨es, hes, ?_, ?_⟩
  · rw [(run_sound macroN macroNthreads _ _ es).final hes]
    exact if_neg (by decide)
  · rw [prcs_apply, if_pos (by decide), psum, Finset.sum_const, Finset.card_range]
    decide

end SysPrg.MatMul
