import SysPrg.MatMul

namespace SysPrg.MatMul
set_option autoImplicit true

/-- How many of the products of a cell in its rows a thread has added up. -/
def Pc.count (n i' j' : Nat) : Pc → Nat
  | .idle => 0
  | .loopI i => if i' < i then n else 0
  | .loopJ i j => if i' < i ∨ i' = i ∧ j' < j then n else 0
  | .loopK i j k | .write i j k _ =>
    if i' < i ∨ i' = i ∧ j' < j then n else if i' = i ∧ j' = j then k else 0
  | .exited => n

def Pc.InRange (n lo hi : Nat) : Pc → Prop
  | .idle | .exited => True
  | .loopI i => lo ≤ i
  | .loopJ i _ => lo ≤ i ∧ i < hi
  | .loopK i j k => lo ≤ i ∧ i < hi ∧ j < n ∧ k ≤ n
  | .write i j k _ => lo ≤ i ∧ i < hi ∧ j < n ∧ k < n

/-- What holds of a thread and its rows, whatever the others do. -/
structure Local (n : Nat) (a b : Array2) (lo hi : Nat) (c : Array2) (pc : Pc) : Prop where
  range : pc.InRange n lo hi
  cells : ∀ i j, lo ≤ i → i < hi → j < n → c i j = psum a b i j (pc.count n i j)
  pending : ∀ i j k v, pc = .write i j k v → v = c i j + a i k * b k j

section
variable {n lo hi : Nat} {a b c c' : Array2} {pc pc' : Pc}

theorem Local.congr (h : Local n a b lo hi c pc)
    (hc : ∀ i j, lo ≤ i → i < hi → j < n → c' i j = c i j) : Local n a b lo hi c' pc := by
  refine ⟨h.range, ?_, ?_⟩
  · intro i j hlo hhi hj
    rw [hc i j hlo hhi hj]
    exact h.cells i j hlo hhi hj
  · intro i j k v hpc
    obtain ⟨hlo, hhi, hj, -⟩ : lo ≤ i ∧ i < hi ∧ j < n ∧ k < n := by
      have hrange := h.range
      rw [hpc] at hrange
      exact hrange
    rw [hc i j hlo hhi hj]
    exact h.pending i j k v hpc

theorem Local.goto (h : Local n a b lo hi c pc) (hrange : pc'.InRange n lo hi)
    (hcount : ∀ i j, lo ≤ i → i < hi → j < n → pc'.count n i j = pc.count n i j)
    (hpending : ∀ i j k v, pc' = .write i j k v → v = c i j + a i k * b k j) :
    Local n a b lo hi c pc' := by
  refine ⟨hrange, ?_, hpending⟩
  intro i j hlo hhi hj
  rw [hcount i j hlo hhi hj]
  exact h.cells i j hlo hhi hj

theorem Local.write (h : Local n a b lo hi c (.write i j k v)) :
    Local n a b lo hi (c.set i j v) (.loopK i j (k + 1)) := by
  obtain ⟨hlo, hhi, hj, hk⟩ : lo ≤ i ∧ i < hi ∧ j < n ∧ k < n := h.range
  refine ⟨⟨hlo, hhi, hj, hk⟩, ?_, fun _ _ _ _ hpc => by cases hpc⟩
  intro i' j' hlo' hhi' hj'
  have hcell := h.cells i' j' hlo' hhi' hj'
  have hv := h.pending i j k v rfl
  simp only [Pc.count] at hcell ⊢
  unfold Array2.set
  by_cases heq : i' = i ∧ j' = j
  · obtain ⟨rfl, rfl⟩ := heq
    have hbefore : ¬ (i' < i' ∨ i' = i' ∧ j' < j') := by omega
    rw [if_neg hbefore, if_pos ⟨rfl, rfl⟩] at hcell ⊢
    rw [if_pos ⟨rfl, rfl⟩, psum_succ, hv, hcell]
  · rw [if_neg heq, hcell, if_neg heq, if_neg heq]

theorem Local.threadfun (h : Local n a b lo hi c pc) :
    Local n a b lo hi (threadfun n a b hi c pc).1 (threadfun n a b hi c pc).2 := by
  cases pc with
  | idle => exact h
  | exited => exact h
  | write i j k v => exact h.write
  | loopI i =>
    have hlo : lo ≤ i := h.range
    simp only [MatMul.threadfun]
    split
    · next hhi =>
      refine h.goto ⟨hlo, hhi⟩ ?_ (fun _ _ _ _ hpc => by cases hpc)
      intro i' j' _ _ _
      simp only [Pc.count, Nat.not_lt_zero, and_false, or_false]
    · next hhi =>
      refine h.goto trivial ?_ (fun _ _ _ _ hpc => by cases hpc)
      intro i' j' _ hhi' _
      simp only [Pc.count]
      rw [if_pos (by omega)]
  | loopJ i j =>
    obtain ⟨hlo, hhi⟩ : lo ≤ i ∧ i < hi := h.range
    simp only [MatMul.threadfun]
    split
    · next hj =>
      refine h.goto ⟨hlo, hhi, hj, Nat.zero_le n⟩ ?_ (fun _ _ _ _ hpc => by cases hpc)
      intro i' j' _ _ _
      simp only [Pc.count, ite_self]
    · next hj =>
      refine h.goto (Nat.le_succ_of_le hlo) ?_ (fun _ _ _ _ hpc => by cases hpc)
      intro i' j' _ _ hj'
      simp only [Pc.count]
      have hiff : i' < i + 1 ↔ i' < i ∨ i' = i ∧ j' < j := by omega
      rw [if_congr hiff rfl rfl]
  | loopK i j k =>
    obtain ⟨hlo, hhi, hj, hk⟩ : lo ≤ i ∧ i < hi ∧ j < n ∧ k ≤ n := h.range
    simp only [MatMul.threadfun]
    split
    · next hk =>
      refine h.goto ⟨hlo, hhi, hj, hk⟩ (fun _ _ _ _ _ => rfl) ?_
      intro i' j' k' v hpc
      cases hpc
      rfl
    · next hk' =>
      refine h.goto ⟨hlo, hhi⟩ ?_ (fun _ _ _ _ hpc => by cases hpc)
      intro i' j' _ _ _
      obtain rfl : k = n := by omega
      simp only [Pc.count]
      by_cases hbefore : i' < i ∨ i' = i ∧ j' < j
      · rw [if_pos hbefore, if_pos (by omega)]
      · rw [if_neg hbefore]
        have hiff : (i' < i ∨ i' = i ∧ j' < j + 1) ↔ i' = i ∧ j' = j := by omega
        rw [if_congr hiff rfl rfl]

theorem Local.frame (h : Local n a b lo hi c pc) (hout : ¬ (lo ≤ i ∧ i < hi) ∨ n ≤ j) :
    (MatMul.threadfun n a b hi c pc).1 i j = c i j := by
  cases pc with
  | write i' j' k v =>
    obtain ⟨hlo, hhi, hj, -⟩ : lo ≤ i' ∧ i' < hi ∧ j' < n ∧ k < n := h.range
    apply if_neg
    rintro ⟨rfl, rfl⟩
    omega
  | idle | exited | loopI | loopJ | loopK => rfl

end

theorem row_thread {t t' w i : Nat} (h : t * w ≤ i ∧ i < t * w + w)
    (h' : t' * w ≤ i ∧ i < t' * w + w) : t = t' := by
  rw [← Nat.succ_mul] at h h'
  rw [← Nat.div_eq_of_lt_le h.1 h.2, Nat.div_eq_of_lt_le h'.1 h'.2]

/-- Which threads are there, for the place that `main` has got to. -/
def MainPc.Phase (nthreads : Nat) (pc : Nat → Pc) : MainPc → Prop
  | .create i => ∀ t, t < nthreads → (pc t = .idle ↔ i ≤ t)
  | .join i => ∀ t, t < nthreads → pc t ≠ .idle ∧ (t < i → pc t = .exited)
  | .exited => ∀ t, t < nthreads → pc t = .exited

structure Sys.Sound (n nthreads : Nat) (a b : Array2) (s : Sys) : Prop where
  started : ∀ t, s.pc t ≠ .idle → t < nthreads ∧ s.rownos t = t * (n / nthreads)
  threads : ∀ t, t < nthreads →
    Local n a b (t * (n / nthreads)) (t * (n / nthreads) + n / nthreads) s.c (s.pc t)
  rest : ∀ i j, nthreads * (n / nthreads) ≤ i ∨ n ≤ j → s.c i j = 0
  phase : s.main.Phase nthreads s.pc

theorem start_sound (n nthreads : Nat) (a b : Array2) : Sys.start.Sound n nthreads a b where
  started t h := (h rfl).elim
  threads t _ := ⟨trivial, fun _ _ _ _ _ => rfl, fun _ _ _ _ h => by cases h⟩
  rest _ _ _ := rfl
  phase t _ := ⟨fun _ => Nat.zero_le t, fun _ => rfl⟩

theorem threadfun_ne_idle (h : pc ≠ .idle) : (threadfun n a b hi c pc).2 ≠ .idle := by
  cases pc with
  | idle => exact (h rfl).elim
  | loopI | loopJ | loopK =>
    simp only [threadfun]
    split
    · exact fun hx => by cases hx
    · exact fun hx => by cases hx
  | write | exited => exact fun hx => by cases hx

theorem row_lt {t w i nthreads : Nat} (ht : t < nthreads) (h : i < t * w + w) :
    i < nthreads * w := by
  have hle : (t + 1) * w ≤ nthreads * w := Nat.mul_le_mul_right w ht
  rw [Nat.succ_mul] at hle
  exact Nat.lt_of_lt_of_le h hle

theorem MainPc.Phase.goto {m : MainPc} {pc : Nat → Pc} {x : Pc} (h : m.Phase nthreads pc)
    (hidle : pc t ≠ .idle) (hidle' : x ≠ .idle) (hexit : pc t = .exited → x = .exited) :
    m.Phase nthreads (Function.update pc t x) := by
  cases m with
  | create i =>
    apply (Function.forall_update_iff pc fun t' y => t' < nthreads → (y = .idle ↔ i ≤ t')).2
    refine ⟨?_, fun t' _ => h t'⟩
    intro ht
    rw [← h t ht]
    exact ⟨fun hx => (hidle' hx).elim, fun hx => (hidle hx).elim⟩
  | join i =>
    apply (Function.forall_update_iff pc fun t' y =>
      t' < nthreads → y ≠ .idle ∧ (t' < i → y = .exited)).2
    refine ⟨?_, fun t' _ => h t'⟩
    intro ht
    exact ⟨hidle', fun hlt => hexit ((h t ht).2 hlt)⟩
  | exited =>
    apply (Function.forall_update_iff pc fun t' y => t' < nthreads → y = .exited).2
    exact ⟨fun ht => hexit (h t ht), fun t' _ => h t'⟩

section
variable {n nthreads : Nat} {a b : Array2} {s : Sys}

theorem Sys.Sound.thread (h : s.Sound n nthreads a b) (t : Nat) :
    (s.step n nthreads a b (.thread t)).Sound n nthreads a b := by
  by_cases hidle : s.pc t = .idle
  · have hstay : s.step n nthreads a b (.thread t) = s := by
      simp only [Sys.step, hidle, threadfun]
      rw [← hidle, Function.update_eq_self]
    rw [hstay]
    exact h
  · obtain ⟨ht, hrow⟩ := h.started t hidle
    have hlocal := h.threads t ht
    simp only [Sys.step, hrow]
    refine ⟨?_, ?_, ?_, ?_⟩
    · apply (Function.forall_update_iff s.pc fun t' y =>
        y ≠ .idle → t' < nthreads ∧ s.rownos t' = t' * (n / nthreads)).2
      exact ⟨fun _ => ⟨ht, hrow⟩, fun t' _ => h.started t'⟩
    · apply (Function.forall_update_iff s.pc fun t' y => t' < nthreads →
        Local n a b (t' * (n / nthreads)) (t' * (n / nthreads) + n / nthreads) _ y).2
      refine ⟨fun _ => hlocal.threadfun, ?_⟩
      -- No row is that of two threads, so that the others find their cells as they were.
      intro t' hne ht'
      apply (h.threads t' ht').congr
      intro i j hlo hhi _
      exact hlocal.frame (.inl fun hin => hne (row_thread ⟨hlo, hhi⟩ hin))
    · intro i j hout
      rw [← h.rest i j hout]
      apply hlocal.frame
      rcases hout with hi | hj
      · exact .inl fun hin => Nat.not_lt.2 hi (row_lt ht hin.2)
      · exact .inr hj
    · apply h.phase.goto hidle (threadfun_ne_idle hidle)
      intro hexit
      rw [hexit]
      rfl

theorem Sys.Sound.create (h : s.Sound n nthreads a b) (hm : s.main = .create i)
    (hi : i < nthreads) :
    Sys.Sound n nthreads a b
      ⟨s.c, Function.update s.rownos i (i * (n / nthreads)), .create (i + 1),
        Function.update s.pc i (.loopI (i * (n / nthreads)))⟩ := by
  have hphase : ∀ t, t < nthreads → (s.pc t = .idle ↔ i ≤ t) := by
    have hphase := h.phase
    rw [hm] at hphase
    exact hphase
  have hidle : s.pc i = .idle := (hphase i hi).2 (Nat.le_refl i)
  refine ⟨?_, ?_, h.rest, ?_⟩
  · intro t ht
    by_cases heq : t = i
    · subst heq
      exact ⟨hi, Function.update_self ..⟩
    · simp only [Function.update_of_ne heq] at ht ⊢
      exact h.started t ht
  · apply (Function.forall_update_iff s.pc fun t y => t < nthreads →
      Local n a b (t * (n / nthreads)) (t * (n / nthreads) + n / nthreads) s.c y).2
    refine ⟨?_, fun t _ => h.threads t⟩
    intro ht
    apply (h.threads i ht).goto (Nat.le_refl _) _ (fun _ _ _ _ hx => by cases hx)
    intro i' j' hlo _ _
    rw [hidle]
    exact if_neg (Nat.not_lt.2 hlo)
  · apply (Function.forall_update_iff s.pc fun t y => t < nthreads → (y = .idle ↔ i + 1 ≤ t)).2
    constructor
    · intro _
      exact ⟨fun hx => (by cases hx), fun hle => (Nat.not_succ_le_self i hle).elim⟩
    · intro t hne ht
      rw [hphase t ht]
      omega

theorem Sys.Sound.mainStep (h : s.Sound n nthreads a b) :
    (s.mainStep n nthreads).Sound n nthreads a b := by
  unfold Sys.mainStep
  have hphase := h.phase
  split
  · next i hm =>
    rw [hm] at hphase
    split
    · next hi => exact h.create hm hi
    · next hi =>
      refine ⟨h.started, h.threads, h.rest, ?_⟩
      intro t ht
      exact ⟨fun hidle => hi (Nat.lt_of_le_of_lt ((hphase t ht).1 hidle) ht),
        fun hlt => (Nat.not_lt_zero t hlt).elim⟩
  · next i hm =>
    rw [hm] at hphase
    split
    · split
      · next hexit =>
        refine ⟨h.started, h.threads, h.rest, ?_⟩
        intro t ht
        refine ⟨(hphase t ht).1, fun hlt => ?_⟩
        rcases Nat.lt_succ_iff_lt_or_eq.1 hlt with hlt | rfl
        · exact (hphase t ht).2 hlt
        · exact hexit
      · exact h
    · next hi =>
      refine ⟨h.started, h.threads, h.rest, ?_⟩
      intro t ht
      exact (hphase t ht).2 (Nat.lt_of_lt_of_le ht (Nat.not_lt.1 hi))
  · exact h

theorem Sys.Sound.step (h : s.Sound n nthreads a b) (e : Ev) :
    (s.step n nthreads a b e).Sound n nthreads a b := by
  cases e with
  | main => exact h.mainStep
  | thread t => exact h.thread t

theorem run_sound (n nthreads : Nat) (a b : Array2) (es : List Ev) :
    (run (Sys.step n nthreads a b) .start es).Sound n nthreads a b :=
  run_invariant (Sys.Sound n nthreads a b) (fun _ e h => h.step e) (start_sound n nthreads a b) es

theorem Sys.Sound.final (h : s.Sound n nthreads a b) (hm : s.main = .exited) (i j : Nat) :
    s.c i j = if i < nthreads * (n / nthreads) ∧ j < n then psum a b i j n else 0 := by
  split
  · next hin =>
    have hw : 0 < n / nthreads := by
      apply Nat.pos_of_ne_zero
      intro hw
      rw [hw, Nat.mul_zero] at hin
      exact Nat.not_lt_zero i hin.1
    have ht : i / (n / nthreads) < nthreads := (Nat.div_lt_iff_lt_mul hw).2 hin.1
    have hexit : s.pc (i / (n / nthreads)) = .exited := by
      have hphase := h.phase
      rw [hm] at hphase
      exact hphase _ ht
    have hcell := (h.threads _ ht).cells i j (Nat.div_mul_le_self i _) (Nat.lt_div_mul_add hw)
      hin.2
    rw [hexit] at hcell
    exact hcell
  · next hout =>
    apply h.rest
    omega

end

end SysPrg.MatMul
