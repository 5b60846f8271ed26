import SysPrg.Condvar

namespace SysPrg.Condvar
set_option autoImplicit true

/-- The steps a thread still has to take. A worker's count eight times, since its signal can send
the watcher around its loop once more. -/
def Pc.left (tcount : Nat) : Pc → Nat
  | .top i => 8 * (7 * (tcount - i) + 1)
  | .lock i => 8 * (7 * (tcount - (i + 1)) + 7)
  | .load i => 8 * (7 * (tcount - (i + 1)) + 6)
  | .store i _ => 8 * (7 * (tcount - (i + 1)) + 5)
  | .check i => 8 * (7 * (tcount - (i + 1)) + 4)
  | .signal i => 8 * (7 * (tcount - (i + 1)) + 3)
  | .unlock i => 8 * (7 * (tcount - (i + 1)) + 2)
  | .watchLock | .relock => 3
  | .test => 2
  | .watchUnlock => 1
  | .idle | .exited | .asleep | .watchExited => 0

def MainPc.left (n tcount : Nat) : MainPc → Nat
  | .create k => (n + 1 - k) * (56 * tcount + 12) + n + 3
  | .join k => n + 1 - k + 1
  | .done => 0

def Sys.left (tcount : Nat) (s : Sys n) : Nat :=
  s.main.left n tcount + ∑ t, (s.pc t).left tcount

variable {s : Sys n} {t : Fin (n + 1)} {pc x : Pc}

theorem left_update (hpc : s.pc t = pc) (hlt : x.left tcount < pc.left tcount)
    (c : Nat) (o : Option (Fin (n + 1))) :
    Sys.left tcount ⟨c, o, Function.update s.pc t x, s.main⟩ < s.left tcount := by
  have hsum := sum_update (Pc.left tcount) s.pc t x
  subst hpc
  simp only [Sys.left]
  omega

theorem wake_left (s : Sys n) (tcount : Nat) : s.wake.left tcount ≤ s.left tcount + 3 := by
  unfold Sys.wake
  split
  · next ha =>
    have hsum := sum_update (Pc.left tcount) s.pc (Fin.last n) .relock
    have hold : (s.pc (Fin.last n)).left tcount = 0 := by rw [ha]; rfl
    have hnew : Pc.relock.left tcount = 3 := rfl
    simp only [Sys.left, Sys.goto]
    omega
  · exact Nat.le_add_right _ _

theorem Sys.Inv.thread_left (h : s.Inv tcount limit) (hl : (s.pc t).live = true)
    (ha : s.pc t ≠ .asleep) (hm : s.mutex = none ∨ s.mutex = some t) :
    (s.step tcount limit (.thread t)).left tcount < s.left tcount := by
  have hknows := h.knows t
  have hfree : (s.pc t).inside = false → s.mutex = none := by
    intro hout
    refine hm.resolve_right fun hm => ?_
    rw [(h.held t).2 hm] at hout
    cases hout
  simp only [Sys.step]
  cases hpc : s.pc t with
  | idle | exited | watchExited =>
    rw [hpc] at hl
    cases hl
  | asleep => exact (ha hpc).elim
  | top i =>
    rw [hpc] at hknows
    refine left_update hpc ?_ _ _
    split <;>
    · simp only [Pc.left]
      omega
  | lock i =>
    simp only [Sys.thread, Sys.lock, hfree (by rw [hpc]; rfl)]
    exact left_update hpc (by simp only [Pc.left]; omega) _ _
  | load i => exact left_update hpc (by simp only [Pc.left]; omega) _ _
  | store i reg => exact left_update hpc (by simp only [Pc.left]; omega) _ _
  | check i =>
    refine left_update hpc ?_ _ _
    split <;>
    · simp only [Pc.left]
      omega
  | signal i =>
    have ht : t ≠ Fin.last n := h.works t (by rw [hpc]; rfl)
    have hw := wake_left s tcount
    have hsum := sum_update (Pc.left tcount) s.wake.pc t (.unlock i)
    have hold : (s.wake.pc t).left tcount = 8 * (7 * (tcount - (i + 1)) + 3) := by
      rw [wake_pc_other s ht, hpc]
      rfl
    have hnew : (Pc.unlock i).left tcount = 8 * (7 * (tcount - (i + 1)) + 2) := rfl
    simp only [Sys.left, Sys.thread, Sys.goto] at hw ⊢
    omega
  | unlock i =>
    rw [hpc] at hknows
    have hi : i < tcount := hknows
    exact left_update hpc (by simp only [Pc.left]; omega) _ _
  | watchLock | relock =>
    simp only [Sys.thread, Sys.lock, hfree (by rw [hpc]; rfl)]
    refine left_update hpc ?_ _ _
    exact Nat.lt_succ_self 2
  | test =>
    simp only [Sys.thread]
    split
    · refine left_update hpc ?_ _ _
      exact Nat.succ_pos 1
    · refine left_update hpc ?_ _ _
      exact Nat.lt_succ_self 1
  | watchUnlock =>
    refine left_update hpc ?_ _ _
    exact Nat.succ_pos 0

theorem create_left (h : s.Inv tcount limit) (hm : s.main = .create k) :
    (s.step tcount limit .main).left tcount < s.left tcount := by
  have hphase := h.phase
  rw [hm] at hphase
  simp only [Sys.step, Sys.mainStep, hm]
  split
  · next hk =>
    have hidle : (s.pc ⟨k, hk⟩).left tcount = 0 := by
      rw [(hphase ⟨k, hk⟩).2 (Nat.le_refl k)]
      rfl
    have hsum := sum_update (Pc.left tcount) s.pc ⟨k, hk⟩ (if k < n then .top 0 else .watchLock)
    have hnew : (if k < n then Pc.top 0 else Pc.watchLock).left tcount ≤ 56 * tcount + 8 := by
      split
      · simp only [Pc.left]
        omega
      · simp only [Pc.left]
        omega
    have hk' : n + 1 - k = n + 1 - (k + 1) + 1 := by omega
    have hmul : (n + 1 - k) * (56 * tcount + 12) =
        (n + 1 - (k + 1)) * (56 * tcount + 12) + (56 * tcount + 12) := by
      rw [hk', Nat.succ_mul]
    simp only [Sys.left, Sys.goto, MainPc.left, hm]
    omega
  · next hk =>
    simp only [Sys.left, MainPc.left, hm]
    omega

theorem join_left (hm : s.main = .join k)
    (hend : ∀ t, s.pc t = .exited ∨ s.pc t = .watchExited) (tcount limit : Nat) :
    (s.step tcount limit .main).left tcount < s.left tcount := by
  simp only [Sys.step, Sys.mainStep, hm, hend, if_true]
  split
  · simp only [Sys.left, MainPc.left, hm]
    omega
  · simp only [Sys.left, MainPc.left, hm]
    omega

theorem Sys.Inv.awake (h : s.Inv tcount limit) (hlim : limit ≤ n * tcount) (hm : s.mutex = none)
    (hend : ∀ t, t ≠ Fin.last n → s.pc t = .exited) : s.pc (Fin.last n) ≠ .asleep := by
  intro ha
  rcases h.asleep ha with hlt | hp
  · rw [h.count_of_ended hend (by rw [ha]; rfl)] at hlt
    exact Nat.not_lt.2 hlim hlt
  · obtain ⟨t, ht⟩ := pending_iff.1 hp
    have hin := (h.held t).1 (Pc.inside_of_pending ht)
    rw [hm] at hin
    cases hin

theorem Sys.Inv.progress (h : s.Inv tcount limit) (hlim : limit ≤ n * tcount) :
    s.main = .done ∨
      ∃ e, e ≠ .wake ∧ (s.step tcount limit e).left tcount < s.left tcount := by
  have hphase := h.phase
  cases hm : s.main with
  | create k => exact .inr ⟨.main, nofun, create_left h hm⟩
  | done => exact .inl rfl
  | join k =>
    rw [hm] at hphase
    refine .inr ?_
    cases hmut : s.mutex with
    | some t =>
      have hin := (h.held t).2 hmut
      refine ⟨.thread t, nofun, h.thread_left ?_ ?_ (.inr hmut)⟩
      · cases hpc : s.pc t with
        | idle | exited | watchExited =>
          rw [hpc] at hin
          cases hin
        | _ => rfl
      · intro ha
        rw [ha] at hin
        cases hin
    | none =>
      by_cases hlive : ∃ t, (s.pc t).live = true ∧ s.pc t ≠ .asleep
      · obtain ⟨t, hl, ha⟩ := hlive
        exact ⟨.thread t, nofun, h.thread_left hl ha (.inl hmut)⟩
      · -- everybody has ended, or is the watcher and asleep
        have hover : ∀ t, s.pc t = .exited ∨ s.pc t = .watchExited ∨ s.pc t = .asleep := by
          intro t
          have hn : ¬ ((s.pc t).live = true ∧ s.pc t ≠ .asleep) := fun ht => hlive ⟨t, ht⟩
          cases hpc : s.pc t with
          | exited => exact .inl rfl
          | watchExited => exact .inr (.inl rfl)
          | asleep => exact .inr (.inr rfl)
          | idle => exact ((hphase t).1 hpc).elim
          | _ =>
            rw [hpc] at hn
            exact (hn ⟨rfl, nofun⟩).elim
        have hworkers : ∀ t, t ≠ Fin.last n → s.pc t = .exited := by
          intro t ht
          rcases hover t with he | he | he
          · exact he
          · exact (ht (h.watches t (by rw [he]; rfl))).elim
          · exact (ht (h.watches t (by rw [he]; rfl))).elim
        have hawake := h.awake hlim hmut hworkers
        refine ⟨.main, nofun, join_left hm ?_ tcount limit⟩
        intro t
        rcases hover t with he | he | he
        · exact .inl he
        · exact .inr he
        · exact (hawake (h.watches t (by rw [he]; rfl) ▸ he)).elim

/-- No wake-up is lost and nothing deadlocks: from every state that the program comes to, it can
still run to the end of `main`, and without a wake-up that nobody has sent, exactly if the threads
together get to the limit. -/
theorem condvar_ends_iff (n tcount limit : Nat) (es : List (Ev n)) :
    (∃ es', .wake ∉ es' ∧ (run (Sys.step tcount limit) (Sys.start n) (es ++ es')).main = .done) ↔
      limit ≤ n * tcount := by
  constructor
  · rintro ⟨es', -, hdone⟩
    have hinv := inv_run n tcount limit (es ++ es')
    have hphase := hinv.phase
    rw [hdone] at hphase
    have hw := hinv.watcher_exited (hphase (Fin.last n))
    have hk := hinv.knows (Fin.last n)
    rw [hw] at hk
    have hcount := hinv.count_of_ended (fun t ht => hinv.worker_exited ht (hphase t))
      (by rw [hw]; rfl)
    exact hcount ▸ hk
  · intro hlim
    have hprog : ∀ s : Sys n, s.Inv tcount limit → s.main = .done ∨ ∃ e, (e == .wake) = false ∧
        (s.step tcount limit e).Inv tcount limit ∧
        (s.step tcount limit e).left tcount < s.left tcount := by
      intro s hs
      refine (hs.progress hlim).imp_right ?_
      rintro ⟨e, hne, he⟩
      exact ⟨e, beq_eq_false_iff_ne.2 hne, hs.step e, he⟩
    obtain ⟨es', hsaw, hdone⟩ := exists_run_of_progress (p := fun _ e => e == Ev.wake) _ _ _ hprog
      (inv_run n tcount limit es)
    refine ⟨es', ?_, ?_⟩
    · intro hmem
      cases (forall_of_saw hsaw .wake hmem).symm.trans (beq_self_eq_true _)
    · rw [run_append]
      exact hdone

end SysPrg.Condvar
