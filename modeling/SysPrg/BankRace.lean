import SysPrg.Bank

namespace SysPrg.Bank
set_option autoImplicit true

/-- A value between what the withdrawals so far and what the deposits so far add up to. -/
def Sys.Within (n : Nat) (s : Sys) (r : Int) : Prop :=
  -((s.pc .withdraw).stored n : Int) ≤ r ∧ r ≤ (s.pc .deposit).stored n

/-- Without the lock a register may have an old value of `balance`, but one within the bounds that
there were then. -/
structure Sys.Bounded (n : Nat) (s : Sys) : Prop extends s.Placed n where
  balance : s.Within n s.balance
  reg : ∀ t i r, s.pc t = .store i r → s.Within n r

theorem start_bounded (n : Nat) : Sys.start.Bounded n where
  toPlaced := start_placed n
  balance := ⟨Int.le_refl 0, Int.le_refl 0⟩
  reg _ _ _ h := by cases h

section
variable {n : Nat} {s : Sys} {t : Thread}

theorem Sys.Within.step (hw : s.Within n r) (h : s.Placed n) (bad : Bool) (e : Ev) :
    (s.step bad n e).Within n r := by
  obtain ⟨hlow, hhigh⟩ := hw
  have hd := step_stored h bad .deposit e
  have hw := step_stored h bad .withdraw e
  constructor
  · rw [hw]
    omega
  · rw [hd]
    omega

theorem Sys.Within.store (hw : s.Within n r) (h : s.Placed n) (hpc : s.pc t = .store i r)
    (bad : Bool) : (s.step bad n (.thread t)).Within n (r + t.change) := by
  obtain ⟨hlow, hhigh⟩ := hw
  have hd := step_stored h bad .deposit (.thread t)
  have hw := step_stored h bad .withdraw (.thread t)
  simp only [stores, hpc] at hd hw
  cases t with
  | deposit =>
    simp only [decide_true, Bool.toNat_true] at hd
    simp only [Sys.Within, Thread.change, hd, hw]
    omega
  | withdraw =>
    simp only [decide_true, Bool.toNat_true] at hw
    simp only [Sys.Within, Thread.change, hd, hw]
    omega

theorem thread_values (bad : Bool) (n : Nat) (s : Sys) (t : Thread) :
    ((s.step bad n (.thread t)).balance = s.balance ∨
      ∃ i r, s.pc t = .store i r ∧ (s.step bad n (.thread t)).balance = r + t.change) ∧
    ∀ u i r, (s.step bad n (.thread t)).pc u = .store i r →
      s.pc u = .store i r ∨ r = s.balance := by
  have hgoto (x : Pc) (hx : ∀ i r, x = .store i r → r = s.balance) :
      ∀ u i r, Function.update s.pc t x u = .store i r → s.pc u = .store i r ∨ r = s.balance :=
    (Function.forall_update_iff s.pc fun u y => ∀ i r, y = .store i r →
      s.pc u = .store i r ∨ r = s.balance).2
      ⟨fun i r hr => .inr (hx i r hr), fun _ _ _ _ hr => .inl hr⟩
  simp only [Sys.step]
  cases hpc : s.pc t with
  | idle | returned => exact ⟨.inl rfl, fun _ _ _ hr => .inl hr⟩
  | loop i =>
    refine ⟨.inl rfl, hgoto _ ?_⟩
    intro j r hr
    repeat' split at hr
    all_goals cases hr
  | lock i =>
    simp only [Sys.thread]
    split
    · exact ⟨.inl rfl, hgoto _ (fun _ _ hr => (by cases hr))⟩
    · exact ⟨.inl rfl, fun _ _ _ hr => .inl hr⟩
  | load i =>
    refine ⟨.inl rfl, hgoto _ ?_⟩
    intro j r hr
    cases hr
    rfl
  | store i reg =>
    refine ⟨.inr ⟨i, reg, rfl, rfl⟩, hgoto _ ?_⟩
    intro j r hr
    split at hr
    · cases hr
    · cases hr
  | unlock i => exact ⟨.inl rfl, hgoto _ (fun _ _ hr => (by cases hr))⟩

theorem Sys.Bounded.thread (h : s.Bounded n) (bad : Bool) (t : Thread) :
    (s.step bad n (.thread t)).Bounded n := by
  obtain ⟨hbalance, hreg⟩ := thread_values bad n s t
  refine ⟨h.toPlaced.thread bad t, ?_, ?_⟩
  · rcases hbalance with hb | ⟨i, r, hpc, hb⟩
    · rw [hb]
      exact h.balance.step h.toPlaced bad _
    · rw [hb]
      exact (h.reg t i r hpc).store h.toPlaced hpc bad
  · intro u i r hr
    rcases hreg u i r hr with hpc | rfl
    · exact (h.reg u i r hpc).step h.toPlaced bad _
    · exact h.balance.step h.toPlaced bad _

theorem Sys.Bounded.step (h : s.Bounded n) (bad : Bool) (e : Ev) : (s.step bad n e).Bounded n := by
  cases e with
  | thread t => exact h.thread bad t
  | main =>
    obtain ⟨hbalance, -, hpc⟩ := main_keeps h.toPlaced
    refine ⟨h.toPlaced.mainStep, ?_, ?_⟩
    · have hb := h.balance.step h.toPlaced bad .main
      rwa [← hbalance] at hb
    · intro t i r hr
      rcases hpc t with ht | ⟨-, ht⟩
      · exact (h.reg t i r (ht ▸ hr)).step h.toPlaced bad .main
      · cases ht.symm.trans hr

end

/-- A turn of both threads in which `t` loads first and stores last. -/
def overtaken (t : Thread) : List Ev :=
  [.thread t, .thread t, .thread t.other, .thread t.other, .thread t.other, .thread t]

theorem Thread.other_ne (t : Thread) : t.other ≠ t := by
  cases t <;> decide

theorem Thread.update_both (f : Thread → α) (t : Thread) (x : α) :
    Function.update (Function.update f t.other x) t x = fun _ => x := by
  funext u
  cases t <;> cases u <;> rfl

theorem overtaken_run (hi : i < n) (t : Thread) (b : Int) (l : Option Thread) (m : MainPc) :
    run (Sys.step true n) ⟨b, l, fun _ => .loop i, m⟩ (overtaken t) =
      ⟨b + t.change, l, fun _ => .loop (i + 1), m⟩ := by
  simp [overtaken, run, Sys.step, Sys.thread, Sys.goto, hi, t.other_ne, t.other_ne.symm,
    Thread.update_both]

theorem overtaken_runs (t : Thread) (l : Option Thread) (m : MainPc) (hk : k ≤ n) :
    run (Sys.step true n) ⟨0, l, fun _ => .loop 0, m⟩ (List.replicate k (overtaken t)).flatten =
      ⟨k * t.change, l, fun _ => .loop k, m⟩ := by
  induction k with
  | zero => simp [run]
  | succ k ih =>
    rw [List.replicate_succ', List.flatten_append, List.flatten_singleton, run_append,
      ih (Nat.le_of_succ_le hk), overtaken_run hk, Int.natCast_succ, Int.add_mul, Int.one_mul]

/-- The whole program, with all updates of the other thread lost. -/
def allLost (n : Nat) (t : Thread) : List Ev :=
  [.main, .main] ++ (List.replicate n (overtaken t)).flatten ++
    [.thread .deposit, .thread .withdraw, .main, .main, .main]

theorem allLost_printed (n : Nat) (t : Thread) :
    (run (Sys.step true n) .start (allLost n t)).main = .printed (n * t.change) := by
  have hstart : run (Sys.step true n) .start [.main, .main] =
      ⟨0, none, fun _ => .loop 0, .join .deposit⟩ := by
    have hboth := Thread.update_both (fun _ => Pc.idle) .withdraw (.loop 0)
    exact congrArg (Sys.mk 0 none · (.join .deposit)) hboth
  rw [allLost, run_append, run_append, hstart, overtaken_runs t _ _ (Nat.le_refl n)]
  simp [run, Sys.step, Sys.thread, Sys.mainStep, Sys.goto]

theorem racy_balance_bounds (n : Nat) :
    (∀ es, -(tally (stores .withdraw) (Sys.step true n) .start es : Int) ≤
        (run (Sys.step true n) .start es).balance ∧
      (run (Sys.step true n) .start es).balance ≤
        tally (stores .deposit) (Sys.step true n) .start es ∧
      ∀ b, (run (Sys.step true n) .start es).main = .printed b → -n ≤ b ∧ b ≤ n) ∧
    (∃ es, (run (Sys.step true n) .start es).main = .printed n) ∧
    ∃ es, (run (Sys.step true n) .start es).main = .printed (-n) := by
  refine ⟨?_, ⟨allLost n .deposit, ?_⟩, ⟨allLost n .withdraw, ?_⟩⟩
  · intro es
    have hrun : (run (Sys.step true n) .start es).Bounded n :=
      run_invariant (Sys.Bounded n) (fun _ e h => h.step true e) (start_bounded n) es
    obtain ⟨hlow, hhigh⟩ := hrun.balance
    have hd := Pc.stored_le (hrun.range .deposit)
    have hw := Pc.stored_le (hrun.range .withdraw)
    rw [run_stored] at hlow hhigh hd hw
    refine ⟨hlow, hhigh, ?_⟩
    intro b hm
    rw [(hrun.printed hm).1]
    omega
  · rw [allLost_printed, Thread.change, Int.mul_one]
  · rw [allLost_printed, Thread.change, Int.mul_neg, Int.mul_one]

end SysPrg.Bank
