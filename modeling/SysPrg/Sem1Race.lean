import SysPrg.Sem1

namespace SysPrg.Sem1
set_option autoImplicit true
open SemLock

/-- A `semget` fails on its own, and not because of what the others have done. -/
def refused (s : Sys π Init) : Ev π → Bool
  | .call p (.fail _) =>
    match s.pc p with
    | .init _ => true
    | _ => false
  | _ => false

/-- The exclusive creation of a set that another process has made in the meantime. -/
def raced (s : Sys π Init) : Ev π → Bool
  | .call p (.done _) =>
    match s.pc p, s.sem with
    | .init .create, some _ => true
    | _, _ => false
  | _ => false

/-- The process has exited because of `semget`, or is bound to: both ways on from the second `get`
are failures. -/
def lost : Pc Init → Bool
  | .init .getAgain => true
  | .exited (some err) _ => err == "semget failure 1" || err == "semget failure 2"
  | _ => false

def calls [DecidableEq π] (p : π) : Ev π → Bool
  | .call q _ => q = p
  | .die _ => false

section
variable {s s₀ : Sys π Init} {p : π}

theorem critical_not_lost (pc : Pc Init) (a : Answer) (h : lost pc = false) :
    lost (critical pc a) = false := by
  cases pc with
  | openFile | date | write => cases a <;> rfl
  | closeFailed | sleep | close => rfl
  | _ => exact h

theorem initStep_lost (sem : Option (SemSet π)) (hi : i ≠ .getAgain) (k : Nat) :
    lost (initStep sem p i (.done k)).1 =
      match i, sem with
      | .create, some _ => true
      | _, _ => false := by
  cases i with
  | get => cases sem <;> rfl
  | create => cases sem <;> rfl
  | getAgain => exact (hi rfl).elim

theorem raced_eq_false (h : ∀ i, s.pc p ≠ .init i) (a : Answer) :
    raced s (.call p a) = false := by
  cases a with
  | fail e => rfl
  | done k =>
    simp only [raced]
    split
    · next hpc _ => exact (h _ hpc).elim
    · rfl

theorem initStep_set (m : SemSet π) (p : π) (i : Init) (a : Answer) :
    (initStep (some m) p i a).2 = some m := by
  cases i with
  | get => cases a <;> rfl
  | create =>
    cases a with
    | done k => rfl
    | fail e => cases e <;> rfl
  | getAgain => cases a <;> rfl

variable [DecidableEq π]

theorem rSemop_not_lost (s : Sys π Init) (p : π) (id : Option Nat) (os : List SemBuf) (a : Answer)
    {ok : SemSet π → Pc Init} {failed : Pc Init} (hp : lost (s.pc p) = false)
    (hok : ∀ m, lost (ok m) = false) (hfailed : lost failed = false) :
    lost ((s.rSemop p id os a ok failed).pc p) = false := by
  unfold Sys.rSemop
  split
  · exact hp
  · exact hp
  · rw [Sys.goto_pc_self]
    exact hfailed
  · rw [Sys.goto_pc_self]
    exact hok _

theorem call_not_lost (hpc : ∀ i, s.pc p ≠ .init i) (hp : lost (s.pc p) = false) (a : Answer) :
    lost ((step s (.call p a)).pc p) = false := by
  simp only [step, Sys.step, Sys.call]
  cases h : s.pc p with
  | init i => exact (hpc i h).elim
  | lock | unlock | unlockFailed => exact rSemop_not_lost s p _ _ a hp (fun _ => rfl) rfl
  | exited | killed => exact hp
  | openFile | date | write | closeFailed | sleep | close =>
    rw [Sys.goto_pc_self]
    exact critical_not_lost _ a (h ▸ hp)

/-- Only a raced creation makes a process lose. -/
theorem lost_step (e : Ev π) (he : refused s e = false) (hp : lost (s.pc e.proc) = false) :
    lost ((step s e).pc e.proc) = raced s e := by
  cases e with
  | die p =>
    simp only [step, Sys.step, Ev.proc] at hp ⊢
    split
    · exact hp
    · rw [Sys.goto_pc_self]
      rfl
  | call p a =>
    simp only [Ev.proc] at hp ⊢
    cases hpc : s.pc p with
    | init i =>
      rw [hpc] at hp
      cases a with
      | fail e =>
        simp only [refused, hpc] at he
        cases he
      | done k =>
        have hi : i ≠ .getAgain := by
          rintro rfl
          cases hp
        simp only [step, Sys.step, Sys.call, hpc, Sys.goto_pc_self, initStep_lost s.sem hi, raced]
        cases i <;> cases s.sem <;> rfl
    | _ =>
      have hnot : ∀ i, s.pc p ≠ .init i := by
        intro i hi
        rw [hpc] at hi
        cases hi
      rw [raced_eq_false hnot]
      exact call_not_lost hnot hp a

theorem all_lost_step (e : Ev π) (he : refused s e = false) (h : ∀ p, lost (s.pc p) = false) :
    (∀ p, lost ((step s e).pc p) = false) ↔ raced s e = false := by
  have hlost := lost_step e he (h e.proc)
  constructor
  · intro hall
    rw [← hlost]
    exact hall e.proc
  · intro hr q
    by_cases hq : q = e.proc
    · rw [hq, hlost]
      exact hr
    · rw [step, Sys.step_pc_other s hq]
      exact h q

theorem goto_set (s : Sys π Init) (p : π) (pc : Pc Init) (m : SemSet π) :
    ∃ m', (s.goto p pc (some m)).sem = some m' ∧ m'.id = m.id := by
  simp only [Sys.goto]
  split
  · exact ⟨m.exit p, rfl, rfl⟩
  · exact ⟨m, rfl, rfl⟩

theorem rSemop_set {m : SemSet π} (hm : s.sem = some m) (p : π) (id : Option Nat)
    (os : List SemBuf) (a : Answer) (ok : SemSet π → Pc Init) (failed : Pc Init) :
    ∃ m', (s.rSemop p id os a ok failed).sem = some m' ∧ m'.id = m.id := by
  unfold Sys.rSemop
  split
  · exact ⟨m, hm, rfl⟩
  · exact ⟨m, hm, rfl⟩
  · rw [hm]
    exact goto_set s p failed m
  · next m₁ hdone =>
    obtain ⟨m₂, hm₂, -, hop⟩ := semopOn_done hdone
    rw [hm] at hm₂
    cases hm₂
    obtain ⟨m', hm', hid⟩ := goto_set s p (ok m₁) m₁
    exact ⟨m', hm', hid.trans (SemSet.semop_id hop)⟩

theorem step_set {m : SemSet π} (hm : s.sem = some m) (e : Ev π) :
    ∃ m', (step s e).sem = some m' ∧ m'.id = m.id := by
  cases e with
  | die p =>
    simp only [step, Sys.step]
    split
    · exact ⟨m, hm, rfl⟩
    · rw [hm]
      exact goto_set s p .killed m
  | call p a =>
    simp only [step, Sys.step, Sys.call]
    cases s.pc p with
    | init i =>
      simp only [hm, initStep_set]
      exact goto_set s p _ m
    | lock | unlock | unlockFailed => exact rSemop_set hm p _ _ a _ _
    | exited | killed => exact ⟨m, hm, rfl⟩
    | openFile | date | write | closeFailed | sleep | close =>
      simp only [hm]
      exact goto_set s p _ m

theorem run_set {m : SemSet π} (hm : s.sem = some m) (es : List (Ev π)) :
    ∃ m', (run step s es).sem = some m' ∧ m'.id = m.id := by
  apply run_invariant (fun t : Sys π Init => ∃ m', t.sem = some m' ∧ m'.id = m.id) _ ⟨m, hm, rfl⟩
  rintro s e ⟨m₁, hm₁, hid⟩
  obtain ⟨m₂, hm₂, hid'⟩ := step_set hm₁ e
  exact ⟨m₂, hm₂, hid'.trans hid⟩

def AtLock (p : π) (s : Sys π Init) : Prop :=
  ∃ m, s.sem = some m ∧ s.pc p = .lock (some m.id)

/-- What keeps a process from its lock: its end, a `semget` that fails on its own, or a race. -/
def stopped (p : π) (s : Sys π Init) (e : Ev π) : Bool :=
  refused s e || raced s e || e == .die p

def todo : Pc Init → Nat
  | .init .get => 1
  | _ => 0

def Getting (p : π) (s : Sys π Init) : Prop := s.pc p = .init .get ∨ s.pc p = .init .create

theorem getting_call (k : Nat) (h : Getting p s) (hrace : raced s (.call p (.done k)) = false) :
    AtLock p (step s (.call p (.done k))) ∨ Getting p (step s (.call p (.done k))) ∧
      todo ((step s (.call p (.done k))).pc p) < todo (s.pc p) := by
  simp only [step, Sys.step, Sys.call]
  rcases h with hpc | hpc
  · simp only [hpc, initStep]
    cases hm : s.sem with
    | none => exact .inr ⟨.inr (Sys.goto_pc_self ..), by simp only [Sys.goto_pc_self]; decide⟩
    | some m => exact .inl ⟨m, rfl, Sys.goto_pc_self ..⟩
  · simp only [raced, hpc] at hrace
    simp only [hpc, initStep]
    cases hm : s.sem with
    | none => exact .inl ⟨.fresh k, rfl, Sys.goto_pc_self ..⟩
    | some m =>
      rw [hm] at hrace
      cases hrace

theorem getting_step (p : π) (s : Sys π Init) (e : Ev π) (he : stopped p s e = false)
    (h : Getting p s) : AtLock p (step s e) ∨
      Getting p (step s e) ∧ todo ((step s e).pc p) + (calls p e).toNat ≤ todo (s.pc p) := by
  simp only [stopped, Bool.or_eq_false_iff] at he
  obtain ⟨⟨hr, hrace⟩, hdie⟩ := he
  by_cases hp : p = e.proc
  · cases e with
    | die q =>
      simp only [Ev.proc] at hp
      simp [hp] at hdie
    | call q a =>
      simp only [Ev.proc] at hp
      subst hp
      cases a with
      | fail e =>
        rcases h with hpc | hpc
        · simp [refused, hpc] at hr
        · simp [refused, hpc] at hr
      | done k =>
        simp only [calls, decide_true, Bool.toNat_true]
        exact getting_call k h hrace
  · have hpc : (step s e).pc p = s.pc p := Sys.step_pc_other s hp _
    have hcalls : calls p e = false := by
      cases e with
      | die q => rfl
      | call q a => exact decide_eq_false (fun he => hp he.symm)
    refine .inr ⟨?_, ?_⟩
    · rwa [Getting, hpc]
    · rw [hpc, hcalls]
      exact Nat.le_refl _

/-- No process ever loses exactly when none comes late with its creation. Then every process that
makes two calls, and does not die, gets to the lock with the id of the one set. -/
theorem creation_race_iff (h : ∀ p, s₀.pc p = .init .get) (es : List (Ev π))
    (hes : saw refused step s₀ es = false) :
    ((∀ pre, pre <+: es → ∀ p, lost ((run step s₀ pre).pc p) = false) ↔
      saw raced step s₀ es = false) ∧
    (saw raced step s₀ es = false → ∀ p, .die p ∉ es → 2 ≤ es.countP (calls p) →
      ∃ pre id m, pre <+: es ∧ (run step s₀ pre).pc p = .lock (some id) ∧
        (run step s₀ es).sem = some m ∧ m.id = id) := by
  constructor
  · apply all_states_iff (fun s => ∀ p, lost (s.pc p) = false)
      (fun s => ∀ p, lost (s.pc p) = false) (fun _ hall => hall) _ _ _ hes
    · intro s e he hr hall
      exact (all_lost_step e he hall).2 hr
    · intro s e he hr hall hall'
      rw [(all_lost_step e he hall).1 hall'] at hr
      cases hr
    · intro p
      rw [h p]
      rfl
  · intro hr p hdie hn
    have hstop : saw (stopped p) step s₀ es = false := by
      have hnot : saw (fun _ e => e == .die p) step s₀ es = false := by
        apply saw_eq_false_of_forall
        intro e he _
        exact beq_false_of_ne (fun hd => hdie (hd ▸ he))
      unfold stopped
      rw [saw_or, saw_or, hes, hr, hnot]
      rfl
    have htodo : todo (s₀.pc p) < es.countP (calls p) := by
      rw [h p]
      exact hn
    obtain ⟨pre, ⟨post, rfl⟩, m, hm, hpc⟩ := run_reaches (Getting p) (AtLock p) (calls p)
      (fun s => todo (s.pc p)) (getting_step p) (.inl (h p)) hstop htodo
    obtain ⟨m', hm', hid⟩ := run_set hm post
    exact ⟨pre, m.id, m', List.prefix_append _ _, hpc, by rw [run_append]; exact hm', hid⟩

end

/-- One process after the other, the second one with the set that the first has made. -/
theorem creation_one_by_one :
    ∃ pre id m, pre <+: [.call 0 (.done 0), .call 0 (.done 7), .call 1 (.done 0),
        .call 1 (.done 0)] ∧
      (run step twoProcs pre).pc 1 = .lock (some id) ∧
      (run step twoProcs [.call 0 (.done 0), .call 0 (.done 7), .call 1 (.done 0),
        .call 1 (.done 0)]).sem = some m ∧ m.id = id := by
  have h : ∀ p, twoProcs.pc p = .init .get := fun _ => rfl
  obtain ⟨-, hlock⟩ := creation_race_iff h [.call 0 (.done 0), .call 0 (.done 7),
    .call 1 (.done 0), .call 1 (.done 0)] (by decide +kernel)
  exact hlock (by decide +kernel) 1 (by decide +kernel) (by decide +kernel)

/-- The set is made between the first `semget` of the second process and its creation, and the
process, whose last `semget` succeeds, exits with a failure. -/
theorem creation_race_lost :
    (run step twoProcs [.call 0 (.done 0), .call 1 (.done 0), .call 0 (.done 7), .call 1 (.done 8),
      .call 1 (.done 0)]).pc 1 = .exited (some "semget failure 2") 1 := by
  decide +kernel

end SysPrg.Sem1
