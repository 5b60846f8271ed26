import SysPrg.Sem2

namespace SysPrg.Sem2
set_option autoImplicit true
open SemLock

section
variable {stale : π → Bool} {s s₀ : Sys π Init} {o : Option π} {p : π}

def early : Pc Init → Bool
  | .init .create => true
  | pc => pc.over

/-- The process is over, or waits for the creator of the set to use it. -/
def waits : Pc Init → Bool
  | .init .create => true
  | .init .getExisting => true
  | .init (.statArg id) => id.isSome
  | .init (.poll id _ _) => id.isSome
  | .init (.nap id _ otime) => id.isSome && !otime
  | pc => pc.over

theorem early.waits {pc : Pc Init} (h : early pc = true) : waits pc = true := by
  cases pc with
  | init i =>
    cases i with
    | create => rfl
    | _ => cases h
  | _ => exact h

theorem waits.outside {pc : Pc Init} (h : waits pc = true) : pc.inside = false := by
  cases pc with
  | init | lock | exited | killed => rfl
  | _ => cases h

/-- While the creator has not initialised the set, nobody has used it and all others wait. -/
structure StartUp (s : Sys π Init) : Prop where
  absent : s.sem = none → ∀ q, early (s.pc q) = true
  creator : ∀ p id, s.pc p = .init (.setval id) →
    (∃ m, s.sem = some m ∧ m.otime = false) ∧ ∀ q, q ≠ p → waits (s.pc q) = true

theorem startUp_start (h : s₀.Start .create) : StartUp s₀ where
  absent := by
    intro _ q
    rw [h.pc q]
    rfl
  creator := by
    intro p id hp
    rw [h.pc p] at hp
    cases hp

theorem initStep_setval {sem : Option (SemSet π)} {id : Nat}
    (h : (initStep stale sem p i a).1 = .init (.setval id)) : i = .create ∧ sem = none := by
  cases i with
  | create =>
    cases a with
    | fail e => cases e <;> cases h
    | done k =>
      cases sem with
      | none => exact ⟨rfl, rfl⟩
      | some m => cases h
  | setval id' =>
    cases a with
    | fail e => cases h
    | done k =>
      simp only [initStep] at h
      split at h <;> cases h
  | getExisting => cases a <;> cases h
  | statArg => cases h
  | poll id' i otime =>
    have hpolled : ∀ otime', polled id' i otime' ≠ .init (.setval id) := by
      intro otime' hp
      cases otime' <;> cases hp
    cases a with
    | fail e => exact (hpolled _ h).elim
    | done k =>
      simp only [initStep] at h
      split at h
      · exact (hpolled _ h).elim
      · exact (hpolled _ h).elim
  | nap =>
    simp only [initStep] at h
    split at h <;> cases h

theorem waits_initStep {m : SemSet π} (stale : π → Bool) (hw : waits (.init i) = true)
    (ho : m.otime = false) (hids : Names (some m) (held i))
    (ha : refusedAt (.init i) a = false) (p : π) :
    waits (initStep stale (some m) p i a).1 = true ∧
      (initStep stale (some m) p i a).2 = some m := by
  cases i with
  | create =>
    cases a with
    | fail e => cases ha
    | done k => exact ⟨rfl, rfl⟩
  | setval id => cases hw
  | getExisting =>
    cases a with
    | fail e => cases ha
    | done k => exact ⟨rfl, rfl⟩
  | statArg id => exact ⟨hw, rfl⟩
  | poll id i otime =>
    cases a with
    | fail e => cases ha
    | done k =>
      cases id with
      | none => cases hw
      | some id =>
        obtain ⟨m', hm', -, hset⟩ := setOf_names hids
        cases hm'
        simp only [initStep, hset, ho, and_true]
        rfl
  | nap id i otime =>
    simp only [waits, Bool.and_eq_true] at hw
    simp only [initStep]
    split
    · exact ⟨hw.1, rfl⟩
    · exact ⟨rfl, rfl⟩

theorem initStep_keeps {sem : Option (SemSet π)} (h : (initStep stale sem p i a).2 = none) :
    sem = none := by
  cases sem with
  | none => rfl
  | some m =>
    cases i with
    | create =>
      cases a with
      | fail e => cases e <;> cases h
      | done k => cases h
    | setval id | poll id =>
      cases a with
      | fail e => cases h
      | done k =>
        simp only [initStep] at h
        split at h <;> cases h
    | getExisting => cases a <;> cases h
    | statArg => cases h
    | nap =>
      simp only [initStep] at h
      split at h <;> cases h

variable [DecidableEq π]

theorem goto_sem_none {pc : Pc Init} {sem : Option (SemSet π)}
    (h : (s.goto p pc sem).sem = none) : sem = none := by
  simp only [Sys.goto] at h
  split at h
  · exact Option.map_eq_none_iff.1 h
  · exact h

theorem step_sem_none (e : Ev π) (h : (step stale s e).sem = none) : s.sem = none := by
  rcases s.step_cases e (initStep stale) with hs | ⟨i, a, -, -, hs⟩ | ⟨pc, sem, hs, -, hsem⟩
  · rwa [step, hs] at h
  · rw [step, hs] at h
    exact initStep_keeps (goto_sem_none h)
  · rw [step, hs] at h
    exact hsem (goto_sem_none h)

/-- Before there is a set, an event can only create it or end a process. -/
theorem early_step (h : ∀ q, early (s.pc q) = true) (hnone : s.sem = none) (e : Ev π)
    (hr : refused s e = false) (hnone' : (step stale s e).sem = none) :
    early ((step stale s e).pc e.proc) = true := by
  have hp := h e.proc
  cases e with
  | die p =>
    simp only [step, Sys.step]
    split
    · exact hp
    · rw [Ev.proc, Sys.goto_pc_self]
      rfl
  | call p a =>
    simp only [Ev.proc] at hp ⊢
    simp only [step, Sys.step, Sys.call] at hnone' ⊢
    simp only [refused] at hr
    cases hpc : s.pc p with
    | init i =>
      rw [hpc] at hp hr hnone'
      cases i with
      | create =>
        cases a with
        | fail e => cases hr
        | done k =>
          simp only [initStep, hnone] at hnone'
          cases hnone'
      | _ => cases hp
    | exited | killed =>
      simp only [hpc]
      rfl
    | _ =>
      rw [hpc] at hp
      cases hp

theorem waits_step {m : SemSet π} (stale : π → Bool) (hinv : Inv held s o) (hm : s.sem = some m)
    (ho : m.otime = false) (e : Ev π) (hr : refused s e = false)
    (hw : waits (s.pc e.proc) = true) :
    waits ((step stale s e).pc e.proc) = true ∧
      ∃ m', (step stale s e).sem = some m' ∧ m'.otime = false := by
  cases e with
  | die p =>
    simp only [step, Sys.step]
    split
    · exact ⟨hw, m, hm, ho⟩
    · rw [Ev.proc, Sys.goto_pc_self, Sys.goto_of_over s p _ rfl, hm]
      exact ⟨rfl, m.exit p, rfl, ho⟩
  | call p a =>
    simp only [Ev.proc] at hw ⊢
    simp only [step, Sys.step, Sys.call]
    simp only [refused] at hr
    cases hpc : s.pc p with
    | init i =>
      have hids := hinv.ids p
      rw [hpc, hm] at hids
      rw [hpc] at hw hr
      obtain ⟨hw', hsem⟩ := waits_initStep stale hw ho hids hr p
      simp only [hm, Sys.goto_pc_self, hsem]
      refine ⟨hw', ?_⟩
      simp only [Sys.goto]
      split
      · exact ⟨m.exit p, rfl, ho⟩
      · exact ⟨m, rfl, ho⟩
    | exited | killed => exact ⟨by rw [hpc]; rfl, m, hm, ho⟩
    | _ =>
      rw [hpc] at hw
      cases hw

/-- The creation of the set, by a process that all others are then waiting for. -/
theorem StartUp.created (h : StartUp s) (hr : refusedAt (s.pc p) a = false)
    (hpc : s.pc p = .init i) {id : Nat}
    (hid : (initStep stale s.sem p i a).1 = .init (.setval id)) :
    (∃ m, (s.goto p (initStep stale s.sem p i a).1 (initStep stale s.sem p i a).2).sem = some m ∧
        m.otime = false) ∧ ∀ q, q ≠ p → waits (s.pc q) = true := by
  obtain ⟨rfl, hnone⟩ := initStep_setval hid
  constructor
  · cases a with
    | fail e =>
      rw [hpc] at hr
      cases hr
    | done k =>
      rw [hnone]
      exact ⟨.fresh k, rfl, rfl⟩
  · intro q _
    exact early.waits (h.absent hnone q)

theorem StartUp.step (h : StartUp s) (hinv : Inv held s o) (e : Ev π) (hr : refused s e = false) :
    StartUp (step stale s e) where
  absent := by
    intro hnone q
    have hnone₀ := step_sem_none e hnone
    by_cases hq : q = e.proc
    · rw [hq]
      exact early_step (h.absent hnone₀) hnone₀ e hr hnone
    · rw [Sem2.step, Sys.step_pc_other s hq]
      exact h.absent hnone₀ q
  creator := by
    intro p id hp
    by_cases hpe : p = e.proc
    · -- the event makes its process the creator, or is one of a creator that does not move
      subst hpe
      rcases s.step_cases e (initStep stale) with hs | ⟨i, a, he, hpc, hs⟩ | ⟨pc, sem, hs, hne, -⟩
      · rw [Sem2.step, hs] at hp ⊢
        exact h.creator _ id hp
      · rw [Sem2.step, hs, Sys.goto_pc_self] at hp
        rw [he, refused] at hr
        obtain ⟨hsem, hothers⟩ := h.created hr hpc hp
        rw [Sem2.step, hs]
        refine ⟨hsem, ?_⟩
        intro q hq
        rw [Sys.goto_pc_other s hq]
        exact hothers q hq
      · rw [Sem2.step, hs, Sys.goto_pc_self] at hp
        exact (hne _ hp).elim
    · rw [Sem2.step, Sys.step_pc_other s hpe] at hp
      obtain ⟨⟨m, hm, ho⟩, hothers⟩ := h.creator p id hp
      have hwe := hothers e.proc (Ne.symm hpe)
      obtain ⟨hw, hsem⟩ := waits_step stale hinv hm ho e hr hwe
      refine ⟨hsem, ?_⟩
      intro q hq
      by_cases hqe : q = e.proc
      · rw [hqe]
        exact hw
      · rw [Sem2.step, Sys.step_pc_other s hqe]
        exact hothers q hq

theorem run_startUp (h : s₀.Start .create) (hi : saw initialises (step stale) s₀ es = false)
    (hr : saw refused (step stale) s₀ es = false) :
    ∃ o, Inv held (run (step stale) s₀ es) o ∧ StartUp (run (step stale) s₀ es) := by
  have hboth : saw (fun s e => initialises s e || refused s e) (step stale) s₀ es = false := by
    rw [saw_or, hi, hr, Bool.or_false]
  apply run_invariant_of (fun s => ∃ o, Inv held s o ∧ StartUp s) _
    ⟨none, h.inv rfl, startUp_start h⟩ hboth
  rintro s e he ⟨o, hinv, hup⟩
  rw [Bool.or_eq_false_iff] at he
  obtain ⟨o', -, hinv'⟩ := inv_step hinv e he.1
  exact ⟨o', hinv', hup.step hinv e he.2⟩

theorem initialises_breaks [Fintype π] (stale : π → Bool) (hinv : Inv held s o) (h : StartUp s)
    (e : Ev π) (he : initialises s e = true) :
    (step stale s e).val = 1 ∧ (step stale s e).inside = ∅ := by
  cases e with
  | die p => cases he
  | call p a =>
    cases hpc : s.pc p with
    | init i =>
      rw [initialises, hpc] at he
      cases i with
      | setval id =>
        cases a with
        | fail e => cases he
        | done k =>
          have hids := hinv.ids p
          rw [hpc] at hids
          obtain ⟨m, -, -, hset⟩ := setOf_names hids
          have hstep : step stale s (.call p (.done k)) =
              s.goto p (.lock (some id)) (some (m.setval 1)) := by
            simp only [step, Sys.step, Sys.call, hpc, initStep, hset]
          rw [hstep]
          refine ⟨rfl, Finset.filter_false_of_mem ?_⟩
          intro q _ hq
          by_cases hqp : q = p
          · rw [hqp, Sys.goto_pc_self] at hq
            cases hq
          · rw [Sys.goto_pc_other s hqp, waits.outside ((h.creator p id hpc).2 q hqp)] at hq
            cases hq
      | _ => cases he
    | _ =>
      rw [initialises, hpc] at he
      cases he

end

section
variable [Fintype π] [DecidableEq π]

/-- In a run without a successful `initelement` the semaphore counts the processes in their critical
section, and whenever there is none the lock can be taken. Such runs are the only ones of this
kind, as long as `semget` and `semctl` do not fail on their own. -/
theorem init_agrees_iff (stale : π → Bool) {s₀ : Sys π Init} (h : s₀.Start .create)
    (es : List (Ev π)) :
    (saw initialises (step stale) s₀ es = false →
      (∀ pre, pre <+: es →
        (run (step stale) s₀ pre).val = (run (step stale) s₀ pre).inside.card) ∧
      ((run (step stale) s₀ es).inside = ∅ → ∀ p id k,
        (run (step stale) s₀ es).pc p = .lock (some id) →
          (step stale (run (step stale) s₀ es) (.call p (.done k))).pc p = .openFile id)) ∧
    (saw refused (step stale) s₀ es = false →
      (∀ pre, pre <+: es →
        (run (step stale) s₀ pre).val = (run (step stale) s₀ pre).inside.card) →
      saw initialises (step stale) s₀ es = false) := by
  constructor
  · intro hes
    constructor
    · rintro pre ⟨post, rfl⟩
      rw [saw_append, Bool.or_eq_false_iff] at hes
      obtain ⟨o, hinv⟩ := run_inv h hes.1
      exact hinv.val_eq.1
    · intro hempty p id k hpc
      obtain ⟨o, hinv⟩ := run_inv h hes
      cases o with
      | none => exact hinv.lock_enabled hpc k
      | some q =>
        have hq : q ∈ (run (step stale) s₀ es).inside :=
          Finset.mem_filter.2 ⟨Finset.mem_univ q, (hinv.inside q).2 rfl⟩
        rw [hempty] at hq
        exact (Finset.notMem_empty q hq).elim
  · intro hr hval
    by_contra hsaw
    rw [Bool.not_eq_false] at hsaw
    -- up to the first `initelement` that succeeds all processes wait, and it sets the value to 1
    obtain ⟨pre, e, post, rfl, hpre, he⟩ := exists_first_of_saw hsaw
    rw [saw_append, Bool.or_eq_false_iff] at hr
    obtain ⟨o, hinv, hup⟩ := run_startUp h hpre hr.1
    have hbreak := initialises_breaks stale hinv hup e he
    have hagree := hval (pre ++ [e]) ⟨post, by rw [List.append_assoc]; rfl⟩
    rw [run_snoc, hbreak.1, hbreak.2] at hagree
    cases hagree

def foundSet : Sys (Fin 1) Init := ⟨some ⟨7, 0, fun _ => 0, true⟩, fun _ => .init .create⟩

theorem init_agrees_found_set :
    (run (step fun _ => false) foundSet
        [.call 0 (.done 0), .call 0 (.done 0), .call 0 (.done 0), .call 0 (.done 0),
          .call 0 (.done 0)]).val = 1 := by
  have h : foundSet.Start .create := by
    refine ⟨fun _ => rfl, ?_⟩
    intro m hm
    cases hm
    exact ⟨rfl, fun _ => rfl⟩
  obtain ⟨hval, -⟩ := (init_agrees_iff (fun _ => false) h
    [.call 0 (.done 0), .call 0 (.done 0), .call 0 (.done 0), .call 0 (.done 0),
      .call 0 (.done 0)]).1 (by decide +kernel)
  exact (hval _ List.prefix_rfl).trans (by decide +kernel)

def initialised : Sys (Fin 1) Init :=
  run (step fun _ => false) ⟨none, fun _ => .init .create⟩ [.call 0 (.done 7), .call 0 (.done 0)]

/-- It then waits for ever for a lock that nobody holds. -/
theorem init_blocks_lock :
    initialised.val = 1 ∧ initialised.inside = ∅ ∧
      ∀ ks : List Nat, (run (step fun _ => false) initialised
        (ks.map (fun k => .call 0 (.done k)))).pc 0 = .lock (some 7) := by
  refine ⟨by decide +kernel, by decide +kernel, ?_⟩
  intro ks
  induction ks with
  | nil => rfl
  | cons k ks ih => exact ih

end

end SysPrg.Sem2
