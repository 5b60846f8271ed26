import SysPrg.TSig

namespace SysPrg.TSig
set_option autoImplicit true

/-- A signal comes that `main` has not blocked, or one of its calls fails. -/
def Proc.loud (p : Proc) (e : Ev) : Bool :=
  match e with
  | .kill n => !(p.main.masked && sigset n)
  | .step .main (.fail _) => true
  | _ => false

/-- In a process that meets nothing of that kind, only worker 1 is in a handler, that of the fault
it was asked for. -/
structure Quiet (opt : Option Int) (p : Proc) : Prop where
  inv : Inv p
  pending : ∀ n ∈ p.pending, sigset n = true
  handling : ∀ t th, p.threads t = some th → th.handling = [] ∨
    t = .created 1 ∧ opt = some 1 ∧ ∃ reset, th.handling = [(sigsegv, reset)]
  handlers : p.handlers ++ p.main.rest = synchronous ∨
    ∃ th, p.threads (.created 1) = some th ∧ th.handling = [(sigsegv, true)]
  left : p.left 1 ≤ 2000
  status : p.status = .running ∨ opt = some 1 ∧ p.status = .exited 1

namespace Quiet

theorem start (opt : Option Int) : Quiet opt .start where
  inv := .start
  pending := nofun
  handling t th ht := by
    cases t with
    | main =>
      cases ht
      exact .inl rfl
    | created t => cases ht
  handlers := .inl rfl
  left := Nat.le_refl _
  status := .inl rfl

theorem deliver_eq (h : Quiet opt p) (ht : p.threads t = some th) : p.deliver t th n = p := by
  unfold Proc.deliver
  split
  case isTrue hn =>
    cases (h.pending n hn.1).symm.trans (h.inv.sigset_of_deliver ht hn.1 hn.2)
  case isFalse => rfl

theorem rest_of_created (h : Quiet opt p) (ht : p.threads (.created t) = some th) :
    p.main.rest = [] ∧ t < p.main.next := by
  have hlt : t < p.main.next := by
    rw [← Nat.not_le]
    intro hle
    cases (h.inv.fresh t hle).symm.trans ht
  refine ⟨?_, hlt⟩
  cases hm : p.main with
  | create | pause | attr => rfl
  | _ =>
    rw [hm] at hlt
    exact (Nat.not_lt_zero t hlt).elim

theorem blocks_sigsegv (h : Quiet opt p) (ht : p.threads t = some th) (hth : th.handling = []) :
    th.blocks sigsegv = false := by
  rw [Thread.blocks, hth, (h.inv.threads t th ht).1]
  cases p.main <;> rfl

theorem sigsegv_mem (h : Quiet opt p) (ht : p.threads (.created 1) = some th)
    (hth : th.handling = []) : sigsegv ∈ p.handlers := by
  rcases h.handlers with hall | ⟨th', ht', hth'⟩
  · rw [(h.rest_of_created ht).1, List.append_nil] at hall
    rw [hall]
    exact List.mem_cons_self
  · cases ht.symm.trans ht'
    cases hth.symm.trans hth'

theorem work_fault (h : Quiet (some 1) p) (ht : p.threads (.created 1) = some th)
    (hth : th.handling = []) (hleft : p.left 1 = 0) :
    p.work (some 1) 1 th =
      p.setThread (.created 1) (some { th with handling := [(sigsegv, false)] }) := by
  unfold Proc.work
  rw [hleft]
  simp only [true_and, if_true, h.blocks_sigsegv ht hth, Bool.false_eq_true, if_false]
  rw [Proc.act, if_pos (h.sigsegv_mem ht hth), hth]

theorem fatalSigsHandler_reset (ht : th.handling = [(sigsegv, true)]) (p : Proc) :
    p.fatalSigsHandler t th sigsegv true [] = p.exit := by
  have hblocks : th.blocks sigsegv = true := by
    rw [Thread.blocks, ht]
    exact Bool.or_true _
  rw [Proc.fatalSigsHandler, if_pos rfl, if_pos hblocks]

theorem frame (h : Quiet opt p) (hinv : Inv p') (hpending : p'.pending = p.pending)
    (hleft : p'.left 1 ≤ p.left 1) (hstatus : p'.status = p.status)
    (hhandlers : p'.handlers ++ p'.main.rest = p.handlers ++ p.main.rest)
    (hthreads : ∀ t th', p'.threads t = some th' →
      th'.handling = [] ∨ ∃ th, p.threads t = some th ∧ th.handling = th'.handling)
    (hone : ∀ th, p.threads (.created 1) = some th → th.handling ≠ [] →
      p'.threads (.created 1) = some th) : Quiet opt p' where
  inv := hinv
  pending := hpending ▸ h.pending
  handling t th' ht' := by
    rcases hthreads t th' ht' with hnil | ⟨th, ht, hth⟩
    · exact .inl hnil
    · rw [← hth]
      exact h.handling t th ht
  handlers := by
    rcases h.handlers with hall | ⟨th, ht, hth⟩
    · exact .inl (hhandlers.trans hall)
    · exact .inr ⟨th, hone th ht (by rw [hth]; nofun), hth⟩
  left := hleft.trans h.left
  status := hstatus ▸ h.status

theorem mainStep (h : Quiet opt p) (hopt : opt = some 0 ∨ opt = some 1)
    (ht : p.threads .main = some th) : Quiet opt (p.mainStep opt th (.done k)) := by
  have hinv : Inv (p.mainStep opt th (.done k)) := h.inv.mainStep ht
  have hkeep : ∀ t th', p.threads t = some th' →
      th'.handling = [] ∨ ∃ th, p.threads t = some th ∧ th.handling = th'.handling :=
    fun t th' ht' => .inr ⟨th', ht', rfl⟩
  cases hm : p.main with
  | args =>
    simp only [Proc.mainStep, hm, if_pos hopt] at hinv ⊢
    exact h.frame hinv rfl (Nat.le_refl _) rfl (by rw [hm]; rfl) hkeep fun _ h1 _ => h1
  | sigmask =>
    have hne : Tid.created 1 ≠ .main := nofun
    simp only [Proc.mainStep, hm] at hinv ⊢
    refine h.frame hinv rfl (Nat.le_refl _) rfl (by rw [hm]; rfl) ?_ ?_
    · apply forall_setThread hkeep
      intro th' hth'
      cases hth'
      exact .inr ⟨th, ht, rfl⟩
    · intro th' h1 _
      exact (setThread_of_ne p (some { th with blocked := sigset }) hne).trans h1
  | altstack =>
    simp only [Proc.mainStep, hm] at hinv ⊢
    exact h.frame hinv rfl (Nat.le_refl _) rfl (by rw [hm]; rfl) hkeep fun _ h1 _ => h1
  | sigaction rest =>
    cases rest with
    | nil =>
      simp only [Proc.mainStep, hm] at hinv ⊢
      exact h.frame hinv rfl (Nat.le_refl _) rfl (by rw [hm]; rfl) hkeep fun _ h1 _ => h1
    | cons n rest =>
      simp only [Proc.mainStep, hm] at hinv ⊢
      refine h.frame hinv rfl (Nat.le_refl _) rfl ?_ hkeep fun _ h1 _ => h1
      rw [hm]
      exact List.append_assoc ..
  | attr =>
    simp only [Proc.mainStep, hm] at hinv ⊢
    exact h.frame hinv rfl (Nat.le_refl _) rfl (by rw [hm]; rfl) hkeep fun _ h1 _ => h1
  | create t =>
    simp only [Proc.mainStep, hm] at hinv ⊢
    refine h.frame hinv rfl (Nat.le_refl _) rfl ?_ ?_ ?_
    · rw [hm]
      split <;> rfl
    · apply forall_setThread hkeep
      intro th' hth'
      cases hth'
      exact .inl rfl
    · intro th' h1 _
      have hlt : 1 < t := by
        have hnext := (h.rest_of_created h1).2
        rwa [hm] at hnext
      have hne : Tid.created 1 ≠ .created t := by
        intro he
        cases he
        exact Nat.lt_irrefl 1 hlt
      exact (setThread_of_ne p _ hne).trans h1
  | pause =>
    simp only [Proc.mainStep, hm]
    exact h

theorem work (h : Quiet opt p) (ht : p.threads (.created t) = some th) (hth : th.handling = []) :
    Quiet opt (p.work opt t th) := by
  by_cases hfault : (t = 1 ∧ opt = some 1) ∧ p.left t = 0
  · obtain ⟨⟨rfl, rfl⟩, hleft⟩ := hfault
    have hinv : Inv (p.work (some 1) 1 th) := h.inv.work ht
    rw [h.work_fault ht hth hleft] at hinv ⊢
    refine ⟨hinv, h.pending, forall_setThread h.handling ?_, ?_, h.left, h.status⟩
    · intro th' hth'
      cases hth'
      exact .inr ⟨rfl, rfl, false, rfl⟩
    · rcases h.handlers with hall | ⟨th', ht', hth'⟩
      · exact .inl hall
      · cases ht.symm.trans ht'
        cases hth.symm.trans hth'
  · have hinv : Inv (p.work opt t th) := h.inv.work ht
    have hkeep : ∀ t th', p.threads t = some th' →
        th'.handling = [] ∨ ∃ th, p.threads t = some th ∧ th.handling = th'.handling :=
      fun t th' ht' => .inr ⟨th', ht', rfl⟩
    revert hinv
    unfold Proc.work
    split <;> intro hinv
    case h_1 left hleft =>
      refine h.frame hinv rfl ?_ rfl rfl hkeep fun _ h1 _ => h1
      show Function.update p.left t left 1 ≤ p.left 1
      by_cases ht1 : 1 = t
      · subst ht1
        rw [Function.update_self, hleft]
        exact Nat.le_succ left
      · rw [Function.update_of_ne ht1]
    case h_2 hleft =>
      rw [if_neg fun hf => hfault ⟨hf, hleft⟩] at hinv ⊢
      refine h.frame hinv rfl (Nat.le_refl _) rfl rfl (forall_setThread hkeep nofun) ?_
      intro th' h1 hne
      have hneq : Tid.created 1 ≠ .created t := by
        intro he
        cases he
        cases ht.symm.trans h1
        exact hne hth
      exact (setThread_of_ne p _ hneq).trans h1

theorem fatalSigsHandler (h : Quiet opt p) (ht : p.threads t = some th)
    (hth : th.handling = (n, reset) :: outer) :
    Quiet opt (p.fatalSigsHandler t th n reset outer) := by
  have hinv := h.inv.fatalSigsHandler ht hth
  rcases h.handling t th ht with hnil | ⟨rfl, hopt, reset', hone⟩
  · cases hth.symm.trans hnil
  · cases hth.symm.trans hone
    cases reset with
    | true =>
      rw [fatalSigsHandler_reset hone]
      exact ⟨h.inv.exit, h.pending, h.handling, h.handlers, h.left, .inr ⟨hopt, rfl⟩⟩
    | false =>
      refine ⟨hinv, h.pending, forall_setThread h.handling ?_, ?_, h.left, h.status⟩
      · intro th' hth'
        cases hth'
        exact .inr ⟨rfl, hopt, true, rfl⟩
      · exact .inr ⟨{ th with handling := [(sigsegv, true)] },
          setThread_self p (.created 1) (some { th with handling := [(sigsegv, true)] }), rfl⟩

theorem threadStep (h : Quiet opt p) (hopt : opt = some 0 ∨ opt = some 1)
    (ht : p.threads t = some th) (he : p.loud (.step t a) = false) :
    Quiet opt (p.threadStep opt t th a) := by
  unfold Proc.threadStep
  split
  case h_1 hth => exact h.fatalSigsHandler ht hth
  case h_2 =>
    cases a with
    | done k => exact h.mainStep hopt ht
    | fail e => cases he
  case h_3 => exact h
  case h_4 hth => exact h.work ht hth

theorem kill (h : Quiet opt p) (he : p.loud (.kill n) = false) : Quiet opt (p.kill n) := by
  simp only [Proc.loud, Bool.not_eq_false', Bool.and_eq_true] at he
  have hinv : Inv (p.kill n) := h.inv.kill he.1
  have hflush : ∀ m ∈ flush p.pending n, sigset m = true :=
    fun m hm => h.pending m ((flush_sublist p.pending n).subset hm)
  revert hinv
  unfold Proc.kill
  split
  case isTrue => exact fun _ => h
  case isFalse =>
    split
    case isTrue hkill =>
      rw [hkill] at he
      cases he.2
    case isFalse =>
      split <;> intro hinv
      · refine { h with inv := hinv, pending := ?_ }
        intro m hm
        rcases List.mem_append.1 hm with hm | hm
        · exact hflush m hm
        · rw [List.mem_singleton.1 hm]
          exact he.2
      · exact { h with inv := hinv, pending := hflush }

theorem step (h : Quiet opt p) (hopt : opt = some 0 ∨ opt = some 1) (he : p.loud e = false) :
    Quiet opt (p.step opt e) := by
  unfold Proc.step
  split
  case isFalse => exact h
  case isTrue =>
    cases e with
    | step t a =>
      simp only [Proc.next]
      cases ht : p.threads t with
      | none => exact h
      | some th => exact h.threadStep hopt ht he
    | sigwait pick =>
      simp only [Proc.next]
      cases p.threads (.created 0) with
      | none => exact h
      | some th =>
        have hinv : Inv (p.sigwait th pick) := h.inv.sigwait
        revert hinv
        simp only [Option.elim_some, Proc.sigwait]
        split <;> intro hinv
        · exact { h with
            inv := hinv
            pending := fun n hn => h.pending n (List.mem_of_mem_erase hn) }
        · exact h
    | deliver t n =>
      simp only [Proc.next]
      cases ht : p.threads t with
      | none => exact h
      | some th =>
        rw [Option.elim_some, h.deliver_eq ht]
        exact h
    | kill n => exact h.kill he

end Quiet

def Proc.worker (p : Proc) : Option Thread × Nat := (p.threads (.created 1), p.left 1)

theorem setThread_worker (p : Proc) (o : Option Thread) :
    (p.setThread (.created 1) o).worker = (o, p.left 1) :=
  Prod.ext (setThread_self p (.created 1) o) rfl

theorem mainStep_worker (h : Quiet opt p) (h1 : p.threads (.created 1) = some th') :
    (p.mainStep opt th a).worker = p.worker := by
  have hmain : Tid.created 1 ≠ .main := nofun
  unfold Proc.mainStep
  split
  case h_1 => split <;> rfl
  case h_5 =>
    exact Prod.ext (setThread_of_ne p (some { th with blocked := sigset }) hmain) rfl
  case h_9 t _ hm =>
    have hlt : 1 < t := by
      have hnext := (h.rest_of_created h1).2
      rwa [hm] at hnext
    have hne : Tid.created 1 ≠ .created t := fun he => by
      cases he
      exact Nat.lt_irrefl 1 hlt
    exact Prod.ext (setThread_of_ne p _ hne) rfl
  all_goals rfl

theorem work_worker (p : Proc) (ht : t ≠ 1) : (p.work opt t th).worker = p.worker := by
  have hne : Tid.created 1 ≠ .created t := fun he => by
    cases he
    exact ht rfl
  unfold Proc.work
  split
  · exact Prod.ext rfl (Function.update_of_ne ht.symm ..)
  · rw [if_neg fun hf => ht hf.1]
    exact Prod.ext (setThread_of_ne p _ hne) rfl

theorem kill_worker (p : Proc) (n : Sig) : (p.kill n).worker = p.worker := by
  unfold Proc.kill
  split
  · rfl
  · split
    · rfl
    · split <;> rfl

def Ev.byWorker : Ev → Bool
  | .step (.created 1) _ => true
  | _ => false

theorem threadStep_worker (h : Quiet opt p) (h1 : p.threads (.created 1) = some th')
    (ht : p.threads t = some th) (hne : t ≠ .created 1) :
    (p.threadStep opt t th a).worker = p.worker := by
  have hth : th.handling = [] := (h.handling t th ht).resolve_right fun hone => hne hone.1
  unfold Proc.threadStep
  split
  case h_1 hcons => cases hth.symm.trans hcons
  case h_2 => exact mainStep_worker h h1
  case h_3 => rfl
  case h_4 t =>
    apply work_worker p
    intro he
    exact hne (congrArg Tid.created he)

theorem step_worker (h : Quiet opt p) (h1 : p.threads (.created 1) = some th)
    (he : e.byWorker = false) : (p.step opt e).worker = p.worker := by
  unfold Proc.step
  split
  case isFalse => rfl
  case isTrue =>
    cases e with
    | step t a =>
      simp only [Proc.next]
      cases ht : p.threads t with
      | none => rfl
      | some th' =>
        apply threadStep_worker h h1 ht
        rintro rfl
        cases he
    | sigwait pick =>
      simp only [Proc.next]
      cases p.threads (.created 0) with
      | none => rfl
      | some th' =>
        simp only [Option.elim_some, Proc.sigwait]
        split <;> rfl
    | deliver t n =>
      simp only [Proc.next]
      cases ht : p.threads t with
      | none => rfl
      | some th' => rw [Option.elim_some, h.deliver_eq ht]
    | kill n => exact kill_worker p n

/-- How many steps worker 1 has to make before the one that ends the process. -/
def untilExit : Option Thread × Nat → Nat
  | (some ⟨_, []⟩, left) => left + 2
  | (some ⟨_, (_, false) :: _⟩, _) => 1
  | _ => 0

theorem untilExit_nil (h : th.handling = []) (left : Nat) :
    untilExit (some th, left) = left + 2 := by
  obtain ⟨blocked, handling⟩ := th
  cases h
  rfl

theorem step_byWorker (h : Quiet (some 1) p) (hrun : p.status = .running)
    (h1 : p.threads (.created 1) = some th) :
    (p.step (some 1) (.step (.created 1) a)).status = .exited 1 ∨
      (∃ th', (p.step (some 1) (.step (.created 1) a)).threads (.created 1) = some th') ∧
        untilExit (p.step (some 1) (.step (.created 1) a)).worker + 1 = untilExit p.worker := by
  have hstep : p.step (some 1) (.step (.created 1) a) =
      p.threadStep (some 1) (.created 1) th a := by
    rw [Proc.step, if_pos hrun, Proc.next, h1]
    rfl
  rw [hstep]
  rcases h.handling _ th h1 with hnil | ⟨-, -, reset, hone⟩
  · have hwork : p.threadStep (some 1) (.created 1) th a = p.work (some 1) 1 th := by
      simp only [Proc.threadStep, hnil]
    right
    rw [hwork]
    cases hleft : p.left 1 with
    | zero =>
      rw [h.work_fault h1 hnil hleft]
      refine ⟨⟨_, setThread_self p _ _⟩, ?_⟩
      rw [setThread_worker, Proc.worker, h1, hleft, untilExit_nil hnil]
      rfl
    | succ left =>
      have hnext : p.work (some 1) 1 th = { p with left := Function.update p.left 1 left } := by
        rw [Proc.work, hleft]
      rw [hnext]
      refine ⟨⟨th, h1⟩, ?_⟩
      have hnow : Function.update p.left 1 left 1 = left := Function.update_self ..
      rw [Proc.worker, Proc.worker, h1, hleft, untilExit_nil hnil, untilExit_nil hnil]
      simp only [hnow]
  · have hhandler : p.threadStep (some 1) (.created 1) th a =
        p.fatalSigsHandler (.created 1) th sigsegv reset [] := by
      simp only [Proc.threadStep, hone]
    rw [hhandler]
    cases reset with
    | true =>
      rw [Quiet.fatalSigsHandler_reset hone]
      exact .inl rfl
    | false =>
      right
      have hnew : (p.fatalSigsHandler (.created 1) th sigsegv false []).threads (.created 1) =
          some { th with handling := [(sigsegv, true)] } := by
        rw [Proc.fatalSigsHandler, if_neg Bool.false_ne_true]
        exact setThread_self p (.created 1) _
      refine ⟨⟨_, hnew⟩, ?_⟩
      rw [Proc.worker, hnew, Proc.worker, h1]
      obtain ⟨blocked, handling⟩ := th
      cases hone
      rfl

theorem untilExit_le (w : Option Thread × Nat) : untilExit w ≤ w.2 + 2 := by
  unfold untilExit
  split
  · exact Nat.le_refl _
  · exact Nat.le_add_left 1 (_ + 1)
  · exact Nat.zero_le _

structure Faulty (p : Proc) : Prop where
  quiet : Quiet (some 1) p
  running : p.status = .running
  worker : ∃ th, p.threads (.created 1) = some th

theorem Faulty.step (h : Faulty p) (he : p.loud e = false) :
    (p.step (some 1) e).status = .exited 1 ∨ Faulty (p.step (some 1) e) ∧
      untilExit (p.step (some 1) e).worker + e.byWorker.toNat ≤ untilExit p.worker := by
  have hquiet := h.quiet.step (.inr rfl) he
  obtain ⟨th, h1⟩ := h.worker
  rcases hquiet.status with hrun | hexit
  case inr => exact .inl hexit.2
  case inl =>
    cases hw : e.byWorker with
    | false =>
      have hsame := step_worker h.quiet h1 hw
      refine .inr ⟨⟨hquiet, hrun, th, (congrArg Prod.fst hsame).trans h1⟩, ?_⟩
      rw [hsame]
      exact Nat.le_refl _
    | true =>
      obtain ⟨a, rfl⟩ : ∃ a, e = .step (.created 1) a := by
        unfold Ev.byWorker at hw
        split at hw
        case h_1 a => exact ⟨a, rfl⟩
        case h_2 => cases hw
      rcases step_byWorker h.quiet h.running h1 with hexit | ⟨hth, hless⟩
      · cases hexit.symm.trans hrun
      · exact .inr ⟨⟨hquiet, hrun, hth⟩, hless.le⟩

theorem step_of_exited {p : Proc} (h : p.status = .exited 1) (e : Ev) : p.step opt e = p := by
  rw [Proc.step, if_neg]
  rw [h]
  nofun

/-- A process with option 0 runs for ever if no call fails and no signal comes that it has not
blocked. With option 1, once worker 1 is there, its fault ends the process after 2003 steps of it,
and always by the `exit(1)`: the SIGSEGV that the handler raises to get a core dump is blocked. -/
theorem tsig_fault_exits (hopt : opt = some 0 ∨ opt = some 1)
    (hes : saw Proc.loud (Proc.step opt) .start (es ++ es') = false) :
    let p := run (Proc.step opt) .start es
    (p.status = .running ∨ opt = some 1 ∧ p.status = .exited 1) ∧
      (opt = some 1 → (p.threads (.created 1)).isSome → 2003 ≤ es'.countP Ev.byWorker →
        (run (Proc.step opt) .start (es ++ es')).status = .exited 1) := by
  intro p
  rw [saw_append, Bool.or_eq_false_iff] at hes
  have hquiet : Quiet opt p :=
    run_invariant_of (Quiet opt) (fun _ _ he h => h.step hopt he) (.start opt) hes.1
  refine ⟨hquiet.status, ?_⟩
  rintro rfl hsome hcount
  rw [run_append]
  rcases hquiet.status with hrun | ⟨-, hexit⟩
  case inr => rwa [run_fixed (step_of_exited hexit)]
  case inl =>
    have hlt : untilExit p.worker < es'.countP Ev.byWorker := by
      have hle := untilExit_le p.worker
      have hleft : p.worker.2 ≤ 2000 := hquiet.left
      omega
    refine run_halts Faulty (fun q => q.status = .exited 1) Ev.byWorker
      (fun q => untilExit q.worker) ?_ (fun _ _ he h => h.step he)
      ⟨hquiet, hrun, Option.isSome_iff_exists.1 hsome⟩ hes.2 hlt
    intro q e hq
    rwa [step_of_exited hq]

theorem tsig_fault_exits_alone :
    (run (Proc.step (some 1)) .start (List.replicate 12 (.step .main (.done 0)) ++
      List.replicate 2003 (.step (.created 1) (.done 0)))).status = .exited 1 := by
  have hquiet : ∀ e ∈ List.replicate 12 (Ev.step .main (.done 0)) ++
      List.replicate 2003 (.step (.created 1) (.done 0)), ∀ p, Proc.loud p e = false := by
    intro e he p
    rcases List.mem_append.1 he with he | he
    · rw [List.eq_of_mem_replicate he]
      rfl
    · rw [List.eq_of_mem_replicate he]
      rfl
  refine (tsig_fault_exits (.inr rfl) (saw_eq_false_of_forall hquiet .start)).2 rfl (by decide) ?_
  rw [List.countP_replicate]
  exact Nat.le_refl _

end SysPrg.TSig
