import SysPrg.CountSlots

namespace SysPrg.Counting
set_option autoImplicit true

/-- A `sem_post` of the server fails of itself, and not for the value it has. -/
def postRefused (s : Sys π) : Ev π → Bool
  | .svr (.fail _) => decide (s.svr = .post)
  | _ => false

/-- One of the calls by which a slot goes from hand to hand fails. -/
def fails (msg : π → Bytes) (s : Sys π) (e : Ev π) : Bool :=
  match e with
  | .svr _ => postRefused s e
  | .cli p a =>
    match s.cli p, a with
    | .semWait, .fail _ | .mqOpen _, .fail _ | .mqSend _, .fail _ => true
    | .mqOpen _, .done _ => s.mq.isNone
    | .mqSend _, .done _ => decide (mqMsgsize < (msg p).length)
    | _, _ => false

def ClientPc.unadmitted : ClientPc → Bool
  | .mqOpen got | .mqSend got => !got
  | _ => false

theorem server_cli (max : Nat) (s : Sys π) (a : Answer) : (s.server max a).cli = s.cli := by
  unfold Sys.server
  repeat' split
  all_goals rfl

section
variable {max : Nat} {msg : π → Bytes} {s : Sys π} {e : Ev π}

theorem not_bad_of_not_fails (h : ∀ q, (s.cli q).unadmitted = false)
    (he : fails msg s e = false) :
    postRefused s e = false ∧ (leaks msg s e || forges msg s e) = false := by
  cases e with
  | svr a => exact ⟨he, rfl⟩
  | cli p a =>
    have hp := h p
    refine ⟨rfl, ?_⟩
    cases hpc : s.cli p with
    | semOpen | semWait | exited => simp only [leaks, forges, hpc, Bool.or_self]
    | mqOpen got =>
      cases a with
      | fail e =>
        simp only [fails, hpc] at he
        cases he
      | done k =>
        simp only [fails, hpc] at he
        simp only [leaks, forges, hpc, he, Bool.and_false, Bool.or_self]
    | mqSend got =>
      obtain rfl : got = true := by
        simpa only [hpc, ClientPc.unadmitted, Bool.not_eq_false'] using hp
      cases a with
      | fail e =>
        simp only [fails, hpc] at he
        cases he
      | done k =>
        simp only [fails, hpc] at he
        simp only [leaks, forges, hpc, he, Bool.and_false, Bool.not_true, Bool.false_and,
          Bool.or_self]

structure Sys.Made (max : Nat) (s : Sys π) : Prop where
  sound : s.Sound
  fits : ∀ v, s.sem = some v → max ≤ semValueMax

theorem start_made (max : Nat) : (Sys.start : Sys π).Made max :=
  ⟨start_sound, fun _ h => by cases h⟩

/-- There is no semaphore, or it was made and all slots are accounted for. -/
def Sys.Accounted [Fintype π] (max : Nat) (s : Sys π) : Prop :=
  ∀ v, s.sem = some v → s.slots.total = max

theorem Sys.Made.posts [Fintype π] (h : s.Made max) (hacc : s.Accounted max)
    (he : postRefused s e = false) : postFails s e = false := by
  cases e with
  | cli p a => rfl
  | svr a =>
    cases a with
    | fail err =>
      cases hpc : s.svr with
      | post =>
        simp only [postRefused, hpc, decide_true] at he
        cases he
      | _ => simp only [postFails, hpc]
    | done k =>
      cases hpc : s.svr with
      | post =>
        cases hv : s.sem with
        | none =>
          have hidle := (h.sound.unused hv).2
          rw [hpc] at hidle
          cases hidle
        | some v =>
          have hmax := h.fits v hv
          have htotal := hacc v hv
          simp only [Slots.total, Sys.slots, hv, hpc, ServerPc.busy, Option.getD_some,
            Bool.toNat_true] at htotal
          simp only [postFails, hpc, hv, Option.getD_some, decide_eq_false_iff_not]
          omega
      | _ => simp only [postFails, hpc]

theorem slots_total [Fintype π] (hv : s.sem = some v) : s.slots.total =
    v + s.admitted.card + s.queue.length + s.svr.busy.toNat := by
  simp only [Slots.total, Sys.slots, hv, Option.getD_some]

variable [DecidableEq π]

theorem client_unadmitted (h : ∀ q, (s.cli q).unadmitted = false)
    (he : fails msg s (.cli p a) = false) (q : π) :
    ((s.client msg p a).cli q).unadmitted = false := by
  have hgoto (t : Sys π) (ht : t.cli = s.cli) (pc : ClientPc) (hpc : pc.unadmitted = false) :
      ((t.goto p pc).cli q).unadmitted = false := by
    exact (Function.forall_update_iff t.cli fun _ pc => pc.unadmitted = false).2
      ⟨hpc, fun q' _ => ht ▸ h q'⟩ q
  have hp := h p
  simp only [fails] at he
  unfold Sys.client
  cases hpc : s.cli p with
  | semOpen =>
    cases a with
    | fail e => exact hgoto s rfl _ rfl
    | done k => cases s.sem <;> exact hgoto s rfl _ rfl
  | semWait =>
    cases a with
    | fail e =>
      rw [hpc] at he
      cases he
    | done k =>
      simp only
      split
      · exact hgoto _ rfl _ rfl
      · exact h q
  | mqOpen got =>
    rw [hpc] at hp
    cases a with
    | fail e => exact hgoto s rfl _ rfl
    | done k => cases s.mq <;> first | exact hgoto s rfl _ rfl | exact hgoto s rfl _ hp
  | mqSend got =>
    cases a with
    | fail e => exact hgoto s rfl _ rfl
    | done k =>
      simp only
      repeat' split
      · exact hgoto s rfl _ rfl
      · exact hgoto _ rfl _ rfl
      · exact h q
      · exact h q
  | exited err status => exact h q

theorem step_unadmitted (h : ∀ q, (s.cli q).unadmitted = false) (he : fails msg s e = false)
    (max : Nat) (q : π) : ((s.step max msg e).cli q).unadmitted = false := by
  cases e with
  | cli p a => exact client_unadmitted h he q
  | svr a =>
    rw [Sys.step, server_cli]
    exact h q

variable [Fintype π]

theorem Sys.Made.step (h : s.Made max) (msg : π → Bytes) (e : Ev π) :
    (s.step max msg e).Made max := by
  refine ⟨h.sound.step max msg e, ?_⟩
  intro v hv
  cases hs : s.sem with
  | none => exact (step_of_none h.sound hs hv).1
  | some w => exact h.fits w hs

theorem Sys.Made.accounted_step (h : s.Made max) (hacc : s.Accounted max) (msg : π → Bytes)
    (he : postRefused s e = false) :
    (s.step max msg e).Accounted max ↔ (leaks msg s e || forges msg s e) = false := by
  cases hv : s.sem with
  | none =>
    constructor
    · intro _
      exact delta_of_none h.sound hv msg e
    · intro _ v hv'
      exact (step_of_none h.sound hv hv').2
  | some v =>
    obtain ⟨⟨v', hv'⟩, hmove⟩ := step_move h.sound hv max msg (h.posts hacc he)
    have htotal := hmove.total
    rw [hacc v hv] at htotal
    rw [← delta_eq_zero_iff]
    constructor
    · intro hacc'
      rw [hacc' v' hv'] at htotal
      omega
    · intro hd w _
      omega

theorem slots_conserved (max : Nat) (msg : π → Bytes) (es : List (Ev π))
    (hes : saw (fails msg) (Sys.step max msg) .start es = false)
    (hv : (run (Sys.step max msg) .start es).sem = some v) :
    v + (run (Sys.step max msg) .start es).admitted.card +
        (run (Sys.step max msg) .start es).queue.length +
        (run (Sys.step max msg) .start es).svr.busy.toNat = max ∧ v ≤ max ∧
      (run (Sys.step max msg) .start es).admitted.card +
        (run (Sys.step max msg) .start es).queue.length +
        (run (Sys.step max msg) .start es).svr.busy.toNat ≤ max := by
  obtain ⟨-, hacc, -⟩ := run_invariant_of
    (fun t : Sys π => t.Made max ∧ t.Accounted max ∧ ∀ q, (t.cli q).unadmitted = false)
    (by
      -- With no failing call there is no client that could forge a slot, and none leaks one.
      rintro t e he ⟨hmade, hacc, hun⟩
      obtain ⟨hpost, hbad⟩ := not_bad_of_not_fails hun he
      exact ⟨hmade.step msg e, (hmade.accounted_step hacc msg hpost).2 hbad,
        step_unadmitted hun he max⟩)
    ⟨start_made max, fun _ h => (by cases h), fun _ => rfl⟩ hes
  have htotal := (slots_total hv).symm.trans (hacc v hv)
  exact ⟨htotal, by omega, by omega⟩

theorem slots_conserved_one_client :
    1 + (run (Sys.step 2 fun _ : Fin 2 => [1]) .start
        [.svr (.done 0), .svr (.done 0), .svr (.done 0), .cli 0 (.done 0), .cli 0 (.done 0),
          .svr (.done 0), .cli 0 (.done 0), .cli 0 (.done 0)]).queue.length = 2 :=
  (slots_conserved (v := 1) 2 (fun _ : Fin 2 => [1])
    [.svr (.done 0), .svr (.done 0), .svr (.done 0), .cli 0 (.done 0), .cli 0 (.done 0),
      .svr (.done 0), .cli 0 (.done 0), .cli 0 (.done 0)]
    (by decide +kernel) (by decide +kernel)).1

theorem slots_survive_iff (max : Nat) (msg : π → Bytes) (es : List (Ev π))
    (hes : saw postRefused (Sys.step max msg) .start es = false) :
    (∀ pre, pre <+: es → ∀ v, (run (Sys.step max msg) .start pre).sem = some v →
      v + (run (Sys.step max msg) .start pre).admitted.card +
        (run (Sys.step max msg) .start pre).queue.length +
        (run (Sys.step max msg) .start pre).svr.busy.toNat = max) ↔
    saw (fun s e => leaks msg s e || forges msg s e) (Sys.step max msg) .start es = false := by
  rw [← all_states_iff (fun t => t.Made max ∧ t.Accounted max) (fun t => t.Accounted max)
    (fun t h => h.2)
    (fun t e hout hbad h => ⟨h.1.step msg e, (h.1.accounted_step h.2 msg hout).2 hbad⟩)
    (fun t e hout hbad h hacc => by
      rw [(h.1.accounted_step h.2 msg hout).1 hacc] at hbad
      cases hbad)
    ⟨start_made max, fun _ h => (by cases h)⟩ hes]
  constructor
  · intro h pre hpre v hv
    exact (slots_total hv).trans (h pre hpre v hv)
  · intro h pre hpre v hv
    exact (slots_total hv).symm.trans (h pre hpre v hv)

/-- A client whose `sem_wait` is interrupted, and that finds no queue to send its request to. -/
def interrupted : List (Ev Unit) :=
  [.svr (.done 0), .svr (.done 0), .svr (.done 0), .cli () (.done 0), .cli () (.fail .eintr),
    .cli () (.done 0)]

theorem slots_survive_interrupted :
    1 + (run (Sys.step 1 fun _ => [1]) .start interrupted).admitted.card +
      (run (Sys.step 1 fun _ => [1]) .start interrupted).queue.length +
      (run (Sys.step 1 fun _ => [1]) .start interrupted).svr.busy.toNat = 1 := by
  have hiff := slots_survive_iff 1 (fun _ => [1]) interrupted (by decide +kernel)
  exact hiff.2 (by decide +kernel) interrupted List.prefix_rfl 1 (by decide +kernel)

/-- A client that comes before the server has made the queue takes its slot with it, and one whose
`sem_wait` is interrupted brings one along. -/
theorem slots_lost_and_forged :
    (∃ s : Sys (Fin 2), s = run (Sys.step 1 fun _ => [1]) .start
        [.svr (.done 0), .svr (.done 0), .svr (.done 0), .cli 0 (.done 0), .cli 0 (.done 0),
          .cli 0 (.done 0)] ∧
      s.sem = some 0 ∧ s.admitted = ∅ ∧ s.queue = [] ∧ s.svr.busy = false ∧
      s.cli 0 = .exited (some "mq_open failed") 1) ∧
    ∃ s : Sys (Fin 2), s = run (Sys.step 1 fun _ => [1]) .start
        [.svr (.done 0), .svr (.done 0), .svr (.done 0), .svr (.done 0), .cli 0 (.done 0),
          .cli 0 (.fail .eintr), .cli 0 (.done 0), .cli 0 (.done 0)] ∧
      s.sem = some 1 ∧ s.queue = [[1]] := by
  refine ⟨⟨_, rfl, ?_⟩, ⟨_, rfl, ?_⟩⟩
  · decide +kernel
  · decide +kernel

end

end SysPrg.Counting
