import SysPrg.Strerror

namespace SysPrg.Strerror
set_option autoImplicit true

inductive Who where
  | main
  | other
  deriving DecidableEq, Repr

def eperm : Int := 1

def einval : Int := 22

def Who.err : Who → Int
  | .main => einval
  | .other => eperm

inductive Phase where
  | calling
  | create
  | join
  | print
  | done
  | failed
  deriving DecidableEq, Repr

/-- `strerror_test`, and the strings that its threads have printed. -/
structure Test where
  sys : Sys Who
  phase : Phase
  out : Who → Option Bytes

inductive TestEv where
  | main (a : Answer)
  | other (a : Answer)
  deriving DecidableEq, Repr

def Test.start (mem : Ptr Who → Bytes) : Test := ⟨.start mem, .calling, fun _ => none⟩

section
variable (sysErrlist : List (Option CString)) (impl : Impl)

def Test.sysStep (x : Test) (e : Ev Who) : Test := { x with sys := x.sys.step sysErrlist impl e }

def Test.printf (x : Test) (t : Who) (str : Ptr Who) : Test :=
  { x with out := Function.update x.out t (some (cStr (x.sys.mem str))) }

def Test.main (x : Test) (a : Answer) : Test :=
  match x.phase with
  | .calling =>
    match x.sys.pc .main with
    | .idle none => x.sysStep sysErrlist impl (.call .main Who.main.err)
    | .idle (some _) => { x with phase := .create }
    | _ => x.sysStep sysErrlist impl (.step .main a)
  | .create =>
    match a with
    | .fail _ => { x with phase := .failed }
    | .done _ => { x with phase := .join }
  | .join => if x.sys.pc .other = .exited then { x with phase := .print } else x
  | .print =>
    match x.sys.pc .main with
    | .idle (some (str, _)) => { x.printf .main str with phase := .done }
    | _ => x
  | .done | .failed => x

def Test.threadFunc (x : Test) (a : Answer) : Test :=
  match x.sys.pc .other with
  | .idle none => x.sysStep sysErrlist impl (.call .other Who.other.err)
  | .idle (some (str, _)) =>
    if x.out .other = none then x.printf .other str else x.sysStep sysErrlist impl (.exit .other)
  | _ => x.sysStep sysErrlist impl (.step .other a)

/-- The other thread is there from its creation to its end. -/
def Test.step (x : Test) : TestEv → Test
  | .main a => x.main sysErrlist impl a
  | .other a => if x.phase = .join then x.threadFunc sysErrlist impl a else x

end

/-- The error that a thread is in a call for, or has called for. -/
def Pc.For (err : Int) : Pc θ → Prop
  | .idle none | .exited => True
  | .idle (some (_, e)) => e = err
  | .once e | .createKey e | .getspecific e | .malloc e | .setspecific e _ | .copy e _ _ => e = err

theorem strerror_pc [DecidableEq θ] (sysErrlist : List (Option CString)) (s : Sys θ) (t : θ)
    (a : Answer) : ∃ pc', (s.strerror sysErrlist t a).pc = Function.update s.pc t pc' ∧
      (∀ err, (s.pc t).For err → pc'.For err) ∧ (pc' = .exited → s.pc t = .exited) := by
  have hstay : ∃ pc', s.pc = Function.update s.pc t pc' ∧
      (∀ err, (s.pc t).For err → pc'.For err) ∧ (pc' = .exited → s.pc t = .exited) :=
    ⟨s.pc t, (Function.update_eq_self t s.pc).symm, fun _ h => h, fun h => h⟩
  unfold Sys.strerror
  split
  case h_1 => exact hstay
  case h_2 => exact hstay
  case h_3 hpc => split <;> exact ⟨_, rfl, fun _ h => by rw [hpc] at h; exact h, nofun⟩
  case h_4 hpc => split <;> exact ⟨_, rfl, fun _ h => by rw [hpc] at h; exact h, nofun⟩
  case h_5 => exact hstay
  case h_6 hpc =>
    split
    · exact ⟨_, rfl, fun _ h => by rw [hpc] at h; exact h, nofun⟩
    · exact hstay
    · exact ⟨_, rfl, fun _ h => by rw [hpc] at h; exact h, nofun⟩
  case h_7 hpc => exact ⟨_, rfl, fun _ h => by rw [hpc] at h; exact h, nofun⟩
  case h_8 hpc =>
    split
    · exact hstay
    · exact ⟨_, rfl, fun _ h => by rw [hpc] at h; exact h, nofun⟩
  case h_9 hpc => exact ⟨_, rfl, fun _ h => by rw [hpc] at h; exact h, nofun⟩

theorem call_not_exited {s : Sys Who} (hpc : s.pc t = .idle got) :
    (s.step sysErrlist impl (.call t err)).pc t ≠ .exited := by
  unfold Sys.step
  split
  · rw [hpc]
    nofun
  · simp only [hpc, Sys.goto, Function.update_self]
    cases impl <;> nofun

theorem exit_mem {s : Sys Who} : (s.step sysErrlist impl (.exit t)).mem = s.mem := by
  unfold Sys.step
  split
  · rfl
  · dsimp only
    split <;> rfl

theorem exited_of_step {s : Sys Who}
    (hx : (s.step sysErrlist impl (.step t a)).pc t = .exited) :
    s.pc t = .exited ∧ (s.step sysErrlist impl (.step t a)).mem = s.mem := by
  unfold Sys.step at hx ⊢
  split at hx
  case isTrue hdead =>
    rw [if_pos hdead]
    exact ⟨hx, rfl⟩
  case isFalse hdead =>
    rw [if_neg hdead]
    obtain ⟨pc', hpc', -, hexited⟩ := strerror_pc sysErrlist s t a
    dsimp only at hx ⊢
    rw [hpc', Function.update_self] at hx
    have hpc := hexited hx
    refine ⟨hpc, ?_⟩
    simp only [Sys.strerror, hpc]

/-- The static buffer has what the only thread that is in a call has stored. -/
def Alone (sysErrlist : List (Option CString)) (s : Sys Who) (t : Who) : Prop :=
  (s.pc t).Fits sysErrlist .static (some .static) (s.tsd t) s.mem

theorem Alone.strerror (h : Alone sysErrlist s t)
    (hroom : ∀ buf, (s.mem buf).length = maxErrorLen) :
    Alone sysErrlist (s.strerror sysErrlist t a) t ∧
      ∀ buf, ((s.strerror sysErrlist t a).mem buf).length = maxErrorLen := by
  unfold Alone at h ⊢
  cases hpc : s.pc t with
  | idle got =>
    have hsame : s.strerror sysErrlist t a = s := by
      simp only [Sys.strerror, hpc]
    rw [hsame]
    exact ⟨h, hroom⟩
  | exited =>
    have hsame : s.strerror sysErrlist t a = s := by
      simp only [Sys.strerror, hpc]
    rw [hsame]
    exact ⟨h, hroom⟩
  | copy err buf i =>
    rw [hpc] at h
    simp only [Sys.strerror, hpc]
    split
    case h_1 b hb =>
      refine ⟨?_, ?_⟩
      · simp only [Sys.goto, Function.update_self]
        refine ⟨h.1, ?_⟩
        rw [Function.update_self]
        exact prefix_set h.2 hb ((stores_length sysErrlist err).trans (hroom buf).ge)
      · exact (Function.forall_update_iff s.mem fun p (x : Bytes) => x.length = maxErrorLen).2
          ⟨List.length_set.trans (hroom buf), fun p _ => hroom p⟩
    case h_2 hend =>
      refine ⟨?_, hroom⟩
      simp only [Sys.goto, Function.update_self]
      refine ⟨h.1, ?_⟩
      rw [← List.take_of_length_le (List.getElem?_eq_none_iff.1 hend)]
      exact h.2
  | once | createKey | getspecific =>
    rw [hpc] at h
    cases h
  | malloc | setspecific =>
    rw [hpc] at h
    cases h.1

inductive Ev.Own : Who → Ev Who → Prop where
  | call (t : Who) : Own t (.call t t.err)
  | step (t : Who) (a : Answer) : Own t (.step t a)
  | exit (t : Who) : Own t (.exit t)

theorem step_pc (sysErrlist : List (Option CString)) (impl : Impl) {s : Sys Who}
    (he : Ev.Own t e) (h : (s.pc t).For t.err) :
    ∃ pc', (s.step sysErrlist impl e).pc = Function.update s.pc t pc' ∧ pc'.For t.err := by
  have hstay : ∃ pc', s.pc = Function.update s.pc t pc' ∧ pc'.For t.err :=
    ⟨s.pc t, (Function.update_eq_self t s.pc).symm, h⟩
  unfold Sys.step
  split
  case isTrue => exact hstay
  case isFalse =>
    cases he with
    | call =>
      dsimp only
      split
      · exact ⟨_, rfl, by cases impl <;> rfl⟩
      · exact hstay
    | step a =>
      obtain ⟨pc', hpc', hfor, -⟩ := strerror_pc sysErrlist s t a
      exact ⟨pc', hpc', hfor _ h⟩
    | exit =>
      dsimp only
      split
      · exact ⟨_, rfl, trivial⟩
      · exact hstay

/-- With the static buffer the two calls do not overlap, but the second one is over when `main`
prints. -/
def Test.Static (sysErrlist : List (Option CString)) (x : Test) : Prop :=
  match x.phase with
  | .calling => x.sys.pc .other = .idle none ∧ Alone sysErrlist x.sys .main
  | .create | .failed =>
    x.sys.pc .other = .idle none ∧ x.sys.pc .main = .idle (some (.static, einval))
  | .join =>
    x.sys.pc .main = .idle (some (.static, einval)) ∧ Alone sysErrlist x.sys .other ∧
      (x.sys.pc .other = .exited → stores sysErrlist eperm <+: x.sys.mem .static)
  | .print | .done =>
    x.sys.pc .main = .idle (some (.static, einval)) ∧
      stores sysErrlist eperm <+: x.sys.mem .static

def Impl.shown (impl : Impl) (t : Who) : Int :=
  match impl with
  | .static => eperm
  | .tls | .tsd => t.err

/-- Who has printed by the time `main` has joined the other thread, and by its end. -/
def Test.Printed (x : Test) : Prop :=
  match x.phase with
  | .print => (x.out .other).isSome = true
  | .done => ∀ t, (x.out t).isSome = true
  | _ => True

structure Test.Inv (sysErrlist : List (Option CString)) (impl : Impl) (x : Test) : Prop where
  sys : impl ≠ .static → Strerror.Inv sysErrlist impl x.sys
  asks : ∀ t, (x.sys.pc t).For t.err
  static : impl = .static → x.Static sysErrlist ∧ ∀ buf, (x.sys.mem buf).length = maxErrorLen
  out : ∀ t bs, x.out t = some bs → bs = (message sysErrlist (impl.shown t)).bytes
  exited : x.sys.pc .other = .exited → (x.out .other).isSome = true
  printed : x.Printed

theorem Test.Inv.start {mem : Ptr Who → Bytes} (hmem : ∀ p, (mem p).length = maxErrorLen) :
    Test.Inv sysErrlist impl (.start mem) where
  sys himpl := .start himpl hmem
  asks _ := trivial
  static _ := ⟨⟨rfl, trivial⟩, hmem⟩
  out := nofun
  exited := nofun
  printed := trivial

theorem Test.Inv.sysStep {x : Test} (h : x.Inv sysErrlist impl) (he : Ev.Own t e)
    (hstatic : impl = .static → (x.sysStep sysErrlist impl e).Static sysErrlist ∧
      ∀ buf, ((x.sys.step sysErrlist impl e).mem buf).length = maxErrorLen)
    (hx : (x.sys.step sysErrlist impl e).pc .other = .exited → (x.out .other).isSome = true) :
    (x.sysStep sysErrlist impl e).Inv sysErrlist impl where
  sys himpl := (h.sys himpl).step e
  asks := by
    obtain ⟨pc', hpc', hfor⟩ := step_pc sysErrlist impl he (h.asks t)
    show ∀ u, ((x.sys.step sysErrlist impl e).pc u).For u.err
    rw [hpc']
    exact (Function.forall_update_iff x.sys.pc fun u (y : Pc Who) => y.For u.err).2
      ⟨hfor, fun u _ => h.asks u⟩
  static := hstatic
  out := h.out
  exited := hx
  printed := h.printed

theorem Test.Inv.printf {x : Test} (h : x.Inv sysErrlist impl)
    (hstr : cStr (x.sys.mem str) = (message sysErrlist (impl.shown t)).bytes) :
    ∀ u bs, (x.printf t str).out u = some bs → bs = (message sysErrlist (impl.shown u)).bytes := by
  refine (Function.forall_update_iff x.out fun u (o : Option Bytes) => ∀ bs, o = some bs →
    bs = (message sysErrlist (impl.shown u)).bytes).2 ⟨?_, fun u _ => h.out u⟩
  intro bs hbs
  exact (Option.some.inj hbs).symm.trans hstr

theorem Test.isSome_printf {x : Test} (h : t = u ∨ (x.out u).isSome = true) (str : Ptr Who) :
    ((x.printf t str).out u).isSome = true := by
  refine (Function.forall_update_iff x.out fun u (o : Option Bytes) =>
    t = u ∨ (x.out u).isSome = true → o.isSome = true).2 ⟨fun _ => rfl, fun v hv hout => ?_⟩ u h
  exact hout.resolve_left hv.symm

theorem Test.Inv.returned {x : Test} (h : x.Inv sysErrlist impl) (himpl : impl ≠ .static)
    (hpc : x.sys.pc t = .idle (some (str, err))) :
    cStr (x.sys.mem str) = (message sysErrlist (impl.shown t)).bytes := by
  have hfits := (h.sys himpl).fits t
  have hfor := h.asks t
  rw [hpc] at hfits hfor
  have hshown : impl.shown t = err := by
    cases impl with
    | static => exact (himpl rfl).elim
    | tls | tsd => exact hfor.symm
  rw [hshown]
  exact cStr_of_stores hfits.2

theorem step_other (sysErrlist : List (Option CString)) (impl : Impl) {s : Sys Who}
    (he : Ev.Own t e) (hfor : (s.pc t).For t.err) (hu : u ≠ t) :
    (s.step sysErrlist impl e).pc u = s.pc u := by
  obtain ⟨pc', hpc', -⟩ := step_pc sysErrlist impl he hfor
  rw [hpc', Function.update_of_ne hu]

theorem Alone.step {s : Sys Who} (h : Alone sysErrlist s t)
    (hroom : ∀ buf, (s.mem buf).length = maxErrorLen) (he : Ev.Own t e) :
    Alone sysErrlist (s.step sysErrlist .static e) t ∧
      ∀ buf, ((s.step sysErrlist .static e).mem buf).length = maxErrorLen := by
  unfold Sys.step
  split
  case isTrue => exact ⟨h, hroom⟩
  case isFalse =>
    cases he with
    | call =>
      dsimp only
      split
      · refine ⟨?_, hroom⟩
        rw [Alone]
        simp only [Sys.goto, Function.update_self]
        exact ⟨rfl, List.nil_prefix⟩
      · exact ⟨h, hroom⟩
    | step a => exact h.strerror hroom
    | exit =>
      dsimp only
      split
      · refine ⟨?_, hroom⟩
        rw [Alone]
        simp only [Sys.goto, Function.update_self]
        exact nofun
      · exact ⟨h, hroom⟩

theorem Test.Inv.main_calls {x : Test} (h : x.Inv sysErrlist impl) (he : Ev.Own .main e)
    (hphase : x.phase = .calling) : (x.sysStep sysErrlist impl e).Inv sysErrlist impl := by
  have hne : Who.other ≠ .main := nofun
  have hother := step_other sysErrlist impl he (h.asks .main) hne
  refine h.sysStep he ?_ fun hx => h.exited (hother.symm.trans hx)
  rintro rfl
  obtain ⟨hstatic, hroom⟩ := h.static rfl
  rw [Test.Static, hphase] at hstatic
  obtain ⟨halone, hroom'⟩ := hstatic.2.step hroom he
  refine ⟨?_, hroom'⟩
  rw [Test.Static, Test.sysStep, hphase]
  exact ⟨hother.trans hstatic.1, halone⟩

theorem Test.Inv.goto {x : Test} (h : x.Inv sysErrlist impl)
    (hstatic : impl = .static → x.Static sysErrlist →
      Test.Static sysErrlist { x with phase := ph })
    (hprinted : Test.Printed { x with phase := ph }) :
    Test.Inv sysErrlist impl { x with phase := ph } :=
  { h with
    static := fun himpl => ⟨hstatic himpl (h.static himpl).1, (h.static himpl).2⟩
    printed := hprinted }

theorem Test.Inv.main_prints {x : Test} (h : x.Inv sysErrlist impl) (hphase : x.phase = .print)
    (hpc : x.sys.pc .main = .idle (some (str, err))) :
    Test.Inv sysErrlist impl { x.printf .main str with phase := .done } := by
  have hstr : cStr (x.sys.mem str) = (message sysErrlist (impl.shown .main)).bytes := by
    by_cases himpl : impl = .static
    case neg => exact h.returned himpl hpc
    case pos =>
      subst himpl
      have hstatic := (h.static rfl).1
      rw [Test.Static, hphase] at hstatic
      cases hstatic.1.symm.trans hpc
      exact cStr_of_stores hstatic.2
  have hother : (x.out .other).isSome = true := by
    have hprinted := h.printed
    rwa [Test.Printed, hphase] at hprinted
  have hstill : ((x.printf .main str).out .other).isSome = true :=
    Test.isSome_printf (.inr hother) str
  refine ⟨h.sys, h.asks, ?_, h.printf hstr, fun _ => hstill, ?_⟩
  · intro himpl
    obtain ⟨hstatic, hroom⟩ := h.static himpl
    rw [Test.Static, hphase] at hstatic
    exact ⟨hstatic, hroom⟩
  · rintro (_ | _)
    · exact Test.isSome_printf (x := x) (t := .main) (.inl rfl) str
    · exact hstill

theorem Test.Inv.main {x : Test} (h : x.Inv sysErrlist impl) (a : Answer) :
    (x.main sysErrlist impl a).Inv sysErrlist impl := by
  unfold Test.main
  split
  case h_1 hphase =>
    split
    · exact h.main_calls (.call .main) hphase
    case h_2 got hpc =>
      refine h.goto ?_ trivial
      rintro rfl hstatic
      rw [Test.Static, hphase] at hstatic
      obtain ⟨hother, halone⟩ := hstatic
      have hfor := h.asks .main
      rw [hpc] at hfor
      rw [Alone, hpc] at halone
      obtain ⟨buf, err⟩ := got
      obtain rfl : Ptr.static = buf := Option.some.inj halone.1
      obtain rfl : err = einval := hfor
      exact ⟨hother, hpc⟩
    · exact h.main_calls (.step .main a) hphase
  case h_2 hphase =>
    split
    · refine h.goto ?_ trivial
      rintro - hstatic
      rw [Test.Static, hphase] at hstatic
      exact hstatic
    · refine h.goto ?_ trivial
      rintro - hstatic
      rw [Test.Static, hphase] at hstatic
      refine ⟨hstatic.2, ?_, fun hx => ?_⟩
      · rw [Alone]
        show (x.sys.pc .other).Fits _ _ _ _ _
        rw [hstatic.1]
        trivial
      · cases hstatic.1.symm.trans hx
  case h_3 hphase =>
    split
    case isTrue hx =>
      refine h.goto ?_ (h.exited hx)
      rintro - hstatic
      rw [Test.Static, hphase] at hstatic
      exact ⟨hstatic.1, hstatic.2.2 hx⟩
    case isFalse => exact h
  case h_4 hphase =>
    split
    case h_2 => exact h
    case h_1 str err hpc => exact h.main_prints hphase hpc
  case h_5 => exact h
  case h_6 => exact h

theorem Test.Inv.other_calls {x : Test} (h : x.Inv sysErrlist impl) (he : Ev.Own .other e)
    (hphase : x.phase = .join)
    (hx : impl = .static → (x.sys.step sysErrlist impl e).pc .other = .exited →
      stores sysErrlist eperm <+: (x.sys.step sysErrlist impl e).mem .static)
    (hout : (x.sys.step sysErrlist impl e).pc .other = .exited → (x.out .other).isSome = true) :
    (x.sysStep sysErrlist impl e).Inv sysErrlist impl := by
  refine h.sysStep he ?_ hout
  rintro rfl
  obtain ⟨hstatic, hroom⟩ := h.static rfl
  rw [Test.Static, hphase] at hstatic
  obtain ⟨halone, hroom'⟩ := hstatic.2.1.step hroom he
  have hne : Who.main ≠ .other := nofun
  refine ⟨?_, hroom'⟩
  rw [Test.Static, Test.sysStep, hphase]
  exact ⟨(step_other _ _ he (h.asks .other) hne).trans hstatic.1, halone, hx rfl⟩

theorem Test.Inv.returned_static {x : Test} (h : x.Inv sysErrlist .static)
    (hphase : x.phase = .join) (hpc : x.sys.pc .other = .idle (some (str, err))) :
    str = .static ∧ stores sysErrlist eperm <+: x.sys.mem .static := by
  have hstatic := (h.static rfl).1
  rw [Test.Static, hphase] at hstatic
  have halone := hstatic.2.1
  have hfor := h.asks .other
  rw [hpc] at hfor
  rw [Alone, hpc] at halone
  obtain rfl : Ptr.static = str := Option.some.inj halone.1
  obtain rfl : err = eperm := hfor
  exact ⟨rfl, halone.2⟩

theorem Test.Inv.threadFunc {x : Test} (h : x.Inv sysErrlist impl) (hphase : x.phase = .join)
    (a : Answer) : (x.threadFunc sysErrlist impl a).Inv sysErrlist impl := by
  unfold Test.threadFunc
  split
  case h_1 hpc =>
    exact h.other_calls (.call .other) hphase (fun _ hx => (call_not_exited hpc hx).elim)
      fun hx => (call_not_exited hpc hx).elim
  case h_2 str err hpc =>
    split
    · refine ⟨h.sys, h.asks, ?_, h.printf ?_, fun _ => Test.isSome_printf (.inl rfl) str, ?_⟩
      · intro himpl
        obtain ⟨hstatic, hroom⟩ := h.static himpl
        exact ⟨hstatic, hroom⟩
      · by_cases himpl : impl = .static
        · subst himpl
          obtain ⟨rfl, hstored⟩ := h.returned_static hphase hpc
          exact cStr_of_stores hstored
        · exact h.returned himpl hpc
      · show Test.Printed { x with out := _ }
        rw [Test.Printed, hphase]
        trivial
    · next hout =>
      refine h.other_calls (.exit .other) hphase ?_ fun _ => Option.isSome_iff_ne_none.2 hout
      rintro rfl -
      rw [exit_mem]
      exact (h.returned_static hphase hpc).2
  case h_3 =>
    refine h.other_calls (.step .other a) hphase ?_ fun hx => h.exited (exited_of_step hx).1
    rintro rfl hx
    obtain ⟨hpc, hmem⟩ := exited_of_step hx
    have hstatic := (h.static rfl).1
    rw [Test.Static, hphase] at hstatic
    rw [hmem]
    exact hstatic.2.2 hpc

theorem Test.Inv.step {x : Test} (h : x.Inv sysErrlist impl) (e : TestEv) :
    (x.step sysErrlist impl e).Inv sysErrlist impl := by
  cases e with
  | main a => exact h.main a
  | other a =>
    unfold Test.step
    dsimp only
    split
    case isTrue hphase => exact h.threadFunc hphase a
    case isFalse => exact h

/-- In every run of the test program the other thread prints the message for `EPERM`. `main` prints
the one for `EINVAL`, which it has asked for, if the buffer is in thread-local storage or under a
key. If it is static, `main` always prints that of the other thread. Both have printed when `main`
is done. -/
theorem strerror_test_prints (sysErrlist : List (Option CString)) (impl : Impl)
    {mem : Ptr Who → Bytes} (hmem : ∀ p, (mem p).length = maxErrorLen) (es : List TestEv) :
    let x := run (Test.step sysErrlist impl) (.start mem) es
    (∀ bs, x.out .other = some bs → bs = (message sysErrlist eperm).bytes) ∧
      (∀ bs, x.out .main = some bs →
        bs = (message sysErrlist (if impl = .static then eperm else einval)).bytes) ∧
      (x.phase = .done → ∀ t, (x.out t).isSome = true) := by
  intro x
  have h : x.Inv sysErrlist impl :=
    run_invariant (Test.Inv sysErrlist impl) (fun _ e hs => hs.step e) (.start hmem) es
  refine ⟨?_, ?_, fun hphase => ?_⟩
  · intro bs hbs
    cases impl <;> exact h.out .other bs hbs
  · intro bs hbs
    cases impl <;> exact h.out .main bs hbs
  · have hprinted := h.printed
    rwa [Test.Printed, hphase] at hprinted

/-- A table with the message "P" for `EPERM` and "I" for `EINVAL`. -/
def someErrors : List (Option CString) :=
  List.replicate 22 (some ⟨[80], by decide⟩) ++ [some ⟨[73], by decide⟩]

def wholeTest : List TestEv :=
  List.replicate 260 (.main (.done 0)) ++ List.replicate 260 (.other (.done 0)) ++
    List.replicate 2 (.main (.done 0))

theorem strerror_test_prints_static :
    (run (Test.step someErrors .static) (.start fun _ => List.replicate 256 7) wholeTest).out
      .main = some [80] := by
  have hdone : (run (Test.step someErrors .static) (.start fun _ => List.replicate 256 7)
      wholeTest).phase = .done := by decide +kernel
  have hmessage : (message someErrors eperm).bytes = [80] := by decide +kernel
  have hmem : ∀ _ : Ptr Who, (List.replicate 256 (7 : UInt8)).length = maxErrorLen :=
    fun _ => List.length_replicate
  obtain ⟨-, hprints, hsome⟩ := strerror_test_prints someErrors .static hmem wholeTest
  obtain ⟨bs, hbs⟩ := Option.isSome_iff_exists.1 (hsome hdone .main)
  rw [hbs, hprints bs hbs, if_pos rfl, hmessage]

end SysPrg.Strerror
