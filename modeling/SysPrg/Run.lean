import Mathlib.Data.List.Basic
import Mathlib.Algebra.Order.Group.Nat
import Mathlib.Order.Monotone.Basic

namespace SysPrg
set_option autoImplicit true

/-- The state a machine is in after a sequence of events. -/
def run (step : σ → ε → σ) (s : σ) (es : List ε) : σ := es.foldl step s

@[simp] theorem run_nil (step : σ → ε → σ) (s : σ) : run step s [] = s := rfl

@[simp] theorem run_cons (step : σ → ε → σ) (s : σ) (e : ε) (es : List ε) :
    run step s (e :: es) = run step (step s e) es := rfl

theorem run_append (step : σ → ε → σ) (s : σ) (es es' : List ε) :
    run step s (es ++ es') = run step (run step s es) es' :=
  List.foldl_append

theorem run_snoc (step : σ → ε → σ) (s : σ) (es : List ε) (e : ε) :
    run step s (es ++ [e]) = step (run step s es) e := by
  rw [run_append, run_cons, run_nil]

theorem run_fixed {step : σ → ε → σ} (h : ∀ e, step s e = s) (es : List ε) : run step s es = s := by
  induction es with
  | nil => rfl
  | cons e es ih => rw [run_cons, h, ih]

/-- What every step keeps, every run keeps. -/
theorem run_invariant {step : σ → ε → σ} (I : σ → Prop)
    (hstep : ∀ s e, I s → I (step s e)) (hs : I s) (es : List ε) : I (run step s es) := by
  induction es generalizing s with
  | nil => exact hs
  | cons e es ih => exact ih (hstep s e hs)

/-- Whether some event of a run was one that `p` singles out in the state it met. -/
def saw (p : σ → ε → Bool) (step : σ → ε → σ) : σ → List ε → Bool
  | _, [] => false
  | s, e :: es => p s e || saw p step (step s e) es

theorem saw_append (p : σ → ε → Bool) (step : σ → ε → σ) (s : σ) (es es' : List ε) :
    saw p step s (es ++ es') = (saw p step s es || saw p step (run step s es) es') := by
  induction es generalizing s with
  | nil => rfl
  | cons e es ih => simp only [List.cons_append, saw, run_cons, ih, Bool.or_assoc]

theorem saw_or (p q : σ → ε → Bool) (step : σ → ε → σ) (s : σ) (es : List ε) :
    saw (fun s e => p s e || q s e) step s es = (saw p step s es || saw q step s es) := by
  induction es generalizing s with
  | nil => rfl
  | cons e es ih =>
    simp only [saw, ih]
    ac_rfl

theorem saw_eq_false_of_forall {p : σ → ε → Bool} {step : σ → ε → σ}
    (h : ∀ e ∈ es, ∀ s, p s e = false) (s : σ) : saw p step s es = false := by
  induction es generalizing s with
  | nil => rfl
  | cons e es ih =>
    rw [saw, h e List.mem_cons_self s, Bool.false_or]
    exact ih (fun e' he' => h e' (List.mem_cons_of_mem e he')) _

theorem forall_of_saw {p : ε → Bool} {step : σ → ε → σ}
    (h : saw (fun _ e => p e) step s es = false) : ∀ e ∈ es, p e = false := by
  induction es generalizing s with
  | nil => nofun
  | cons e es ih =>
    rw [saw, Bool.or_eq_false_iff] at h
    exact List.forall_mem_cons.2 ⟨h.1, ih h.2⟩

/-- How many events of a run were ones that `p` singles out. -/
def tally (p : σ → ε → Bool) (step : σ → ε → σ) : σ → List ε → Nat
  | _, [] => 0
  | s, e :: es => (p s e).toNat + tally p step (step s e) es

/-- A counter that goes up at the events that `p` singles out has their number. -/
theorem run_tally {step : σ → ε → σ} {p : σ → ε → Bool} (I : σ → Prop) (f : σ → Nat)
    (hI : ∀ s e, I s → I (step s e)) (hf : ∀ s e, I s → f (step s e) = f s + (p s e).toNat)
    (hs : I s) (es : List ε) : f (run step s es) = f s + tally p step s es := by
  induction es generalizing s with
  | nil => rfl
  | cons e es ih => rw [run_cons, ih (hI s e hs), hf s e hs, tally, Nat.add_assoc]

theorem of_run {step : σ → ε → σ} {live : σ → Prop} (h : ∀ s e, live (step s e) → live s)
    (hrun : live (run step s es)) : live s := by
  induction es generalizing s with
  | nil => exact hrun
  | cons e es ih => exact h s e (ih hrun)

/-- Two counters that stay in balance but for the events that `p` singles out, as long as the
machine lives. -/
theorem run_balance {step : σ → ε → σ} {p : σ → ε → Bool} (I live : σ → Prop) (f g : σ → Nat)
    (hI : ∀ s e, I s → I (step s e)) (hlive : ∀ s e, live (step s e) → live s)
    (hbal : ∀ s e, I s → live (step s e) → f (step s e) + g s = f s + g (step s e) + (p s e).toNat)
    (hs : I s) (hrun : live (run step s es)) :
    f (run step s es) + g s = f s + g (run step s es) + tally p step s es := by
  induction es generalizing s with
  | nil => rfl
  | cons e es ih =>
    rw [run_cons] at hrun ⊢
    have hrest := ih (hI s e hs) hrun
    have hone := hbal s e hs (of_run hlive hrun)
    rw [tally]
    omega

theorem exists_first_of_saw {p : σ → ε → Bool} {step : σ → ε → σ}
    (h : saw p step s es = true) : ∃ pre e post, es = pre ++ e :: post ∧
      saw p step s pre = false ∧ p (run step s pre) e = true := by
  induction es generalizing s with
  | nil => cases h
  | cons e es ih =>
    cases he : p s e with
    | true => exact ⟨[], e, es, rfl, rfl, he⟩
    | false =>
      rw [saw, he, Bool.false_or] at h
      obtain ⟨pre, e', post, rfl, hpre, he'⟩ := ih h
      exact ⟨e :: pre, e', post, rfl, by rw [saw, he, hpre, Bool.false_or], he'⟩

theorem exists_step_of_run {step : σ → ε → σ} {P : σ → Prop} (hs : ¬ P s)
    (h : P (run step s es)) : ∃ pre e post, es = pre ++ e :: post ∧ ¬ P (run step s pre) ∧
      P (step (run step s pre) e) := by
  induction es generalizing s with
  | nil => exact (hs h).elim
  | cons e es ih =>
    by_cases he : P (step s e)
    · exact ⟨[], e, es, rfl, hs, he⟩
    · obtain ⟨pre, e', post, rfl, hpre, he'⟩ := ih he h
      exact ⟨e :: pre, e', post, rfl, hpre, he'⟩

/-- What every step keeps but those that `p` singles out, every run without these keeps. -/
theorem run_invariant_of {step : σ → ε → σ} {p : σ → ε → Bool} (I : σ → Prop)
    (hstep : ∀ s e, p s e = false → I s → I (step s e)) (hs : I s)
    (hp : saw p step s es = false) : I (run step s es) := by
  induction es generalizing s with
  | nil => exact hs
  | cons e es ih =>
    simp only [saw, Bool.or_eq_false_iff] at hp
    obtain ⟨he, hes⟩ := hp
    exact ih (hstep s e he hs) hes

/-- A property that an invariant implies, and that goes when a `bad` event breaks the invariant,
holds all along a run exactly when it has no such event, as far as it has none that `out` rules
out. -/
theorem all_states_iff {step : σ → ε → σ} {out bad : σ → ε → Bool} (I P : σ → Prop)
    (hP : ∀ s, I s → P s)
    (hgood : ∀ s e, out s e = false → bad s e = false → I s → I (step s e))
    (hbad : ∀ s e, out s e = false → bad s e = true → I s → ¬ P (step s e))
    (hs : I s) (hout : saw out step s es = false) :
    (∀ pre, pre <+: es → P (run step s pre)) ↔ saw bad step s es = false := by
  induction es generalizing s with
  | nil =>
    constructor
    · intro _
      rfl
    · intro _ pre hpre
      rw [List.prefix_nil.1 hpre]
      exact hP s hs
  | cons e es ih =>
    simp only [saw, Bool.or_eq_false_iff] at hout ⊢
    obtain ⟨he, hes⟩ := hout
    constructor
    · intro h
      have hnot : bad s e = false := by
        rw [← Bool.not_eq_true]
        intro hb
        exact hbad s e he hb hs (h [e] (List.cons_prefix_cons.2 ⟨rfl, List.nil_prefix⟩))
      refine ⟨hnot, (ih (hgood s e he hnot hs) hes).1 ?_⟩
      intro pre hpre
      exact h (e :: pre) (List.cons_prefix_cons.2 ⟨rfl, hpre⟩)
    · rintro ⟨hnot, hrest⟩ pre hpre
      cases pre with
      | nil => exact hP s hs
      | cons e' pre =>
        obtain ⟨rfl, hpre'⟩ := List.cons_prefix_cons.1 hpre
        exact (ih (hgood s e' he hnot hs) hes).2 hrest pre hpre'

theorem every_state_iff {step : σ → ε → σ} {bad : σ → ε → Bool} (I P : σ → Prop)
    (hP : ∀ s, I s → P s) (hgood : ∀ s e, bad s e = false → I s → I (step s e))
    (hbad : ∀ s e, bad s e = true → I s → ¬ P (step s e)) (hs : I s) (es : List ε) :
    (∀ pre, pre <+: es → P (run step s pre)) ↔ saw bad step s es = false := by
  have hout : saw (fun _ _ => false) step s es = false :=
    saw_eq_false_of_forall (fun _ _ _ => rfl) s
  exact all_states_iff I P hP (fun s e _ => hgood s e) (fun s e _ => hbad s e) hs hout

theorem run_kept_iff {step : σ → ε → σ} {p : σ → ε → Bool} (I Q : σ → Prop)
    (hI : ∀ s e, I s → I (step s e))
    (hQ : ∀ s e, I s → (Q (step s e) ↔ Q s ∧ p s e = false)) (hs : I s) (es : List ε) :
    Q (run step s es) ↔ Q s ∧ saw p step s es = false := by
  induction es generalizing s with
  | nil => exact ⟨fun h => ⟨h, rfl⟩, fun h => h.1⟩
  | cons e es ih => rw [run_cons, ih (hI s e hs), hQ s e hs, saw, Bool.or_eq_false_iff, and_assoc]

/-- A machine that can always get nearer to its goal can get there. -/
theorem exists_run_of_progress {step : σ → ε → σ} {p : σ → ε → Bool} (I goal : σ → Prop)
    (μ : σ → Nat)
    (h : ∀ s, I s → goal s ∨ ∃ e, p s e = false ∧ I (step s e) ∧ μ (step s e) < μ s) (hs : I s) :
    ∃ es, saw p step s es = false ∧ goal (run step s es) := by
  induction hn : μ s using Nat.strong_induction_on generalizing s with
  | _ n ih =>
    rcases h s hs with hgoal | ⟨e, he, hI, hlt⟩
    · exact ⟨[], rfl, hgoal⟩
    · obtain ⟨es, hes, hgoal⟩ := ih _ (hn ▸ hlt) hI rfl
      exact ⟨e :: es, by rw [saw, he, hes, Bool.false_or], hgoal⟩

/-- What the events of a run give out, in their order. -/
def trace (f : σ → ε → Option β) (step : σ → ε → σ) : σ → List ε → List β
  | _, [] => []
  | s, e :: es => (f s e).toList ++ trace f step (step s e) es

theorem trace_map (g : β → γ) (f : σ → ε → Option β) (step : σ → ε → σ) (s : σ) (es : List ε) :
    (trace f step s es).map g = trace (fun s e => (f s e).map g) step s es := by
  induction es generalizing s with
  | nil => rfl
  | cons e es ih =>
    rw [trace, List.map_append, ih, trace]
    cases f s e <;> rfl

/-- What every step keeps about a state and what was given out so far, every run keeps, but for the
events that `p` singles out. -/
theorem run_trace_of {step : σ → ε → σ} {p : σ → ε → Bool} {f : σ → ε → Option β}
    (I : σ → List β → Prop)
    (hstep : ∀ s hs e, p s e = false → I s hs → I (step s e) (hs ++ (f s e).toList))
    (hs : I s hist) (hp : saw p step s es = false) :
    I (run step s es) (hist ++ trace f step s es) := by
  induction es generalizing s hist with
  | nil =>
    rw [trace, List.append_nil]
    exact hs
  | cons e es ih =>
    simp only [saw, Bool.or_eq_false_iff] at hp
    obtain ⟨he, hes⟩ := hp
    rw [trace, ← List.append_assoc]
    exact ih (hstep s hist e he hs) hes

theorem run_trace {step : σ → ε → σ} {f : σ → ε → Option β} (I : σ → List β → Prop)
    (hstep : ∀ s hs e, I s hs → I (step s e) (hs ++ (f s e).toList)) (h : I s []) (es : List ε) :
    I (run step s es) (trace f step s es) := by
  have hout : saw (fun _ _ => false) step s es = false :=
    saw_eq_false_of_forall (fun _ _ _ => rfl) s
  exact run_trace_of I (fun s hs e _ => hstep s hs e) h hout

theorem run_related {f : σ → ε → σ} {g : τ → ε → τ} (R : σ → τ → Prop)
    (hstep : ∀ s t e, R s t → R (f s e) (g t e)) (h : R s t) (es : List ε) :
    R (run f s es) (run g t es) := by
  induction es generalizing s t with
  | nil => exact h
  | cons e es ih => exact ih (hstep s t e h)

/-- A machine gets to its goal in a run with more working events than its measure allows: until it
is there every event keeps the measure, and a working event lowers it. -/
theorem run_reaches {step : σ → ε → σ} {p : σ → ε → Bool} (I goal : σ → Prop) (work : ε → Bool)
    (μ : σ → Nat)
    (hstep : ∀ s e, p s e = false → I s →
      goal (step s e) ∨ I (step s e) ∧ μ (step s e) + (work e).toNat ≤ μ s)
    (hs : I s) (hp : saw p step s es = false) (hn : μ s < es.countP work) :
    ∃ pre, pre <+: es ∧ goal (run step s pre) := by
  induction es generalizing s with
  | nil => exact (Nat.not_lt_zero _ hn).elim
  | cons e es ih =>
    simp only [saw, Bool.or_eq_false_iff] at hp
    obtain ⟨he, hes⟩ := hp
    rcases hstep s e he hs with hg | ⟨hI, hμ⟩
    · exact ⟨[e], List.cons_prefix_cons.2 ⟨rfl, List.nil_prefix⟩, hg⟩
    · have hlt : μ (step s e) < es.countP work := by
        rw [List.countP_cons] at hn
        cases hw : work e with
        | false =>
          simp only [hw, Bool.false_eq_true, if_false, Bool.toNat_false] at hn hμ
          omega
        | true =>
          simp only [hw, if_true, Bool.toNat_true] at hn hμ
          omega
      obtain ⟨pre, hpre, hg⟩ := ih hI hes hlt
      exact ⟨e :: pre, List.cons_prefix_cons.2 ⟨rfl, hpre⟩, hg⟩

theorem run_halts {step : σ → ε → σ} {p : σ → ε → Bool} (I goal : σ → Prop) (work : ε → Bool)
    (μ : σ → Nat) (hkeep : ∀ s e, goal s → goal (step s e))
    (hstep : ∀ s e, p s e = false → I s →
      goal (step s e) ∨ I (step s e) ∧ μ (step s e) + (work e).toNat ≤ μ s)
    (hs : I s) (hp : saw p step s es = false) (hn : μ s < es.countP work) :
    goal (run step s es) := by
  obtain ⟨pre, ⟨es', rfl⟩, hg⟩ := run_reaches I goal work μ hstep hs hp hn
  rw [run_append]
  exact run_invariant goal hkeep hg es'

/-- What every step keeps for some bound that is not lower, every state of a run has for bounds
that never go down. -/
theorem run_grows [Preorder β] {step : σ → ε → σ} (J : σ → β → Prop)
    (hstep : ∀ s b e, J s b → ∃ b', b ≤ b' ∧ J (step s e) b') (hs : J s b) (es : List ε) :
    ∃ κ : Nat → β, Monotone κ ∧ (∀ i, b ≤ κ i) ∧ ∀ i, J (run step s (es.take i)) (κ i) := by
  induction es generalizing s b with
  | nil =>
    refine ⟨fun _ => b, monotone_const, fun _ => le_refl b, ?_⟩
    intro i
    rw [List.take_nil]
    exact hs
  | cons e es ih =>
    obtain ⟨b', hle, hb'⟩ := hstep s b e hs
    obtain ⟨κ, hmono, hbound, hκ⟩ := ih hb'
    refine ⟨fun i => Nat.casesOn i b κ, ?_, ?_, ?_⟩
    · apply monotone_nat_of_le_succ
      intro i
      cases i with
      | zero => exact hle.trans (hbound 0)
      | succ i => exact hmono (Nat.le_succ i)
    · intro i
      cases i with
      | zero => exact le_refl b
      | succ i => exact hle.trans (hbound i)
    · intro i
      cases i with
      | zero => exact hs
      | succ i => exact hκ i

end SysPrg
