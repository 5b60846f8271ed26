import Mathlib.Tactic.IntervalCases
import SysPrg.Run
import SysPrg.Kernel

namespace SysPrg.Sanodef
set_option autoImplicit true

/-- `MAX`. -/
def macroMax : Int32 := 8

/-- Where an activation of `sighdlr` is. `s++` loads and stores, and `saved` is set late. -/
inductive Pc where
  | entry
  | loaded (tmp : Int32)
  | test
  | reset
  | save
  | printf (saved : Int32)
  | delay (saved : Int32) (left : Nat)
  | star (saved : Int32)
  deriving DecidableEq, Repr

inductive Out where
  | count (s : Int32)
  | beep (c : UInt8)
  | star
  deriving DecidableEq, Repr

/-- The process: the static counter, the activations with the newest first, whether a SIGINT is
pending, and what was printed. -/
structure Proc where
  s : Int32
  stack : List Pc
  pending : Bool
  out : List Out
  deriving DecidableEq, Repr

def Proc.start : Proc := ⟨0, [], false, []⟩

inductive Ev where
  | sigint
  | step
  deriving DecidableEq, Repr

/-- A SIGINT arrives. It is held back in an activation unless `SA_NODEFER` is set. -/
def Proc.deliver (nodefer : Bool) (p : Proc) : Proc :=
  if p.stack = [] ∨ nodefer then { p with stack := .entry :: p.stack }
  else { p with pending := true }

/-- The newest activation returns to the one below it, or to `pause`. -/
def Proc.ret (p : Proc) (rest : List Pc) : Proc :=
  if p.pending then { p with stack := .entry :: rest, pending := false }
  else { p with stack := rest }

/-- `saved + 48` is an `int`, and `beep` makes it a `char`. -/
def digit (saved : Int32) : UInt8 := (saved + 48).toInt8.toUInt8

def Proc.go (p : Proc) : Proc :=
  match p.stack with
  | [] => p
  | .entry :: rest => { p with stack := .loaded p.s :: rest }
  | .loaded tmp :: rest => { p with s := tmp + 1, stack := .test :: rest }
  | .test :: rest => { p with stack := (if p.s ≥ macroMax then .reset else .save) :: rest }
  | .reset :: rest => { p with s := 1, stack := .save :: rest }
  -- `saved` is what the counter is by now, not what it was raised to
  | .save :: rest => { p with stack := .printf p.s :: rest }
  | .printf saved :: rest =>
    { p with stack := .delay saved 30 :: rest, out := p.out ++ [.count p.s] }
  | .delay saved (left + 1) :: rest =>
    { p with stack := .delay saved left :: rest, out := p.out ++ [.beep (digit saved)] }
  | .delay saved 0 :: rest => { p with stack := .star saved :: rest }
  | .star _ :: rest => Proc.ret { p with out := p.out ++ [.star] } rest

def Proc.step (nodefer : Bool) (p : Proc) : Ev → Proc
  | .sigint => p.deliver nodefer
  | .step => p.go

/-- An activation between its store and its reset has raised the counter by one, at most. -/
def Pc.raised : Pc → Nat
  | .test | .reset => 1
  | _ => 0

def raised (stack : List Pc) : Nat := (stack.map Pc.raised).sum

/-- What the counter can be while an activation is the newest, with `r` raised ones below it. -/
def Pc.Allows (s : Int) (r : Nat) : Pc → Prop
  | .entry | .loaded _ => 0 ≤ s ∧ s ≤ 7 + r
  | .test | .reset => 1 ≤ s ∧ s ≤ 8 + r
  | .save | .printf _ | .delay _ _ | .star _ => 1 ≤ s ∧ s ≤ 7

def Allows (s : Int) : List Pc → Prop
  | [] => 1 ≤ s ∧ s ≤ 7
  | pc :: rest => pc.Allows s (raised rest)

/-- What an activation has in its own variables, as long as it lasts. -/
def Pc.Local (r : Nat) : Pc → Prop
  | .loaded tmp => 0 ≤ tmp.toInt ∧ tmp.toInt ≤ 7 + r
  | .printf saved | .delay saved _ | .star saved => 1 ≤ saved.toInt ∧ saved.toInt ≤ 7
  | _ => True

def Locals : List Pc → Prop
  | [] => True
  | pc :: rest => pc.Local (raised rest) ∧ Locals rest

structure Proc.Inv (p : Proc) : Prop where
  counter : Allows p.s.toInt p.stack
  locals : Locals p.stack
  digits : ∀ c, .beep c ∈ p.out → 49 ≤ c ∧ c ≤ 55

theorem raised_cons (pc : Pc) (rest : List Pc) : raised (pc :: rest) = pc.raised + raised rest :=
  List.sum_cons

theorem raised_le (stack : List Pc) : raised stack ≤ stack.length := by
  induction stack with
  | nil => exact Nat.le_refl 0
  | cons pc rest ih =>
    have hpc : pc.raised ≤ 1 := by
      unfold Pc.raised
      split <;> decide
    rw [raised_cons, List.length_cons]
    omega

theorem allows_of_range (stack : List Pc) (h : 1 ≤ s ∧ s ≤ 7) : Allows s stack := by
  cases stack with
  | nil => exact h
  | cons pc rest =>
    cases pc <;> simp only [Allows, Pc.Allows] <;> omega

theorem Allows.entry (h : Allows s stack) : Allows s (.entry :: stack) := by
  cases stack with
  | nil =>
    simp only [Allows, Pc.Allows] at h ⊢
    omega
  | cons pc rest =>
    cases pc <;> simp only [Allows, Pc.Allows, raised_cons, Pc.raised] at h ⊢ <;> omega

theorem toInt_succ {tmp : Int32} (h : tmp.toInt + 1 < 2 ^ 31) :
    (tmp + 1).toInt = tmp.toInt + 1 := by
  have hlo := tmp.le_toInt
  have hone : (1 : Int32).toInt = 1 := rfl
  rw [Int32.toInt_add, hone, Int.bmod_eq_of_le (by omega) (by omega)]

theorem digit_range (h : 1 ≤ saved.toInt ∧ saved.toInt ≤ 7) :
    49 ≤ digit saved ∧ digit saved ≤ 55 := by
  obtain ⟨n, hn⟩ : ∃ n : Nat, n = saved.toInt.toNat := ⟨_, rfl⟩
  have hsaved : saved = Int32.ofInt n := by
    rw [hn, Int.toNat_of_nonneg (by omega), Int32.ofInt_toInt]
  have hpos : 1 ≤ n := by omega
  have hle : n ≤ 7 := by omega
  subst hsaved
  interval_cases n <;> decide

theorem Proc.Inv.deliver {p : Proc} (h : p.Inv) (nodefer : Bool) : (p.deliver nodefer).Inv := by
  unfold Proc.deliver
  split
  · exact ⟨h.counter.entry, ⟨trivial, h.locals⟩, h.digits⟩
  · exact ⟨h.counter, h.locals, h.digits⟩

theorem Proc.Inv.ret {p : Proc} (rest : List Pc) (hs : 1 ≤ p.s.toInt ∧ p.s.toInt ≤ 7)
    (hrest : Locals rest) (hout : ∀ c, .beep c ∈ p.out → 49 ≤ c ∧ c ≤ 55) : (p.ret rest).Inv := by
  have hcounter := allows_of_range rest hs
  unfold Proc.ret
  split
  · exact ⟨hcounter.entry, ⟨trivial, hrest⟩, hout⟩
  · exact ⟨hcounter, hrest, hout⟩

theorem digits_append (h : ∀ c, Out.beep c ∈ out → 49 ≤ c ∧ c ≤ 55)
    (ho : ∀ c, o = .beep c → 49 ≤ c ∧ c ≤ 55) :
    ∀ c, Out.beep c ∈ out ++ [o] → 49 ≤ c ∧ c ≤ 55 := by
  intro c hc
  rcases List.mem_append.1 hc with hc | hc
  · exact h c hc
  · exact ho c (List.mem_singleton.1 hc).symm

/-- The most activations at one time for which the `int` counter is large enough. -/
def depthMax : Nat := 2 ^ 31 - 8

theorem Proc.Inv.go {p : Proc} (h : p.Inv) (hdepth : p.stack.length ≤ depthMax) : p.go.Inv := by
  obtain ⟨s, stack, pending, out⟩ := p
  obtain ⟨hs, hl, hout⟩ := h
  cases stack with
  | nil => exact ⟨hs, hl, hout⟩
  | cons pc rest =>
    obtain ⟨hpc, hrest⟩ := hl
    cases pc with
    | entry => exact ⟨hs, ⟨hs, hrest⟩, hout⟩
    | loaded tmp =>
      -- only here can the counter overflow, and the depth keeps it from that
      have hr := raised_le rest
      simp only [List.length_cons, depthMax] at hdepth
      simp only [Pc.Local] at hpc
      refine ⟨?_, ⟨trivial, hrest⟩, hout⟩
      change 1 ≤ (tmp + 1).toInt ∧ (tmp + 1).toInt ≤ 8 + raised rest
      rw [toInt_succ (by omega)]
      omega
    | test =>
      simp only [Allows, Pc.Allows] at hs
      simp only [Proc.go]
      split
      · exact ⟨hs, ⟨trivial, hrest⟩, hout⟩
      · next hlt =>
        rw [ge_iff_le, Int32.le_iff_toInt_le] at hlt
        refine ⟨⟨hs.1, ?_⟩, ⟨trivial, hrest⟩, hout⟩
        change ¬ 8 ≤ s.toInt at hlt
        change s.toInt ≤ 7
        omega
    | reset =>
      have hone : 1 ≤ (1 : Int32).toInt ∧ (1 : Int32).toInt ≤ 7 := by decide
      exact ⟨hone, ⟨trivial, hrest⟩, hout⟩
    | save => exact ⟨hs, ⟨hs, hrest⟩, hout⟩
    | printf saved =>
      exact ⟨hs, ⟨hpc, hrest⟩, digits_append hout fun c hc => (by cases hc)⟩
    | delay saved left =>
      cases left with
      | zero => exact ⟨hs, ⟨hpc, hrest⟩, hout⟩
      | succ left =>
        refine ⟨hs, ⟨hpc, hrest⟩, digits_append hout ?_⟩
        intro c hc
        cases hc
        exact digit_range hpc
    | star saved =>
      exact Proc.Inv.ret rest hs hrest (digits_append hout fun c hc => (by cases hc))

def tooDeep (p : Proc) (_ : Ev) : Bool := depthMax < p.stack.length

theorem Proc.Inv.step {p : Proc} (nodefer : Bool) (e : Ev) (he : tooDeep p e = false)
    (h : p.Inv) : (p.step nodefer e).Inv := by
  cases e with
  | sigint => exact h.deliver nodefer
  | step => exact h.go (Nat.not_lt.1 (of_decide_eq_false he))

theorem run_idle (nodefer : Bool) (h : Ev.sigint ∉ es) :
    run (Proc.step nodefer) .start es = .start := by
  induction es with
  | nil => rfl
  | cons e es ih =>
    rw [List.mem_cons, not_or] at h
    cases e with
    | sigint => exact (h.1 rfl).elim
    | step => exact ih h.2

theorem first_inv (nodefer : Bool) : (Proc.step nodefer .start .sigint).Inv where
  counter := by
    have hzero : 0 ≤ (0 : Int32).toInt ∧ (0 : Int32).toInt ≤ 7 + (0 : Nat) := by decide
    exact hzero
  locals := ⟨trivial, trivial⟩
  digits c hc := by cases hc

theorem run_inv (nodefer : Bool) (h : Ev.sigint ∈ es)
    (hes : saw tooDeep (Proc.step nodefer) .start es = false) :
    (run (Proc.step nodefer) .start es).Inv := by
  obtain ⟨pre, post, rfl, hpre⟩ := List.eq_append_cons_of_mem h
  rw [saw_append, run_idle nodefer hpre, Bool.or_eq_false_iff, saw, Bool.or_eq_false_iff] at hes
  rw [run_append, run_idle nodefer hpre, run_cons]
  exact run_invariant_of Proc.Inv (fun p e => Proc.Inv.step nodefer e) (first_inv nodefer) hes.2.2

def Pc.saved : Pc → Option Int32
  | .printf saved | .delay saved _ | .star saved => some saved
  | _ => none

theorem range_iff (v : Int32) : (1 ≤ v ∧ v < macroMax) ↔ 1 ≤ v.toInt ∧ v.toInt ≤ 7 := by
  rw [Int32.le_iff_toInt_le, Int32.lt_iff_toInt_lt]
  change 1 ≤ v.toInt ∧ v.toInt < 8 ↔ _
  omega

theorem Locals.saved (h : Locals stack) (hpc : pc ∈ stack) (hv : pc.saved = some v) :
    1 ≤ v ∧ v < macroMax := by
  induction stack with
  | nil => cases hpc
  | cons pc' rest ih =>
    rcases List.mem_cons.1 hpc with rfl | hpc
    · have hl := h.1
      rw [range_iff]
      cases pc with
      | printf | delay | star =>
        cases hv
        exact hl
      | _ => cases hv
    · exact ih h.2 hpc

theorem saved_in_range (nodefer : Bool) (es : List Ev)
    (hes : saw tooDeep (Proc.step nodefer) .start es = false) :
    (∀ pc ∈ (run (Proc.step nodefer) .start es).stack, ∀ v, pc.saved = some v →
      1 ≤ v ∧ v < macroMax) ∧
    (∀ c, .beep c ∈ (run (Proc.step nodefer) .start es).out → 49 ≤ c ∧ c ≤ 55) ∧
    ((run (Proc.step nodefer) .start es).stack = [] → .sigint ∈ es →
      1 ≤ (run (Proc.step nodefer) .start es).s ∧
        (run (Proc.step nodefer) .start es).s < macroMax) := by
  by_cases h : Ev.sigint ∈ es
  · have hinv := run_inv nodefer h hes
    refine ⟨fun pc hpc v hv => hinv.locals.saved hpc hv, hinv.digits, fun hnil _ => ?_⟩
    have hs := hinv.counter
    rw [hnil] at hs
    exact (range_iff _).2 hs
  · rw [run_idle nodefer h]
    exact ⟨fun pc hpc => (by cases hpc), fun c hc => (by cases hc), fun _ h' => (h h').elim⟩

def activation : List Ev := .sigint :: List.replicate 37 .step

/-- Activations each of which is interrupted between its store and its test. -/
def climb (n : Nat) : List Ev := (List.replicate n [.sigint, .step, .step]).flatten

/-- Nine activations, the last of which wraps the counter, return one after the other. -/
theorem saved_in_range_nested :
    1 ≤ (run (Proc.step true) .start (climb 9 ++ List.replicate 316 .step)).s ∧
      (run (Proc.step true) .start (climb 9 ++ List.replicate 316 .step)).s < macroMax := by
  have hdeep : saw tooDeep (Proc.step true) .start (climb 9 ++ List.replicate 316 .step) =
      false := by decide +kernel
  have hret : (run (Proc.step true) .start (climb 9 ++ List.replicate 316 .step)).stack = [] := by
    decide +kernel
  have hsig : Ev.sigint ∈ climb 9 ++ List.replicate 316 .step := by decide +kernel
  exact (saved_in_range true _ hdeep).2.2 hret hsig

theorem run_climb (n : Nat) (p : Proc) : run (Proc.step true) p (climb n) =
    { p with s := p.s + Int32.ofNat n, stack := List.replicate n .test ++ p.stack } := by
  induction n generalizing p with
  | zero =>
    have hs : p.s + Int32.ofNat 0 = p.s := Int32.add_zero p.s
    rw [hs]
    rfl
  | succ n ih =>
    have hs : p.s + 1 + Int32.ofNat n = p.s + Int32.ofNat (n + 1) := by
      rw [Int32.ofNat_add, Int32.add_comm (Int32.ofNat n), Int32.add_assoc]
      rfl
    have hstack : List.replicate n Pc.test ++ .test :: p.stack =
        List.replicate (n + 1) .test ++ p.stack := by
      rw [List.replicate_succ', List.append_assoc]
      rfl
    have hround : run (Proc.step true) p [.sigint, .step, .step] =
        { p with s := p.s + 1, stack := .test :: p.stack } := by
      simp [Proc.step, Proc.deliver, Proc.go]
    rw [climb, List.replicate_succ, List.flatten_cons, run_append, hround, ← climb, ih]
    dsimp only
    rw [hs, hstack]

theorem run_seven : ∃ out, run (Proc.step true) .start (List.replicate 7 activation).flatten =
    ⟨7, [], false, out⟩ :=
  ⟨(run (Proc.step true) .start (List.replicate 7 activation).flatten).out, by decide +kernel⟩

/-- One activation more than `depthMax` and the counter overflows: the newest saves a negative
number. -/
theorem saved_overflows :
    .printf Int32.minValue ∈ (run (Proc.step true) .start
      ((List.replicate 7 activation).flatten ++ (climb (2 ^ 31 - 7) ++ [.step, .step]))).stack ∧
    ¬ 1 ≤ Int32.minValue := by
  have hnewest (s : Int32) (n : Nat) (out : List Out) (hs : ¬ s ≥ macroMax) :
      run (Proc.step true) ⟨s, List.replicate (n + 1) .test ++ [], false, out⟩ [.step, .step] =
        ⟨s, .printf s :: (List.replicate n .test ++ []), false, out⟩ := by
    simp [List.replicate_succ, Proc.step, Proc.go, hs]
  obtain ⟨out, hseven⟩ := run_seven
  have hmin : (7 : Int32) + Int32.ofNat (2 ^ 31 - 7) = Int32.minValue := by decide
  have hn : 2 ^ 31 - 7 = 2147483640 + 1 := rfl
  refine ⟨?_, by decide⟩
  rw [run_append, hseven, run_append, run_climb]
  dsimp only
  rw [hmin, hn, hnewest _ _ _ (by decide)]
  exact List.mem_cons_self

end SysPrg.Sanodef
