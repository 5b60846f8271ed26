import SysPrg.Run
import SysPrg.Kernel
import SysPrg.Fill

namespace SysPrg.ShmMutex
set_option autoImplicit true

def chunkSz : Nat := 4096

def numIters (len : Nat) : Nat := len / chunkSz

/-- One turn of the loop of `update_udata`, or the remainder after the last, and the turn that comes
next. -/
def updateStep (udata : Nat → UInt8) (letter : UInt8) (offset len i : Nat) :
    (Nat → UInt8) × Option Nat :=
  if i < numIters len then
    (fill (offset + i * chunkSz) chunkSz letter udata, some (i + 1))
  else if len % chunkSz ≠ 0 then
    (fill (offset + numIters len * chunkSz) (len % chunkSz) letter udata, none)
  else (udata, none)

def updateUdata (udata : Nat → UInt8) (letter : UInt8) (offset len : Nat) : Nat → UInt8 :=
  (updateStep ((List.range (numIters len)).foldl
    (fun m i => (updateStep m letter offset len i).1) udata) letter offset len (numIters len)).1

inductive ParentPc where
  | update (i : Nat)
  | semPost
  | wait
  | exited
  deriving DecidableEq, Repr

inductive ChildPc where
  | semWait
  | update (i : Nat)
  | exited
  deriving DecidableEq, Repr

structure Sys where
  udata : Nat → UInt8
  sem : Nat
  parent : ParentPc
  child : ChildPc

inductive Ev where
  | parent (a : Answer)
  | child (a : Answer)
  deriving DecidableEq, Repr

def Sys.start (useMtx : Bool) (udata : Nat → UInt8) : Sys :=
  ⟨udata, 0, .update 0, if useMtx then .semWait else .update 0⟩

def Sys.parentStep (useMtx : Bool) (len : Nat) (s : Sys) (a : Answer) : Sys :=
  match s.parent, a with
  | .update i, _ =>
    match updateStep s.udata 112 0 (len * 10) i with
    | (m, some j) => { s with udata := m, parent := .update j }
    | (m, none) => { s with udata := m, parent := if useMtx then .semPost else .wait }
  | .semPost, .fail _ => { s with parent := .wait }
  | .semPost, .done _ => { s with sem := s.sem + 1, parent := .wait }
  | .wait, .fail _ => { s with parent := .exited }
  | .wait, .done _ => if s.child = .exited then { s with parent := .exited } else s
  | .exited, _ => s

/-- The child goes on even when its `sem_wait` fails. -/
def Sys.childStep (len : Nat) (s : Sys) (a : Answer) : Sys :=
  match s.child, a with
  | .semWait, .fail _ => { s with child := .update 0 }
  | .semWait, .done _ => if 0 < s.sem then { s with sem := s.sem - 1, child := .update 0 } else s
  | .update i, _ =>
    match updateStep s.udata 99 len (len * 10) i with
    | (m, some j) => { s with udata := m, child := .update j }
    | (m, none) => { s with udata := m, child := .exited }
  | .exited, _ => s

def Sys.step (useMtx : Bool) (len : Nat) (s : Sys) : Ev → Sys
  | .parent a => s.parentStep useMtx len a
  | .child a => s.childStep len a

def fails (s : Sys) : Ev → Bool
  | .parent (.fail _) => s.parent == .semPost
  | .child (.fail _) => s.child == .semWait
  | _ => false

theorem updateStep_fill (letter : UInt8) (offset len : Nat) (m : Nat → UInt8)
    (hi : i ≤ numIters len) :
    updateStep (fill offset (i * chunkSz) letter m) letter offset len i =
      if i < numIters len then (fill offset ((i + 1) * chunkSz) letter m, some (i + 1))
      else (fill offset len letter m, none) := by
  unfold updateStep
  by_cases hlt : i < numIters len
  · rw [if_pos hlt, if_pos hlt, fill_fill, Nat.succ_mul]
  · obtain rfl : i = numIters len := by omega
    have hlen : numIters len * chunkSz + len % chunkSz = len := Nat.div_add_mod' len chunkSz
    rw [if_neg hlt, if_neg hlt]
    split
    · rw [fill_fill, hlen]
    · next hrem =>
      have hlen' : numIters len * chunkSz = len := by omega
      rw [hlen']

theorem updateUdata_eq (udata : Nat → UInt8) (letter : UInt8) (offset len : Nat) :
    updateUdata udata letter offset len = fill offset len letter udata := by
  have hloop (n : Nat) (hn : n ≤ numIters len) :
      (List.range n).foldl (fun m i => (updateStep m letter offset len i).1) udata =
        fill offset (n * chunkSz) letter udata := by
    induction n with
    | zero => rw [List.range_zero, List.foldl_nil, Nat.zero_mul, fill_zero]
    | succ n ih =>
      rw [List.range_succ, List.foldl_append, ih (Nat.le_of_succ_le hn), List.foldl_cons,
        List.foldl_nil, updateStep_fill letter offset len udata (Nat.le_of_succ_le hn),
        if_pos (Nat.lt_of_succ_le hn)]
  rw [updateUdata, hloop _ (Nat.le_refl _), updateStep_fill _ _ _ _ (Nat.le_refl _),
    if_neg (Nat.lt_irrefl _)]

def ParentPc.written (len : Nat) : ParentPc → Nat
  | .update i => i * chunkSz
  | _ => len * 10

def ChildPc.written (len : Nat) : ChildPc → Nat
  | .semWait => 0
  | .update i => i * chunkSz
  | .exited => len * 10

def ParentPc.posted : ParentPc → Bool
  | .wait | .exited => true
  | _ => false

/-- The child comes after the parent: the semaphore is up, or the child past it, exactly when the
parent has posted it. -/
structure Sys.Sound (len : Nat) (m₀ : Nat → UInt8) (s : Sys) : Prop where
  region : s.udata = fill len (s.child.written len) 99 (fill 0 (s.parent.written len) 112 m₀)
  order : (s.child ≠ .semWait ∨ 0 < s.sem) ↔ s.parent.posted = true
  parent : ∀ i, s.parent = .update i → i ≤ numIters (len * 10)
  child : ∀ i, s.child = .update i → i ≤ numIters (len * 10)

theorem start_sound (len : Nat) (m₀ : Nat → UInt8) :
    (Sys.start true m₀).Sound len m₀ where
  region := by
    simp only [Sys.start, if_true, ChildPc.written, ParentPc.written, Nat.zero_mul, fill_zero]
  order := ⟨fun h => (h.elim (fun hc => (hc rfl).elim) (Nat.lt_irrefl 0)).elim, fun h => by cases h⟩
  parent i hi := by
    cases hi
    exact Nat.zero_le _
  child i hi := by cases hi

theorem Sys.Sound.not_posted {s : Sys} (h : s.Sound len m₀) (hp : s.parent.posted = false) :
    s.child = .semWait ∧ s.sem = 0 := by
  have hnot : ¬ (s.child ≠ .semWait ∨ 0 < s.sem) := by
    rw [h.order, hp]
    decide
  rw [not_or, not_not, Nat.not_lt, Nat.le_zero] at hnot
  exact hnot

theorem Sys.Sound.parentStep {s : Sys} (h : s.Sound len m₀)
    (he : fails s (.parent a) = false) : (s.parentStep true len a).Sound len m₀ := by
  obtain ⟨m, sem, parent, child⟩ := s
  cases parent with
  | update i =>
    obtain ⟨rfl, rfl⟩ := h.not_posted rfl
    have hi := h.parent i rfl
    have hm : m = fill 0 (i * chunkSz) 112 m₀ := by
      have hm := h.region
      simp only [ChildPc.written, fill_zero] at hm
      exact hm
    have hstep := updateStep_fill 112 0 (len * 10) m₀ hi
    simp only [Sys.parentStep, hm, hstep]
    by_cases hlt : i < numIters (len * 10)
    · rw [if_pos hlt]
      refine ⟨?_, h.order, ?_, h.child⟩
      · simp only [ChildPc.written, fill_zero]
        rfl
      · intro j hj
        cases hj
        exact hlt
    · rw [if_neg hlt]
      refine ⟨?_, h.order, fun j hj => (by cases hj), h.child⟩
      simp only [ChildPc.written, fill_zero]
      rfl
  | semPost =>
    obtain ⟨rfl, rfl⟩ := h.not_posted rfl
    cases a with
    | fail e => cases he
    | done k =>
      refine ⟨h.region, ⟨fun _ => rfl, fun _ => .inr (Nat.succ_pos 0)⟩, ?_, h.child⟩
      intro i hi
      cases hi
  | wait =>
    have hexit : (Sys.mk m sem .exited child).Sound len m₀ :=
      ⟨h.region, h.order, fun i hi => (by cases hi), h.child⟩
    cases a with
    | fail e => exact hexit
    | done k =>
      simp only [Sys.parentStep]
      split
      · exact hexit
      · exact h
  | exited => cases a <;> exact h

theorem Sys.Sound.childStep {s : Sys} (h : s.Sound len m₀)
    (he : fails s (.child a) = false) : (s.childStep len a).Sound len m₀ := by
  obtain ⟨m, sem, parent, child⟩ := s
  cases child with
  | semWait =>
    cases a with
    | fail e => cases he
    | done k =>
      simp only [Sys.childStep]
      split
      · next hpos =>
        refine ⟨?_, ?_, h.parent, ?_⟩
        · have hm := h.region
          simp only [ChildPc.written, Nat.zero_mul] at hm ⊢
          exact hm
        · have hposted := h.order.1 (.inr hpos)
          exact ⟨fun _ => hposted, fun _ => .inl (fun hc => by cases hc)⟩
        · intro i hi
          cases hi
          exact Nat.zero_le _
      · exact h
  | update i =>
    have hi := h.child i rfl
    have hposted := h.order.1 (.inl (fun hc => by cases hc))
    have hm := h.region
    have hstep := updateStep_fill 99 len (len * 10) (fill 0 (parent.written len) 112 m₀) hi
    simp only [ChildPc.written] at hm
    simp only [Sys.childStep, hm, hstep]
    by_cases hlt : i < numIters (len * 10)
    · rw [if_pos hlt]
      refine ⟨rfl, ⟨fun _ => hposted, fun _ => .inl (fun hc => by cases hc)⟩, h.parent, ?_⟩
      intro j hj
      cases hj
      exact hlt
    · rw [if_neg hlt]
      exact ⟨rfl, ⟨fun _ => hposted, fun _ => .inl (fun hc => by cases hc)⟩, h.parent,
        fun j hj => (by cases hj)⟩
  | exited => cases a <;> exact h

theorem Sys.Sound.step {s : Sys} (h : s.Sound len m₀) (he : fails s e = false) :
    (s.step true len e).Sound len m₀ := by
  cases e with
  | parent a => exact h.parentStep he
  | child a => exact h.childStep he

def ParentPc.left (len : Nat) : ParentPc → Nat
  | .update i => numIters (len * 10) - i + 3
  | .semPost => 2
  | .wait => 1
  | .exited => 0

def ChildPc.left (len : Nat) : ChildPc → Nat
  | .semWait => numIters (len * 10) + 2
  | .update i => numIters (len * 10) - i + 1
  | .exited => 0

def Sys.left (len : Nat) (s : Sys) : Nat := s.parent.left len + s.child.left len

theorem updateStep_next (udata : Nat → UInt8) (letter : UInt8) (offset len i : Nat) :
    ∃ m, updateStep udata letter offset len i =
      (m, if i < numIters len then some (i + 1) else none) := by
  unfold updateStep
  split
  · exact ⟨_, rfl⟩
  · split
    · exact ⟨_, rfl⟩
    · exact ⟨_, rfl⟩

theorem parent_update_left {s : Sys} (hp : s.parent = .update i) (a : Answer) :
    (s.parentStep true len a).left len < s.left len := by
  obtain ⟨m', hstep⟩ := updateStep_next s.udata 112 0 (len * 10) i
  simp only [Sys.parentStep, hp, hstep]
  by_cases hlt : i < numIters (len * 10)
  · simp only [if_pos hlt, Sys.left, ParentPc.left, hp]
    omega
  · simp only [if_neg hlt, if_true, Sys.left, ParentPc.left, hp]
    omega

theorem child_update_left {s : Sys} (hc : s.child = .update i) (a : Answer) :
    (s.childStep len a).left len < s.left len := by
  obtain ⟨m', hstep⟩ := updateStep_next s.udata 99 len (len * 10) i
  simp only [Sys.childStep, hc, hstep]
  by_cases hlt : i < numIters (len * 10)
  · simp only [if_pos hlt, Sys.left, ChildPc.left, hc]
    omega
  · simp only [if_neg hlt, Sys.left, ChildPc.left, hc]
    omega

theorem Sys.Sound.child_left {s : Sys} (h : s.Sound len m₀) (hp : s.parent.posted = true)
    (hexit : s.child ≠ .exited) : (s.childStep len (.done 0)).left len < s.left len := by
  cases hc : s.child with
  | semWait =>
    have hpos : 0 < s.sem := by
      rcases h.order.2 hp with hne | hpos
      · exact (hne hc).elim
      · exact hpos
    simp only [Sys.childStep, hc, if_pos hpos, Sys.left, ChildPc.left]
    omega
  | update i => exact child_update_left hc _
  | exited => exact (hexit hc).elim

theorem Sys.Sound.progress {s : Sys} (h : s.Sound len m₀) :
    (s.parent = .exited ∧ s.child = .exited) ∨ ∃ e, fails s e = false ∧
      (s.step true len e).Sound len m₀ ∧ (s.step true len e).left len < s.left len := by
  have hparent := h.parentStep (a := .done 0) rfl
  have hchild := h.childStep (a := .done 0) rfl
  cases hp : s.parent with
  | update i => exact .inr ⟨.parent (.done 0), rfl, hparent, parent_update_left hp _⟩
  | semPost =>
    refine .inr ⟨.parent (.done 0), rfl, hparent, ?_⟩
    simp only [Sys.step, Sys.parentStep, hp, Sys.left, ParentPc.left]
    omega
  | wait =>
    by_cases hc : s.child = .exited
    · refine .inr ⟨.parent (.done 0), rfl, hparent, ?_⟩
      simp only [Sys.step, Sys.parentStep, hp, hc, if_true, Sys.left, ParentPc.left]
      omega
    · exact .inr ⟨.child (.done 0), rfl, hchild, h.child_left (hp ▸ rfl) hc⟩
  | exited =>
    by_cases hc : s.child = .exited
    · exact .inl ⟨rfl, hc⟩
    · exact .inr ⟨.child (.done 0), rfl, hchild, h.child_left (hp ▸ rfl) hc⟩

theorem fill_over_fill (len : Nat) (m : Nat → UInt8) (a : Nat) :
    fill len (len * 10) 99 (fill 0 (len * 10) 112 m) a =
      if a < len then 112 else if a < 11 * len then 99 else m a := by
  unfold fill
  by_cases hlen : a < len
  · have hout : ¬ (len ≤ a ∧ a < len + len * 10) := by omega
    have hin : 0 ≤ a ∧ a < 0 + len * 10 := by omega
    rw [if_pos hlen, if_neg hout, if_pos hin]
  · rw [if_neg hlen]
    by_cases hend : a < 11 * len
    · have hin : len ≤ a ∧ a < len + len * 10 := by omega
      rw [if_pos hend, if_pos hin]
    · have hout : ¬ (len ≤ a ∧ a < len + len * 10) := by omega
      have hout' : ¬ (0 ≤ a ∧ a < 0 + len * 10) := by omega
      rw [if_neg hend, if_neg hout, if_neg hout']

theorem region_sequential (len : Nat) (m₀ : Nat → UInt8) (es : List Ev)
    (hes : saw fails (Sys.step true len) (.start true m₀) es = false) :
    ((run (Sys.step true len) (.start true m₀) es).parent = .exited →
      (run (Sys.step true len) (.start true m₀) es).child = .exited →
      (run (Sys.step true len) (.start true m₀) es).udata =
        updateUdata (updateUdata m₀ 112 0 (len * 10)) 99 len (len * 10) ∧
      ∀ a, (run (Sys.step true len) (.start true m₀) es).udata a =
        if a < len then 112 else if a < 11 * len then 99 else m₀ a) ∧
    ∃ es', saw fails (Sys.step true len) (run (Sys.step true len) (.start true m₀) es) es' = false ∧
      (run (Sys.step true len) (.start true m₀) (es ++ es')).parent = .exited ∧
      (run (Sys.step true len) (.start true m₀) (es ++ es')).child = .exited := by
  have hsound : (run (Sys.step true len) (.start true m₀) es).Sound len m₀ :=
    run_invariant_of (fun t => t.Sound len m₀) (fun t e he h => h.step he) (start_sound len m₀) hes
  constructor
  · intro hp hc
    have hm := hsound.region
    rw [hp, hc] at hm
    constructor
    · rw [hm, updateUdata_eq, updateUdata_eq]
      rfl
    · intro a
      rw [hm]
      exact fill_over_fill len m₀ a
  · obtain ⟨es', hsaw, hgoal⟩ := exists_run_of_progress (fun t : Sys => t.Sound len m₀)
      (fun t => t.parent = .exited ∧ t.child = .exited) (Sys.left len)
      (fun t h => h.progress) hsound
    rw [← run_append] at hgoal
    exact ⟨es', hsaw, hgoal⟩

theorem region_sequential_two_chunks :
    (run (Sys.step true 500) (.start true fun _ => 0) [.child (.done 0), .parent (.done 0),
      .parent (.done 0), .child (.done 0), .parent (.done 0), .child (.done 0), .child (.done 0),
      .parent (.done 0), .child (.done 0), .parent (.done 0)]).udata 4999 = 99 :=
  ((region_sequential 500 (fun _ => 0) [.child (.done 0), .parent (.done 0), .parent (.done 0),
    .child (.done 0), .parent (.done 0), .child (.done 0), .child (.done 0), .parent (.done 0),
    .child (.done 0), .parent (.done 0)] (by decide +kernel)).1 (by decide +kernel)
    (by decide +kernel)).2 4999

end SysPrg.ShmMutex
