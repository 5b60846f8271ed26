import SysPrg.Run
import SysPrg.Wait

namespace SysPrg.ClearZomb
set_option autoImplicit true

/-- What `wait3` returns: a child, known by its place among the children, 0 or -1. -/
inductive Ret where
  | pid (cpid : Nat)
  | zero
  | fail
  deriving DecidableEq, Repr

def ready (children : List ChildState) (cpid : Nat) : Bool :=
  (children[cpid]?.bind (ChildState.wait false)).isSome

/-- `wait3(0, WNOHANG, 0)`, for a kernel that looks at the child `pick` first. -/
def wait3 (children : List ChildState) (pick : Nat) : Ret × List ChildState :=
  match (pick :: List.range children.length).find? (ready children) with
  | some cpid => (.pid cpid, children.set cpid .reaped)
  | none => if children.all (· == .reaped) then (.fail, children) else (.zero, children)

/-- The handler in its loop: the children of the process, what `wait3` has returned to the
`printf` of the body, and whether the loop has been left. -/
structure Handler where
  children : List ChildState
  cleared : List Ret
  returned : Bool
  deriving DecidableEq, Repr

inductive Ev where
  | call (pick : Nat)
  | child (cpid : Nat) (e : ChildEv)
  deriving DecidableEq, Repr

/-- The handler as it starts, with children that are running or dead already. -/
def Handler.start (children : List (Option Death)) : Handler where
  children := children.map fun d => d.elim .running .zombie
  cleared := []
  returned := false

/-- The loop test and the body behind it. -/
def Handler.call (s : Handler) (pick : Nat) : Handler :=
  match wait3 s.children pick with
  | (.fail, _) => { s with returned := true }
  -- also for a 0: a zombie 0 is printed, and the loop goes on
  | (ret, children) => { s with children := children, cleared := s.cleared ++ [ret] }

def Handler.step (s : Handler) : Ev → Handler
  | .call pick => if s.returned then s else s.call pick
  | .child cpid e => { s with children := s.children.modify cpid (·.step e) }

/-- The handler when it goes on for as many calls as there are picks, and no child changes. -/
def Handler.calls (s : Handler) (picks : List Nat) : Handler :=
  run (fun s pick => s.step (.call pick)) s picks

def dead : ChildState → Bool
  | .zombie _ => true
  | .reaped => true
  | _ => false

def spins (s : Handler) : Ev → Bool
  | .call _ => !s.returned && s.children.any (!dead ·) &&
      s.children.all fun c => (c.wait false).isNone
  | .child _ _ => false

/-- What the handler is for: it returns, does not wait for a child that is alive, and has then
cleared every child once. -/
structure Clears (s : Handler) : Prop where
  returns : ∃ n, ∀ picks : List Nat, n ≤ picks.length → (s.calls picks).returned = true
  nowait : ∀ picks, Ret.zero ∉ (s.calls picks).cleared
  cleared : ∀ picks, (s.calls picks).returned = true →
    ∀ (cpid : Nat) c, (s.calls picks).children[cpid]? = some c →
      c = .reaped ∧ (s.calls picks).cleared.count (.pid cpid) = 1

theorem not_alive {children : List ChildState} (h : ∀ c ∈ children, dead c = true) :
    ¬ ∃ c ∈ children, dead c = false := by
  rintro ⟨c, hc, halive⟩
  exact Bool.noConfusion ((h c hc).symm.trans halive)

theorem dead_of_reaped {children : List ChildState} (h : ∀ c ∈ children, c = .reaped) :
    ∀ c ∈ children, dead c = true := fun c hc => congrArg dead (h c hc)

theorem wait_isSome_iff (c : ChildState) :
    (c.wait false).isSome = true ↔ dead c = true ∧ c ≠ .reaped := by
  cases c with
  | running => decide
  | stopped sig r => cases r <;> simp [ChildState.wait, dead]
  | zombie d => simp [ChildState.wait, dead]
  | reaped => decide

theorem ready_iff : ready children cpid = true ↔
    ∃ c, children[cpid]? = some c ∧ dead c = true ∧ c ≠ .reaped := by
  unfold ready
  cases children[cpid]? with
  | none => exact ⟨fun h => (by cases h), fun ⟨_, h, _⟩ => (by cases h)⟩
  | some c =>
    rw [Option.bind_some, wait_isSome_iff]
    exact ⟨fun h => ⟨c, rfl, h⟩, fun ⟨_, h, h'⟩ => Option.some.inj h ▸ h'⟩

/-- The three kinds of result of `wait3`: a dead child that is cleared, no child at all, only
children that are alive. -/
theorem wait3_cases (children : List ChildState) (pick : Nat) :
    (∃ cpid c, children[cpid]? = some c ∧ dead c = true ∧ c ≠ .reaped ∧
      wait3 children pick = (.pid cpid, children.set cpid .reaped)) ∨
    (∀ c ∈ children, c = .reaped) ∧ wait3 children pick = (.fail, children) ∨
    (∀ c ∈ children, dead c = true → c = .reaped) ∧ (∃ c ∈ children, dead c = false) ∧
      wait3 children pick = (.zero, children) := by
  unfold wait3
  split
  · next cpid h =>
    obtain ⟨c, hc, hdead, hne⟩ := ready_iff.mp (List.find?_some h)
    exact .inl ⟨cpid, c, hc, hdead, hne, rfl⟩
  · next h =>
    have hnone : ∀ c ∈ children, dead c = true → c = .reaped := by
      intro c hc hdead
      obtain ⟨cpid, hlt, rfl⟩ := List.getElem_of_mem hc
      by_contra hne
      have hmem : cpid ∈ pick :: List.range children.length :=
        List.mem_cons_of_mem pick (List.mem_range.mpr hlt)
      exact List.find?_eq_none.mp h cpid hmem
        (ready_iff.mpr ⟨_, List.getElem?_eq_getElem hlt, hdead, hne⟩)
    right
    split
    · next hall =>
      exact .inl ⟨fun c hc => eq_of_beq (List.all_eq_true.mp hall c hc), rfl⟩
    · next hall =>
      refine .inr ⟨hnone, ?_, rfl⟩
      by_contra hdead
      refine hall (List.all_eq_true.mpr fun c hc => beq_iff_eq.mpr (hnone c hc ?_))
      by_contra halive
      exact hdead ⟨c, hc, Bool.not_eq_true _ ▸ halive⟩

theorem step_call_cases (s : Handler) (pick : Nat) (h : s.returned = false) :
    (∃ cpid c, s.children[cpid]? = some c ∧ dead c = true ∧ c ≠ .reaped ∧
      s.step (.call pick) = ⟨s.children.set cpid .reaped, s.cleared ++ [.pid cpid], false⟩) ∨
    (∀ c ∈ s.children, c = .reaped) ∧ s.step (.call pick) = { s with returned := true } ∨
    (∀ c ∈ s.children, dead c = true → c = .reaped) ∧ (∃ c ∈ s.children, dead c = false) ∧
      s.step (.call pick) = { s with cleared := s.cleared ++ [.zero] } := by
  have hstep : s.step (.call pick) = s.call pick := by
    rw [Handler.step, h]
    rfl
  rw [hstep, Handler.call]
  rcases wait3_cases s.children pick with ⟨cpid, c, hc, hdead, hne, heq⟩ | ⟨hall, heq⟩ |
      ⟨hnone, halive, heq⟩
  · rw [heq]
    exact .inl ⟨cpid, c, hc, hdead, hne, h ▸ rfl⟩
  · rw [heq]
    exact .inr (.inl ⟨hall, rfl⟩)
  · rw [heq]
    exact .inr (.inr ⟨hnone, halive, rfl⟩)

theorem step_call_returned (s : Handler) (pick : Nat) (h : s.returned = true) :
    s.step (.call pick) = s := by
  rw [Handler.step, if_pos h]

/-- The loop is left only without a child, and every child is cleared once. -/
structure Handler.Sound (s : Handler) : Prop where
  done : s.returned = true → ∀ (cpid : Nat) c, s.children[cpid]? = some c → c = .reaped
  count : ∀ cpid, s.cleared.count (.pid cpid) =
    if s.children[cpid]? = some .reaped then 1 else 0

theorem start_sound (children : List (Option Death)) : (Handler.start children).Sound := by
  refine ⟨fun h => (by cases h), fun cpid => ?_⟩
  rw [if_neg]
  · rfl
  · intro h
    rw [Handler.start, List.getElem?_map] at h
    obtain ⟨d, -, hd⟩ := Option.map_eq_some_iff.mp h
    cases d <;> cases hd

theorem Handler.Sound.call {s : Handler} (h : s.Sound) (pick : Nat) :
    (s.step (.call pick)).Sound := by
  cases hr : s.returned with
  | true =>
    rw [step_call_returned s pick hr]
    exact h
  | false =>
    rcases step_call_cases s pick hr with ⟨cpid, c, hc, hdead, hne, heq⟩ | ⟨hall, heq⟩ |
        ⟨-, -, heq⟩
    · rw [heq]
      refine ⟨fun h => (by cases h), fun j => ?_⟩
      have hlt := (List.getElem?_eq_some_iff.mp hc).1
      rw [List.count_append, h.count, List.getElem?_set]
      by_cases hj : cpid = j
      · subst hj
        have hnot : s.children[cpid]? ≠ some .reaped := fun h' =>
          hne (Option.some.inj (hc.symm.trans h'))
        rw [if_neg hnot, if_pos rfl, if_pos hlt, if_pos rfl, List.count_singleton_self]
      · have hpid : Ret.pid cpid ≠ .pid j := fun h' => hj (Ret.pid.inj h')
        rw [if_neg hj, List.count_eq_zero_of_not_mem fun h' => hpid (List.mem_singleton.mp h').symm]
        rfl
    · rw [heq]
      exact ⟨fun _ cpid c hc => hall c (List.mem_of_getElem? hc), h.count⟩
    · rw [heq]
      refine ⟨h.done, fun j => ?_⟩
      rw [List.count_append, h.count, List.count_eq_zero_of_not_mem (by simp)]
      rfl

theorem getElem?_child_reaped (children : List ChildState) (cpid j : Nat) (e : ChildEv) :
    (children.modify cpid (·.step e))[j]? = some .reaped ↔ children[j]? = some .reaped := by
  rw [List.getElem?_modify]
  by_cases hj : cpid = j
  · simp only [hj, if_true, Option.map_eq_map, Option.map_eq_some_iff,
      ChildState.step_eq_reaped, exists_eq_right]
  · simp only [hj, if_false, Option.map_eq_map, Option.map_id']

theorem Handler.Sound.step {s : Handler} (h : s.Sound) (e : Ev) : (s.step e).Sound := by
  cases e with
  | call pick => exact h.call pick
  | child cpid e =>
    refine ⟨fun hr j c hc => ?_, fun j => ?_⟩
    · have hlt : j < s.children.length := by
        have hlt' := (List.getElem?_eq_some_iff.mp hc).1
        rwa [Handler.step, List.length_modify] at hlt'
      have hj := h.done hr j _ (List.getElem?_eq_getElem hlt)
      have hj' := (getElem?_child_reaped s.children cpid j e).mpr
        ((List.getElem?_eq_getElem hlt).trans (congrArg some hj))
      exact Option.some.inj (hc.symm.trans hj')
    · exact (h.count j).trans (if_congr (getElem?_child_reaped s.children cpid j e).symm rfl rfl)

theorem run_sound (children : List (Option Death)) (es : List Ev) :
    (run Handler.step (.start children) es).Sound :=
  run_invariant Handler.Sound (fun _ e h => h.step e) (start_sound children) es

theorem calls_sound {s : Handler} (h : s.Sound) (picks : List Nat) : (s.calls picks).Sound :=
  run_invariant Handler.Sound (fun _ pick h => h.call pick) h picks

theorem calls_alive {s : Handler} (h : s.Sound) (halive : ∃ c ∈ s.children, dead c = false)
    (picks : List Nat) : (s.calls picks).returned = false := by
  have hloop : ∀ s : Handler, s.Sound → (∃ c ∈ s.children, dead c = false) →
      s.returned = false := by
    intro s h halive
    rw [← Bool.not_eq_true]
    intro hr
    refine not_alive (dead_of_reaped fun c hc => ?_) halive
    obtain ⟨cpid, hcpid⟩ := List.mem_iff_getElem?.mp hc
    exact h.done hr cpid c hcpid
  have hkeep : ∀ (s : Handler) pick, s.Sound ∧ (∃ c ∈ s.children, dead c = false) →
      (s.step (.call pick)).Sound ∧ ∃ c ∈ (s.step (.call pick)).children, dead c = false := by
    rintro s pick ⟨h, c, hc, hdead⟩
    refine ⟨h.call pick, ?_⟩
    rcases step_call_cases s pick (hloop s h ⟨c, hc, hdead⟩) with
      ⟨cpid, c', hc', hdead', -, heq⟩ | ⟨hall, -⟩ | ⟨-, halive, heq⟩
    · obtain ⟨j, hj⟩ := List.mem_iff_getElem?.mp hc
      have hne : cpid ≠ j := by
        rintro rfl
        rw [Option.some.inj (hc'.symm.trans hj), hdead] at hdead'
        cases hdead'
      rw [heq]
      exact ⟨c, List.mem_of_getElem? ((List.getElem?_set_ne hne).trans hj), hdead⟩
    · exact absurd ⟨c, hc, hdead⟩ (not_alive (dead_of_reaped hall))
    · rw [heq]
      exact halive
  obtain ⟨hsound, halive'⟩ := run_invariant
    (fun s : Handler => s.Sound ∧ ∃ c ∈ s.children, dead c = false) hkeep ⟨h, halive⟩ picks
  exact hloop _ hsound halive'

theorem not_clears {s : Handler} (h : s.Sound) (halive : ∃ c ∈ s.children, dead c = false) :
    ¬ Clears s := by
  intro hclears
  obtain ⟨n, hn⟩ := hclears.returns
  have hret := hn (List.replicate n 0) (by rw [List.length_replicate])
  rw [calls_alive h halive] at hret
  cases hret

theorem call_dead {s : Handler} (h : ∀ c ∈ s.children, dead c = true) (pick : Nat) :
    (∀ c ∈ (s.step (.call pick)).children, dead c = true) ∧
      ((s.step (.call pick)).returned = true ∨
        (s.step (.call pick)).children.countP (· != .reaped) + 1 ≤
          s.children.countP (· != .reaped)) := by
  cases hr : s.returned with
  | true =>
    rw [step_call_returned s pick hr]
    exact ⟨h, .inl hr⟩
  | false =>
    rcases step_call_cases s pick hr with ⟨cpid, c, hc, -, hne, heq⟩ | ⟨-, heq⟩ |
        ⟨-, halive, -⟩
    · rw [heq]
      obtain ⟨hlt, hget⟩ := List.getElem?_eq_some_iff.mp hc
      refine ⟨fun c' hc' => ?_, .inr ?_⟩
      · rcases List.mem_or_eq_of_mem_set hc' with hmem | rfl
        · exact h c' hmem
        · rfl
      · have hlive : (c != .reaped) = true := bne_iff_ne.mpr hne
        have hpos : 0 < s.children.countP (· != .reaped) :=
          List.countP_pos_iff.mpr ⟨c, List.mem_of_getElem? hc, hlive⟩
        rw [List.countP_set hlt, hget, if_pos hlive, if_neg (by decide)]
        omega
    · rw [heq]
      exact ⟨h, .inl rfl⟩
    · exact absurd halive (not_alive h)

theorem spins_iff {s : Handler} : spins s (.call pick) = true ↔ s.returned = false ∧
    (∃ c ∈ s.children, dead c = false) ∧ ∀ c ∈ s.children, dead c = true → c = .reaped := by
  have hnone : ∀ c : ChildState, (c.wait false).isNone = true ↔ (dead c = true → c = .reaped) := by
    intro c
    rw [← Option.not_isSome, Bool.not_eq_true', ← Bool.not_eq_true, wait_isSome_iff, not_and,
      not_not]
  simp only [spins, Bool.and_eq_true, Bool.not_eq_true', List.any_eq_true, List.all_eq_true,
    hnone, and_assoc]

theorem zero_mem_step (s : Handler) (e : Ev) :
    Ret.zero ∈ (s.step e).cleared ↔ Ret.zero ∈ s.cleared ∨ spins s e = true := by
  cases e with
  | child cpid e => exact (or_iff_left Bool.false_ne_true).symm
  | call pick =>
    rw [spins_iff]
    cases hr : s.returned with
    | true =>
      rw [step_call_returned s pick hr]
      simp
    | false =>
      rcases step_call_cases s pick hr with ⟨cpid, c, hc, hdead, hne, heq⟩ | ⟨hall, heq⟩ |
          ⟨hnone, halive, heq⟩
      · have hnot : ¬ ∀ c ∈ s.children, dead c = true → c = .reaped :=
          fun h => hne (h c (List.mem_of_getElem? hc) hdead)
        rw [heq]
        simp [hnot]
      · have hnot := not_alive (dead_of_reaped hall)
        rw [heq]
        exact ⟨.inl, fun h => h.resolve_right fun h' => hnot h'.2.1⟩
      · rw [heq]
        exact ⟨fun _ => .inr ⟨rfl, halive, hnone⟩,
          fun _ => List.mem_append_right _ List.mem_cons_self⟩

theorem zero_mem_run (s : Handler) (es : List Ev) :
    Ret.zero ∈ (run Handler.step s es).cleared ↔
      Ret.zero ∈ s.cleared ∨ saw spins Handler.step s es = true := by
  induction es generalizing s with
  | nil => exact (or_iff_left Bool.false_ne_true).symm
  | cons e es ih => rw [run_cons, ih, zero_mem_step, saw, Bool.or_eq_true, or_assoc]

theorem calls_dead {s : Handler} (h : ∀ c ∈ s.children, dead c = true)
    (hzero : Ret.zero ∉ s.cleared) (picks : List Nat) : Ret.zero ∉ (s.calls picks).cleared := by
  have hkeep : ∀ (s : Handler) pick, (∀ c ∈ s.children, dead c = true) ∧ Ret.zero ∉ s.cleared →
      (∀ c ∈ (s.step (.call pick)).children, dead c = true) ∧
        Ret.zero ∉ (s.step (.call pick)).cleared := by
    rintro s pick ⟨h, hzero⟩
    refine ⟨(call_dead h pick).1, ?_⟩
    rw [zero_mem_step, spins_iff]
    rintro (hmem | ⟨-, halive, -⟩)
    · exact hzero hmem
    · exact not_alive h halive
  exact (run_invariant (fun s : Handler => (∀ c ∈ s.children, dead c = true) ∧
    Ret.zero ∉ s.cleared) hkeep ⟨h, hzero⟩ picks).2

/-- The handler does what it is for in exactly the runs in which no call finds only live children,
and every child has died. -/
theorem clearzomb_clears_iff (children : List (Option Death)) (es : List Ev) :
    Clears (run Handler.step (.start children) es) ↔
      saw spins Handler.step (.start children) es = false ∧
      ∀ c ∈ (run Handler.step (.start children) es).children, dead c = true := by
  have hsound := run_sound children es
  have hzero := zero_mem_run (.start children) es
  generalize run Handler.step (.start children) es = s at *
  constructor
  · intro h
    refine ⟨?_, fun c hc => ?_⟩
    · rw [← Bool.not_eq_true]
      exact fun hspins => h.nowait [] (hzero.mpr (.inr hspins))
    · rw [← Bool.not_eq_false]
      exact fun hdead => not_clears hsound ⟨c, hc, hdead⟩ h
  · rintro ⟨hspins, hdead⟩
    have hzero' : Ret.zero ∉ s.cleared := by
      rw [hzero, hspins]
      rintro (h | h)
      · cases h
      · cases h
    refine ⟨⟨s.children.countP (· != .reaped) + 1, fun picks hlen => ?_⟩,
      calls_dead hdead hzero', fun picks hret cpid c hc => ?_⟩
    · -- every call until the last one lowers the number of children that are not reaped
      refine run_halts (p := fun _ _ => false)
        (fun s : Handler => ∀ c ∈ s.children, dead c = true) (fun s => s.returned = true)
        (fun _ => true) (fun s => s.children.countP (· != .reaped)) ?_
        (fun s pick _ h => ?_) hdead (saw_eq_false_of_forall (fun _ _ _ => rfl) s) ?_
      · intro s pick h
        rw [step_call_returned s pick h]
        exact h
      · exact (call_dead h pick).2.imp_right fun hlt => ⟨(call_dead h pick).1, hlt⟩
      · rw [List.countP_eq_length.mpr fun _ _ => rfl]
        exact hlen
    · have hs := calls_sound hsound picks
      obtain rfl := hs.done hret cpid c hc
      exact ⟨rfl, (hs.count cpid).trans (if_pos hc)⟩

/-- One child that is alive: the handler does not return. -/
theorem clearzomb_never_returns : ¬ Clears (.start [none]) ∧
    ∀ picks, ((Handler.start [none]).calls picks).returned = false := by
  have halive : ∃ c ∈ (Handler.start [none]).children, dead c = false := ⟨.running, by decide, rfl⟩
  exact ⟨not_clears (start_sound [none]) halive, calls_alive (start_sound [none]) halive⟩

end SysPrg.ClearZomb
