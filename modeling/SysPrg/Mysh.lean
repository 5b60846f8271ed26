import SysPrg.Run
import SysPrg.Shell
import SysPrg.Wait

namespace SysPrg.Mysh
set_option autoImplicit true

open Shell (turn tooMany started)
open ShmLines (getLine getLine_length_le)

/-- Where the shell is in its loop. It has not been said what happens after an `overrun`. -/
inductive Pc where
  | prompt
  | fork (cmd : Bytes)
  | wait
  | display (cpid : Nat) (stat : WaitStatus)
  | overrun
  | exited (err : Option String) (status : Int)
  deriving DecidableEq, Repr

structure Child where
  cmd : Bytes
  state : ChildState
  deriving DecidableEq, Repr

def Child.happens (e : ChildEv) (ch : Child) : Child := { ch with state := ch.state.step e }

def Child.become (state : ChildState) (ch : Child) : Child := { ch with state := state }

/-- The shell with the rest of its input, what it has printed, and the children it has forked in
their order, by which they are known. -/
structure Sys where
  pc : Pc
  inp : Bytes
  out : Bytes
  children : List Child
  deriving DecidableEq, Repr

/-- What a child does may also be to read from the input that it shares with the shell, or to move
the offset of it: then something else is left of it. -/
inductive Ev where
  | shell (a : Answer)
  | child (cpid : Nat) (e : ChildEv)
  | input (inp : Bytes)
  deriving DecidableEq, Repr

def Sys.start (inp : Bytes) : Sys := ⟨.prompt, inp, [], []⟩

def prompt : CString := .lit "mysh> " (by decide)

def qPressed : CString := .lit "q pressed.\n" (by decide)

def newline : CString := ⟨[10], by decide⟩

/-- `displayChildStatus`, which takes every child for a dead one. -/
def displayChildStatus (cpid : Nat) (stat : WaitStatus) : CString :=
  .lit "\nChild " (by decide) ++ .decimal cpid ++ .lit " just died!\n" (by decide) ++
    match stat with
    | .died (.exited status) =>
      .lit " exited normally, exit status: " (by decide) ++ .decimal status ++ newline
    | .died (.signaled sig core) =>
      .lit " exited abnormally, signal killed with: " (by decide) ++ .decimal sig ++ newline ++
        if core then .lit " dumped core.\n" (by decide) else .lit "" (by decide)
    | .stopped sig =>
      .lit " stopped; stop signal: " (by decide) ++ .decimal sig ++ newline

def Sys.readCmd (s : Sys) : Sys :=
  let line := getLine (Shell.len - 1) s.inp
  let s := { s with inp := line.2, out := s.out ++ prompt.bytes }
  match turn line.1 with
  | .eof | .blank => s
  | .overrun => { s with pc := .overrun }
  | .quit => { s with pc := .exited none 0, out := s.out ++ qPressed.bytes }
  | .command cmd => { s with pc := if tooMany cmd then .prompt else .fork cmd }

/-- The return of `wait3` for a child, if there is something to report of it. -/
def Sys.wait3 (s : Sys) (cpid : Nat) : Sys :=
  match s.children[cpid]? with
  | none => s
  | some ch =>
    match ch.state.wait true with
    | none => s
    | some (stat, state) =>
      { s with pc := .display cpid stat
               children := s.children.modify cpid (Child.become state) }

def Sys.shell (s : Sys) (a : Answer) : Sys :=
  match s.pc, a with
  | .prompt, _ => s.readCmd
  -- "fork failed", and the next prompt
  | .fork _, .fail _ => { s with pc := .prompt }
  | .fork cmd, .done _ => { s with pc := .wait, children := s.children ++ [⟨cmd, .running⟩] }
  | .wait, .fail _ => { s with pc := .exited (some "wait") 1 }
  | .wait, .done cpid => s.wait3 cpid
  | .display cpid stat, _ =>
    { s with pc := .prompt, out := s.out ++ (displayChildStatus cpid stat).bytes }
  | .overrun, _ => s
  | .exited _ _, _ => s

def Sys.step (s : Sys) : Ev → Sys
  | .shell a => s.shell a
  | .child cpid e => { s with children := s.children.modify cpid (Child.happens e) }
  | .input inp => { s with inp := inp }

def returnsStopped (s : Sys) : Ev → Bool
  | .shell (.done cpid) =>
    match s.pc, (s.children[cpid]?).map Child.state with
    | .wait, some (.stopped _ false) => true
    | _, _ => false
  | _ => false

def AllReaped (children : List Child) : Prop := ∀ ch ∈ children, ch.state = .reaped

/-- No child is left at a prompt, and the status that is shown is that of the child forked last,
which has ended. -/
structure Sys.Waited (s : Sys) : Prop where
  prompt : s.pc = .prompt → AllReaped s.children
  display : ∀ cpid stat, s.pc = .display cpid stat → cpid + 1 = s.children.length ∧
    (∃ d, stat = .died d) ∧ AllReaped s.children

/-- While the shell waits, the child forked last is the one that is not reaped. -/
def Pc.Fits (children : List Child) : Pc → Prop
  | .prompt | .fork _ => AllReaped children
  | .wait => ∀ (i : Nat) ch, children[i]? = some ch →
      (ch.state = .reaped ↔ i + 1 < children.length)
  | .display cpid stat =>
      cpid + 1 = children.length ∧ (∃ d, stat = .died d) ∧ AllReaped children
  | .overrun | .exited _ _ => True

def Sys.Inv (s : Sys) : Prop := s.pc.Fits s.children

theorem Sys.Inv.waited {s : Sys} (h : s.Inv) : s.Waited := by
  unfold Sys.Inv at h
  constructor
  · intro hpc
    rw [hpc] at h
    exact h
  · intro cpid stat hpc
    rw [hpc] at h
    exact h

theorem getElem?_happens {children : List Child} {i : Nat} {ch : Child} (e : ChildEv)
    (h : (children.modify cpid (Child.happens e))[i]? = some ch) :
    ∃ ch', children[i]? = some ch' ∧ (ch.state = .reaped ↔ ch'.state = .reaped) := by
  rw [List.getElem?_modify] at h
  obtain ⟨ch', hch', rfl⟩ := Option.map_eq_some_iff.mp h
  refine ⟨ch', hch', ?_⟩
  split
  · exact ChildState.step_eq_reaped _ e
  · exact Iff.rfl

theorem AllReaped.happens (h : AllReaped children) (cpid : Nat) (e : ChildEv) :
    AllReaped (children.modify cpid (Child.happens e)) := by
  intro ch hch
  obtain ⟨i, hi⟩ := List.mem_iff_getElem?.mp hch
  obtain ⟨ch', hch', hr⟩ := getElem?_happens e hi
  exact hr.mpr (h ch' (List.mem_of_getElem? hch'))

theorem Pc.Fits.happens {pc : Pc} (h : pc.Fits children) (cpid : Nat) (e : ChildEv) :
    pc.Fits (children.modify cpid (Child.happens e)) := by
  have hlen := List.length_modify (Child.happens e) children cpid
  cases pc with
  | prompt => exact AllReaped.happens h cpid e
  | fork cmd => exact AllReaped.happens h cpid e
  | wait =>
    intro i ch hi
    obtain ⟨ch', hch', hr⟩ := getElem?_happens e hi
    rw [hr, h i ch' hch', hlen]
  | display pid stat =>
    obtain ⟨hlast, hd, hall⟩ := h
    exact ⟨hlast.trans hlen.symm, hd, hall.happens cpid e⟩
  | overrun => trivial
  | exited err status => trivial

theorem Sys.Inv.readCmd {s : Sys} (hpc : s.pc = .prompt) (h : AllReaped s.children) :
    s.readCmd.Inv := by
  unfold Sys.Inv Sys.readCmd
  dsimp only
  split
  · dsimp only
    rw [hpc]
    exact h
  · dsimp only
    rw [hpc]
    exact h
  · trivial
  · trivial
  · dsimp only
    split
    · exact h
    · exact h

theorem reaped_all {children : List Child} (h : Pc.wait.Fits children)
    (hlast : cpid + 1 = children.length) :
    AllReaped (children.modify cpid (Child.become .reaped)) := by
  intro ch hch
  obtain ⟨i, hi⟩ := List.mem_iff_getElem?.mp hch
  rw [List.getElem?_modify] at hi
  obtain ⟨ch', hch', rfl⟩ := Option.map_eq_some_iff.mp hi
  split
  · rfl
  · next hne =>
    have hlt : i < children.length := (List.getElem?_eq_some_iff.mp hch').1
    exact (h i ch' hch').mpr (by omega)

theorem forked {children : List Child} (h : AllReaped children) (cmd : Bytes) :
    Pc.wait.Fits (children ++ [⟨cmd, .running⟩]) := by
  intro i ch hi
  rw [List.length_append, List.length_singleton]
  by_cases hlt : i < children.length
  · rw [List.getElem?_append_left hlt] at hi
    have hr := h ch (List.mem_of_getElem? hi)
    exact ⟨fun _ => by omega, fun _ => hr⟩
  · have hle := (List.getElem?_eq_some_iff.mp hi).1
    rw [List.length_append, List.length_singleton] at hle
    have hi' : i = children.length := by omega
    subst hi'
    rw [List.getElem?_concat_length] at hi
    cases hi
    exact ⟨fun hr => (by cases hr), fun hl => by omega⟩

theorem Sys.Inv.wait3 {s : Sys} (hpc : s.pc = .wait) (h : s.Inv) (cpid : Nat)
    (hs : returnsStopped s (.shell (.done cpid)) = false) : (s.wait3 cpid).Inv := by
  have hfit : Pc.wait.Fits s.children := hpc ▸ h
  unfold Sys.wait3
  split
  · exact h
  · next ch hch =>
    split
    · exact h
    · next stat state hw =>
      have hlt : cpid < s.children.length := (List.getElem?_eq_some_iff.mp hch).1
      have hnot : ¬ cpid + 1 < s.children.length :=
        fun hl => ChildState.not_reaped_of_wait hw ((hfit cpid ch hch).mpr hl)
      have hlast : cpid + 1 = s.children.length := by omega
      cases stat with
      | stopped sig =>
        have hstate := ChildState.wait_stopped hw
        simp [returnsStopped, hpc, hch, hstate] at hs
      | died d =>
        obtain rfl := ChildState.wait_died hw
        refine ⟨?_, ⟨d, rfl⟩, ?_⟩
        · rw [List.length_modify]
          exact hlast
        · exact reaped_all hfit hlast

theorem Sys.Inv.step {s : Sys} (h : s.Inv) (e : Ev) (hs : returnsStopped s e = false) :
    (s.step e).Inv := by
  cases e with
  | child cpid e => exact Pc.Fits.happens h cpid e
  | input inp => exact h
  | shell a =>
    unfold Sys.Inv at h
    cases hpc : s.pc with
    | prompt =>
      rw [hpc] at h
      simp only [Sys.step, Sys.shell, hpc]
      exact .readCmd hpc h
    | fork cmd =>
      rw [hpc] at h
      cases a with
      | fail err =>
        simp only [Sys.step, Sys.shell, hpc]
        exact h
      | done k =>
        simp only [Sys.step, Sys.shell, hpc]
        exact forked h cmd
    | wait =>
      cases a with
      | fail err =>
        simp only [Sys.step, Sys.shell, hpc]
        exact trivial
      | done cpid =>
        simp only [Sys.step, Sys.shell, hpc]
        exact Sys.Inv.wait3 hpc h cpid hs
    | display cpid stat =>
      rw [hpc] at h
      simp only [Sys.step, Sys.shell, hpc]
      exact h.2.2
    | overrun =>
      simp only [Sys.step, Sys.shell, hpc]
      exact h
    | exited err status =>
      simp only [Sys.step, Sys.shell, hpc]
      exact h

theorem returnsStopped_breaks (s : Sys) (e : Ev) (hs : returnsStopped s e = true) :
    ¬ (s.step e).Waited := by
  unfold returnsStopped at hs
  split at hs
  · next cpid =>
    split at hs
    · next sig hpc hch =>
      obtain ⟨ch, hch, hstate⟩ := Option.map_eq_some_iff.mp hch
      have hstep : (s.step (.shell (.done cpid))).pc = .display cpid (.stopped sig) := by
        simp only [Sys.step, Sys.shell, hpc, Sys.wait3, hch, hstate, ChildState.wait, if_true]
      intro h
      obtain ⟨-, ⟨d, hd⟩, -⟩ := h.display _ _ hstep
      cases hd
    · cases hs
  · cases hs

/-- Along a session the shell has no child left at its prompt and shows the end of the command that
it has just started, exactly as long as no `wait3` returns for a child that has stopped. -/
theorem waits_for_command_iff (inp : Bytes) (es : List Ev) :
    (∀ pre, pre <+: es → (run Sys.step (Sys.start inp) pre).Waited) ↔
      saw returnsStopped Sys.step (Sys.start inp) es = false := by
  apply every_state_iff Sys.Inv Sys.Waited
  · intro s h
    exact h.waited
  · intro s e hs h
    exact h.step e hs
  · intro s e hs _
    exact returnsStopped_breaks s e hs
  · intro ch hch
    cases hch

/-- The command `a` stops. The shell reports that it has died, and prints its prompt. -/
theorem prompt_with_stopped_child :
    ∃ es, (run Sys.step (Sys.start [97, 10]) es).pc = .prompt ∧
      (run Sys.step (Sys.start [97, 10]) es).children = [⟨[97], .stopped 19 true⟩] ∧
      ¬ (run Sys.step (Sys.start [97, 10]) es).Waited := by
  refine ⟨[.shell (.done 0), .shell (.done 0), .child 0 (.stop 19), .shell (.done 0),
    .shell (.done 0)], by decide, by decide, ?_⟩
  intro h
  have hr := h.prompt (by decide) ⟨[97], .stopped 19 true⟩ (by decide)
  cases hr

/-- A command is not started, or a child has changed what is left of the input. -/
def disturbed (s : Sys) : Ev → Bool
  | .shell (.fail _) =>
    match s.pc with
    | .fork _ => true
    | _ => false
  | .input _ => true
  | _ => false

/-- What the loop makes of the rest `inp` of an input comes behind `cmds`. -/
def Behind (input inp : Bytes) (cmds : List Bytes) : Prop :=
  ∀ n more, started n inp = some more → ∃ n', started n' input = some (cmds ++ more)

/-- The commands started are those that the loop makes of the input that was read. -/
def Pc.Follows (input inp : Bytes) (cmds : List Bytes) : Pc → Prop
  | .prompt | .wait | .display _ _ => Behind input inp cmds
  | .fork cmd => Behind input inp (cmds ++ [cmd])
  | .overrun => True
  | .exited _ status => status = 0 → ∃ n, started n input = some cmds

def Sys.Follows (input : Bytes) (s : Sys) : Prop :=
  s.pc.Follows input s.inp (s.children.map Child.cmd)

theorem Sys.Follows.readCmd {s : Sys} (hpc : s.pc = .prompt)
    (h : Behind input s.inp (s.children.map Child.cmd)) : s.readCmd.Follows input := by
  unfold Sys.Follows Sys.readCmd
  have hskip : ∀ n, turn (getLine (Shell.len - 1) s.inp).1 = .eof ∨
      turn (getLine (Shell.len - 1) s.inp).1 = .blank →
      started (n + 1) s.inp = started n (getLine (Shell.len - 1) s.inp).2 := by
    rintro n (ht | ht) <;> rw [started, ht]
  dsimp only
  split
  · next ht =>
    dsimp only
    rw [hpc]
    intro n more hn
    exact h (n + 1) more ((hskip n (.inl ht)).trans hn)
  · next ht =>
    dsimp only
    rw [hpc]
    intro n more hn
    exact h (n + 1) more ((hskip n (.inr ht)).trans hn)
  · trivial
  · next ht =>
    intro _
    obtain ⟨n, hn⟩ := h 1 [] (by rw [started, ht])
    rw [List.append_nil] at hn
    exact ⟨n, hn⟩
  · next cmd ht =>
    have hline : (getLine (Shell.len - 1) s.inp).1.length + 1 ≤ Shell.len := by
      have hle := getLine_length_le (Shell.len - 1) s.inp
      have hlen : Shell.len = 128 := rfl
      omega
    dsimp only
    rw [Shell.not_tooMany (Shell.turn_command_length ht hline)]
    intro n more hn
    obtain ⟨n', hn'⟩ := h (n + 1) (cmd :: more) (by
      rw [started, ht]
      simp only [hn, Option.map_some])
    exact ⟨n', by rw [List.append_assoc]; exact hn'⟩

theorem map_cmd_modify (children : List Child) (cpid : Nat) (f : Child → Child)
    (hf : ∀ ch, (f ch).cmd = ch.cmd) :
    (children.modify cpid f).map Child.cmd = children.map Child.cmd := by
  apply List.ext_getElem?
  intro i
  rw [List.getElem?_map, List.getElem?_map, List.getElem?_modify]
  cases children[i]? with
  | none => rfl
  | some ch =>
    apply congrArg some
    split
    · exact hf ch
    · rfl

theorem Sys.Follows.step {s : Sys} (h : s.Follows input) (e : Ev) (hf : disturbed s e = false) :
    (s.step e).Follows input := by
  cases e with
  | child cpid e =>
    have hcmd := map_cmd_modify s.children cpid (Child.happens e) fun _ => rfl
    unfold Sys.Follows
    simp only [Sys.step, hcmd]
    exact h
  | input inp => cases hf
  | shell a =>
    unfold Sys.Follows at h
    cases hpc : s.pc with
    | prompt =>
      rw [hpc] at h
      simp only [Sys.step, Sys.shell, hpc]
      exact .readCmd hpc h
    | fork cmd =>
      rw [hpc] at h
      cases a with
      | fail err => simp [disturbed, hpc] at hf
      | done k =>
        simp only [Sys.step, Sys.shell, hpc]
        unfold Sys.Follows
        rw [List.map_append]
        exact h
    | wait =>
      cases a with
      | fail err =>
        simp only [Sys.step, Sys.shell, hpc]
        exact fun h0 => absurd h0 (by decide)
      | done cpid =>
        simp only [Sys.step, Sys.shell, hpc, Sys.wait3]
        split
        · exact h
        · split
          · exact h
          · next state _ =>
            have hcmd := map_cmd_modify s.children cpid (Child.become state) fun _ => rfl
            rw [hpc] at h
            unfold Sys.Follows
            simp only [hcmd]
            exact h
    | display cpid stat =>
      rw [hpc] at h
      simp only [Sys.step, Sys.shell, hpc]
      exact h
    | overrun =>
      simp only [Sys.step, Sys.shell, hpc]
      exact h
    | exited err status =>
      simp only [Sys.step, Sys.shell, hpc]
      exact h

/-- A session that ends with `q`, in which every `fork` succeeded and no child had to do with the
shell's input, has started the commands that the loop makes of its input. -/
theorem session_commands (input : Bytes) (es : List Ev)
    (hf : saw disturbed Sys.step (Sys.start input) es = false)
    (hend : (run Sys.step (Sys.start input) es).pc = .exited none 0) :
    ∃ n, started n input = some ((run Sys.step (Sys.start input) es).children.map Child.cmd) := by
  have hstart : (Sys.start input).Follows input := fun n more hn => ⟨n, hn⟩
  have h : (run Sys.step (Sys.start input) es).Follows input :=
    run_invariant_of (Sys.Follows input) (fun s e hf h => h.step e hf) hstart hf
  unfold Sys.Follows at h
  rw [hend] at h
  exact h rfl

end SysPrg.Mysh
