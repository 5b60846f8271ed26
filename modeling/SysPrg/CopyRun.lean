import SysPrg.CopyFile

namespace SysPrg.Fileio
set_option autoImplicit true

variable {α ω : Type}

/-- What holds of the open descriptors: they are on the files that the names led to, and on one
file only if both names did. -/
structure Opened (fs₀ : Fs α) (src dst : α) (fdFrom fdTo : Fd) (fs : Fs α) : Prop where
  src_dir₀ : fs₀.dir src = some fdFrom.ino
  src_dir : fs.dir src = some fdFrom.ino
  dst_dir : fs.dir dst = some fdTo.ino
  same : fdTo.ino = fdFrom.ino ↔ fs₀.dir dst = some fdFrom.ino

/-- How a run without a failing call ends, when a source that is not empty leaves `copied` in the
destination. -/
def Ends (fs₀ : Fs α) (src dst : α) (copied : Bytes) (fs : Fs α) (status : Int) : Prop :=
  match fs₀.content src with
  | none => status = 1 ∧ fs = fs₀
  | some [] => status = 1 ∧ fs.content dst = some (fs₀.old dst)
  | some (_ :: _) => status = 0 ∧ fs.content dst = some copied

/-- The invariant of a run without a failing call, given that of the rest of the program. -/
def At (body : Fs α → Fd → Fd → ω → Prop) (fs₀ : Fs α) (src dst : α) (copied : Bytes)
    (s : Copy α ω) : Prop :=
  match s.pc with
  | .openFrom => s.fs = fs₀
  | .openTo fdFrom => s.fs = fs₀ ∧ fs₀.dir src = some fdFrom.ino ∧ fdFrom.off = 0
  | .stat fdFrom fdTo => Opened fs₀ src dst fdFrom fdTo s.fs ∧ fdFrom.off = 0 ∧ fdTo.off = 0 ∧
      s.fs.data fdFrom.ino = fs₀.data fdFrom.ino ∧ s.fs.data fdTo.ino = fs₀.old dst
  | .body fdFrom fdTo op => body s.fs fdFrom fdTo op
  | .exited _ status => Ends fs₀ src dst copied s.fs status

/-- The calls still to be completed, `m` of them at most from the first one that is not common. -/
def Pc.todo (m : Nat) (bodyTodo : Fd → ω → Nat) : Pc ω → Nat
  | .openFrom => m + 3
  | .openTo _ => m + 2
  | .stat _ _ => m + 1
  | .body fdFrom _ op => bodyTodo fdFrom op
  | .exited _ _ => 0

def completes : Answer → Bool
  | .done _ => true
  | .fail _ => false

theorem Opened.content_dst (h : Opened fs₀ src dst fdFrom fdTo fs) :
    fs.content dst = some (fs.data fdTo.ino) :=
  Fs.content_eq h.dst_dir

theorem Opened.content_src₀ (h : Opened fs₀ src dst fdFrom fdTo fs) :
    fs₀.content src = some (fs₀.data fdFrom.ino) :=
  Fs.content_eq h.src_dir₀

theorem Opened.old_src (h : Opened fs₀ src dst fdFrom fdTo fs) :
    fs₀.old src = fs₀.data fdFrom.ino := by
  rw [Fs.old, h.content_src₀, Option.getD_some]

theorem Opened.write (h : Opened fs₀ src dst fdFrom fdTo fs) (off : Nat) (bs : Bytes) :
    Opened fs₀ src dst fdFrom fdTo (fs.write fdTo.ino off bs) :=
  ⟨h.src_dir₀, h.src_dir, h.dst_dir, h.same⟩

theorem Opened.seek (h : Opened fs₀ src dst fdFrom fdTo fs) (off off' : Nat) :
    Opened fs₀ src dst ⟨fdFrom.ino, off⟩ ⟨fdTo.ino, off'⟩ fs :=
  ⟨h.src_dir₀, h.src_dir, h.dst_dir, h.same⟩

theorem Opened.ends (h : Opened fs₀ src dst fdFrom fdTo fs) (hne : fs₀.data fdFrom.ino ≠ [])
    (hd : fs.data fdTo.ino = copied) : Ends fs₀ src dst copied fs 0 := by
  unfold Ends
  rw [h.content_src₀, h.content_dst, hd]
  cases hs : fs₀.data fdFrom.ino with
  | nil => exact (hne hs).elim
  | cons b bs => exact ⟨rfl, rfl⟩

theorem Opened.ends_empty (h : Opened fs₀ src dst fdFrom fdTo fs)
    (he : fs₀.data fdFrom.ino = []) (hd : fs.data fdTo.ino = fs₀.old dst) :
    Ends fs₀ src dst copied fs 1 := by
  unfold Ends
  rw [h.content_src₀, h.content_dst, he, hd]
  exact ⟨rfl, rfl⟩

theorem ends_missing (h : fs₀.dir src = none) : Ends fs₀ src dst copied fs₀ 1 := by
  unfold Ends
  rw [Fs.content, h, Option.map_none]
  exact ⟨rfl, rfl⟩

variable [DecidableEq α]

theorem Opened.start (h : fs₀.dir src = some fdFrom.ino) (dst : α) (off : Nat) :
    Opened fs₀ src dst fdFrom ⟨(fs₀.openCreat dst).2, off⟩ (fs₀.openCreat dst).1 where
  src_dir₀ := h
  src_dir := (Fs.openCreat_of_dir h dst).1
  dst_dir := Fs.openCreat_dir_self fs₀ dst
  same := Fs.openCreat_eq_iff h dst

section
variable {enter : Nat → ω} {body : Fs α → Fd → Fd → ω → Answer → Copy α ω}
  {B : Fs α → Fd → Fd → ω → Prop} {restartsOp : ω → Bool} {bodyTodo : Fd → ω → Nat}
  {fs₀ : Fs α} {src dst : α} {copied : Bytes}

theorem At.step_openFrom (ha : (Pc.openFrom : Pc ω).fails restartsOp a = false) :
    At B fs₀ src dst copied (Copy.step enter body src dst ⟨.openFrom, fs₀⟩ a) ∧
      (Copy.step enter body src dst ⟨.openFrom, fs₀⟩ a).pc.todo m bodyTodo +
        (completes a).toNat ≤ m + 3 := by
  cases a with
  | fail e =>
    cases e with
    | eintr => exact ⟨rfl, Nat.le_refl _⟩
    | _ => cases ha
  | done k =>
    simp only [Copy.step, lookup]
    cases hd : fs₀.dir src with
    | none => exact ⟨ends_missing hd, Nat.le_add_left _ _⟩
    | some i => exact ⟨⟨rfl, hd, rfl⟩, Nat.le_refl _⟩

theorem At.step_openTo (hs : fs₀.dir src = some fdFrom.ino) (h0 : fdFrom.off = 0)
    (ha : (Pc.openTo fdFrom : Pc ω).fails restartsOp a = false) :
    At B fs₀ src dst copied (Copy.step enter body src dst ⟨.openTo fdFrom, fs₀⟩ a) ∧
      (Copy.step enter body src dst ⟨.openTo fdFrom, fs₀⟩ a).pc.todo m bodyTodo +
        (completes a).toNat ≤ m + 2 := by
  cases a with
  | fail e =>
    cases e with
    | eintr => exact ⟨⟨rfl, hs, h0⟩, Nat.le_refl _⟩
    | _ => cases ha
  | done k =>
    exact ⟨⟨.start hs dst 0, h0, rfl, (Fs.openCreat_of_dir hs dst).2,
      Fs.openCreat_data_self fs₀ dst⟩, Nat.le_refl _⟩

theorem At.step_stat (h : Opened fs₀ src dst fdFrom fdTo fs)
    (hsrc : fs.data fdFrom.ino = fs₀.data fdFrom.ino) (hdst : fs.data fdTo.ino = fs₀.old dst)
    (ha : (Pc.stat fdFrom fdTo : Pc ω).fails restartsOp a = false)
    (henter : fs₀.data fdFrom.ino ≠ [] → B fs fdFrom fdTo (enter (fs₀.data fdFrom.ino).length) ∧
      bodyTodo fdFrom (enter (fs₀.data fdFrom.ino).length) ≤ m) :
    At B fs₀ src dst copied (Copy.step enter body src dst ⟨.stat fdFrom fdTo, fs⟩ a) ∧
      (Copy.step enter body src dst ⟨.stat fdFrom fdTo, fs⟩ a).pc.todo m bodyTodo +
        (completes a).toNat ≤ m + 1 := by
  cases a with
  | fail e =>
    simp [Pc.fails, Pc.restarts] at ha
  | done k =>
    simp only [Copy.step, stSize, lookup, h.src_dir, Except.map, hsrc, gotLen]
    by_cases he : (fs₀.data fdFrom.ino).length = 0
    · rw [if_pos he]
      exact ⟨h.ends_empty (List.length_eq_zero_iff.1 he) hdst, Nat.le_add_left _ _⟩
    · rw [if_neg he]
      obtain ⟨hB, hm⟩ := henter (fun hnil => he (List.length_eq_zero_iff.2 hnil))
      exact ⟨hB, Nat.succ_le_succ hm⟩

/-- A call that does not fail keeps the invariant and, once completed, brings the end nearer, if
this is so for the rest of the program. -/
theorem At.step
    (henter : ∀ fs fdFrom fdTo, Opened fs₀ src dst fdFrom fdTo fs → fdFrom.off = 0 →
      fdTo.off = 0 → fs.data fdFrom.ino = fs₀.data fdFrom.ino →
      fs.data fdTo.ino = fs₀.old dst → fs₀.data fdFrom.ino ≠ [] →
      B fs fdFrom fdTo (enter (fs₀.data fdFrom.ino).length) ∧
        bodyTodo fdFrom (enter (fs₀.data fdFrom.ino).length) ≤ m)
    (hbody : ∀ fs fdFrom fdTo op a, (Pc.body fdFrom fdTo op).fails restartsOp a = false →
      B fs fdFrom fdTo op → At B fs₀ src dst copied (body fs fdFrom fdTo op a) ∧
        (body fs fdFrom fdTo op a).pc.todo m bodyTodo + (completes a).toNat ≤ bodyTodo fdFrom op)
    (s : Copy α ω) (a : Answer) (ha : s.pc.fails restartsOp a = false)
    (h : At B fs₀ src dst copied s) :
    At B fs₀ src dst copied (Copy.step enter body src dst s a) ∧
      (s.pc.ended = false → (Copy.step enter body src dst s a).pc.todo m bodyTodo +
        (completes a).toNat ≤ s.pc.todo m bodyTodo) := by
  obtain ⟨pc, fs⟩ := s
  cases pc with
  | openFrom =>
    cases h
    exact And.imp_right (fun hle _ => hle) (At.step_openFrom ha)
  | openTo fdFrom =>
    obtain ⟨rfl, hs, h0⟩ := h
    exact And.imp_right (fun hle _ => hle) (At.step_openTo hs h0 ha)
  | stat fdFrom fdTo =>
    obtain ⟨hop, h0, h0', hsrc, hdst⟩ := h
    have hnext := henter fs _ _ hop h0 h0' hsrc hdst
    exact And.imp_right (fun hle _ => hle) (At.step_stat hop hsrc hdst ha hnext)
  | body fdFrom fdTo op =>
    exact And.imp_right (fun hle _ => hle) (hbody fs fdFrom fdTo op a ha h)
  | exited err status => exact ⟨h, fun hend => by cases hend⟩

theorem Copy.step_ended {s : Copy α ω} (h : s.pc.ended = true) (a : Answer) :
    Copy.step enter body src dst s a = s := by
  obtain ⟨pc, fs⟩ := s
  cases pc with
  | exited err status => rfl
  | _ => cases h

/-- The same of whole runs: how one without a failing call ends, and that it does. -/
theorem At.run
    (hstep : ∀ s a, s.pc.fails restartsOp a = false → At B fs₀ src dst copied s →
      At B fs₀ src dst copied (Copy.step enter body src dst s a) ∧
        (s.pc.ended = false → (Copy.step enter body src dst s a).pc.todo m bodyTodo +
          (completes a).toNat ≤ s.pc.todo m bodyTodo))
    (hgood : saw (fun s a => s.pc.fails restartsOp a) (Copy.step enter body src dst)
      ⟨.openFrom, fs₀⟩ as = false) :
    At B fs₀ src dst copied (SysPrg.run (Copy.step enter body src dst) ⟨.openFrom, fs₀⟩ as) ∧
      (m + 3 < as.countP completes →
        (SysPrg.run (Copy.step enter body src dst) ⟨.openFrom, fs₀⟩ as).pc.ended = true) := by
  have hstart : At B fs₀ src dst copied ⟨.openFrom, fs₀⟩ := rfl
  constructor
  · exact run_invariant_of _ (fun s a ha h => (hstep s a ha h).1) hstart hgood
  · intro hn
    apply run_halts (At B fs₀ src dst copied) (fun s => s.pc.ended = true) completes
      (fun s => s.pc.todo m bodyTodo) _ _ hstart hgood hn
    · intro s a h
      rw [Copy.step_ended h]
      exact h
    · intro s a ha h
      cases hend : s.pc.ended with
      | true =>
        left
        rw [Copy.step_ended hend]
        exact hend
      | false =>
        obtain ⟨hat, hle⟩ := hstep s a ha h
        exact .inr ⟨hat, hle hend⟩

end

end SysPrg.Fileio
