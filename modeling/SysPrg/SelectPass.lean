import SysPrg.SelectServer

namespace SysPrg.SelectServer
set_option autoImplicit true

def Sys.serves (listener : Nat) (s : Sys) (e : Ev) : Option Nat :=
  (s.did listener e).map Deed.fd

def Sys.selects (s : Sys) (_ : Ev) : Bool :=
  match s.pc with
  | .select => true
  | _ => false

def Served (found : FdSet) (fdmax : Nat) (served : List Nat) : Pc → Prop
  | .scan i readFds => readFds = found ∧ served = (List.range i).filter found
  | .accept i readFds | .recv i readFds =>
    readFds = found ∧ found i = true ∧ served = (List.range i).filter found
  | .each i readFds _ _ | .send i readFds _ _ =>
    readFds = found ∧ served = (List.range (i + 1)).filter found
  | .select => served = (List.range (fdmax + 1)).filter found
  | .exited _ _ | .killed | .overrun => True

theorem filter_range_of_le {found : FdSet} (hf : ∀ fd, found fd = true → fd < n) (hn : n ≤ m) :
    (List.range m).filter found = (List.range n).filter found := by
  obtain ⟨d, rfl⟩ := Nat.exists_eq_add_of_le hn
  have hnone : (List.map (n + ·) (List.range d)).filter found = [] := by
    rw [List.filter_eq_nil_iff]
    intro fd hfd hin
    obtain ⟨k, _, rfl⟩ := List.mem_map.1 hfd
    exact Nat.not_lt.2 (Nat.le_add_right n k) (hf _ hin)
  rw [List.range_add, List.filter_append, hnone, List.append_nil]

theorem filter_range_succ (found : FdSet) (i : Nat) : (List.range (i + 1)).filter found =
    (List.range i).filter found ++ (if found i then [i] else []) := by
  rw [List.range_succ, List.filter_append, List.filter_singleton, Bool.cond_eq_ite]

structure Sys.Pass (found : FdSet) (fdmax : Nat) (s : Sys) (served : List Nat) : Prop where
  grown : fdmax ≤ s.fdmax
  served : Served found fdmax served s.pc

theorem Sys.Pass.quiet {s t : Sys} (h : t.Pass found m ds)
    (he : s.did listener e = none) :
    t.Pass found m (ds ++ (s.serves listener e).toList) := by
  rw [Sys.serves, he, Option.map_none, Option.toList_none, List.append_nil]
  exact h

theorem Sys.Pass.acceptCall {s : Sys} (h : s.Pass found m ds) (ht : s.Table listener)
    (hpc : s.pc = .accept i readFds) (a : Answer) :
    (s.step listener (.call a)).Pass found m
      (ds ++ (s.serves listener (.call a)).toList) := by
  have hstep : s.step listener (.call a) = s.accept listener i readFds a := by
    simp only [Sys.step, Sys.call, hpc]
  obtain ⟨hg, hs⟩ := h
  rw [hpc] at hs
  obtain ⟨hR, hi, hds⟩ := hs
  have hnext : ds ++ [i] = (List.range (i + 1)).filter found := by
    rw [filter_range_succ, if_pos hi, hds]
  rcases Sys.accept_cases ht i readFds a with he | he | ⟨k, c, rest, rfl, _, he⟩
  · refine Sys.Pass.quiet ?_ (did_of_pc (by rw [hstep, he]))
    rw [hstep, he]
    exact ⟨hg, hpc ▸ ⟨hR, hi, hds⟩⟩
  · simp only [Sys.serves, Sys.did, hstep, he, hpc]
    exact ⟨hg, hR, hnext⟩
  · have hgrown : m ≤ max s.fdmax (fdLowest s.fds) := hg.trans (Nat.le_max_left _ _)
    simp only [Sys.serves, Sys.did, hstep, he, hpc]
    by_cases hlt : fdLowest s.fds < fdSetsize
    · simp only [if_pos hlt]
      exact ⟨hgrown, hR, hnext⟩
    · simp only [if_neg hlt]
      exact ⟨hgrown, trivial⟩

theorem Sys.Pass.recvCall {s : Sys} (h : s.Pass found m ds)
    (hpc : s.pc = .recv i readFds) (a : Answer) :
    (s.step listener (.call a)).Pass found m
      (ds ++ (s.serves listener (.call a)).toList) := by
  have hstep : s.step listener (.call a) = s.recv i readFds a := by
    simp only [Sys.step, Sys.call, hpc]
  obtain ⟨hg, hs⟩ := h
  rw [hpc] at hs
  obtain ⟨hR, hi, hds⟩ := hs
  have hnext : ds ++ [i] = (List.range (i + 1)).filter found := by
    rw [filter_range_succ, if_pos hi, hds]
  rcases s.recv_cases i readFds a with he | he | ⟨k, c, buf, t, _, _, he⟩
  · refine Sys.Pass.quiet ?_ (did_of_pc (by rw [hstep, he]))
    rw [hstep, he]
    exact ⟨hg, hpc ▸ ⟨hR, hi, hds⟩⟩
  · simp only [Sys.serves, Sys.did, hstep, he, hpc, Sys.drop]
    exact ⟨hg, hR, hnext⟩
  · simp only [Sys.serves, Sys.did, hstep, he, hpc]
    exact ⟨hg, hR, hnext⟩

theorem Sys.Pass.scanCall {s : Sys} (hf : ∀ fd, found fd = true → fd < m + 1)
    (h : s.Pass found m ds) (hpc : s.pc = .scan i readFds) (a : Answer) :
    (s.step listener (.call a)).Pass found m ds := by
  obtain ⟨hg, hs⟩ := h
  rw [hpc] at hs
  obtain ⟨rfl, rfl⟩ := hs
  simp only [Sys.step, Sys.call, hpc]
  split
  · split
    · next hi =>
      refine ⟨hg, ?_⟩
      simp only
      split <;> exact ⟨rfl, hi, rfl⟩
    · next hi =>
      refine ⟨hg, rfl, ?_⟩
      rw [filter_range_succ, if_neg hi, List.append_nil]
  · next hi =>
    -- what was found is all below the first `fdmax`
    exact ⟨hg, filter_range_of_le hf (by omega)⟩

theorem Sys.Pass.step {s : Sys} (hf : ∀ fd, found fd = true → fd < m + 1)
    (hi : s.Inv listener) (h : s.Pass found m ds) (e : Ev) (hp : s.selects e = false) :
    (s.step listener e).Pass found m (ds ++ (s.serves listener e).toList) := by
  cases e with
  | call a =>
    cases hpc : s.pc with
    | select => simp only [Sys.selects, hpc, Bool.true_eq_false] at hp
    | scan i readFds =>
      exact (h.scanCall hf hpc a).quiet (did_of_other (by simp [hpc]) (by simp [hpc]))
    | accept i readFds => exact h.acceptCall hi.table hpc a
    | recv i readFds => exact h.recvCall hpc a
    | each i readFds buf j =>
      refine Sys.Pass.quiet ?_ (did_of_other (by simp [hpc]) (by simp [hpc]))
      obtain ⟨hg, hs⟩ := h
      rw [hpc] at hs
      simp only [Sys.step, Sys.call, hpc]
      split
      · split <;> exact ⟨hg, hs⟩
      · exact ⟨hg, hs⟩
    | send i readFds buf j =>
      refine Sys.Pass.quiet ?_ (did_of_other (by simp [hpc]) (by simp [hpc]))
      obtain ⟨hg, hs⟩ := h
      have ha := hi.aims
      rw [hpc] at hs ha
      obtain ⟨_, _, d, hd⟩ := ha
      simp only [Sys.step, Sys.call, hpc]
      rcases Sys.send_cases hd i readFds buf a with ⟨_, he | he⟩ | ⟨k, _, he⟩
      · rw [he]
        exact ⟨hg, trivial⟩
      · rw [he]
        exact ⟨hg, hs⟩
      · rw [he]
        exact ⟨hg, hs⟩
    | exited err status =>
      refine Sys.Pass.quiet ?_ (did_of_other (by simp [hpc]) (by simp [hpc]))
      simpa only [Sys.step, Sys.call, hpc] using h
    | killed =>
      refine Sys.Pass.quiet ?_ (did_of_other (by simp [hpc]) (by simp [hpc]))
      simpa only [Sys.step, Sys.call, hpc] using h
    | overrun =>
      refine Sys.Pass.quiet ?_ (did_of_other (by simp [hpc]) (by simp [hpc]))
      simpa only [Sys.step, Sys.call, hpc] using h
  | connect => exact Sys.Pass.quiet ⟨h.grown, h.served⟩ (did_of_pc rfl)
  | clientSend c bs =>
    have hpc : (s.step listener (.clientSend c bs)).pc = s.pc := by
      simp only [Sys.step]
      split <;> rfl
    have hmax : (s.step listener (.clientSend c bs)).fdmax = s.fdmax := by
      simp only [Sys.step]
      split <;> rfl
    exact Sys.Pass.quiet ⟨hmax ▸ h.grown, hpc ▸ h.served⟩ (did_of_pc hpc)
  | clientShut c => exact Sys.Pass.quiet ⟨h.grown, h.served⟩ (did_of_pc rfl)

/-- In one pass over the descriptors, from a `select` that returns to the next, the server serves
each descriptor that was ready exactly once and no other, however many connections come and go
meanwhile. -/
theorem selectserver_serves {s₀ : Sys} (h : s₀.Start listener) (es es' : List Ev)
    (hpc : (run (Sys.step listener) s₀ es).pc = .scan 0 found)
    (hsel : saw Sys.selects (Sys.step listener) (run (Sys.step listener) s₀ es) es' = false)
    (hend : (run (Sys.step listener) s₀ (es ++ es')).pc = .select) :
    trace (Sys.serves listener) (Sys.step listener) (run (Sys.step listener) s₀ es) es' =
      (List.range fdSetsize).filter found := by
  have hinv := inv_run h es
  have hbound := hinv.bound
  rw [hpc] at hbound
  have hf : ∀ fd, found fd = true → fd < (run (Sys.step listener) s₀ es).fdmax + 1 := by
    intro fd hfd
    have hr := hinv.rest
    rw [hpc] at hr
    exact Nat.lt_succ_of_le (hinv.table.below fd (hr fd (Nat.zero_le fd) hfd))
  have hstart :
      (run (Sys.step listener) s₀ es).Pass found (run (Sys.step listener) s₀ es).fdmax [] :=
    ⟨Nat.le_refl _, by rw [hpc]; exact ⟨rfl, rfl⟩⟩
  have hrun := run_trace_of (f := Sys.serves listener)
    (fun s served => s.Inv listener ∧ s.Pass found (run (Sys.step listener) s₀ es).fdmax served)
    (fun s served e he hs => ⟨hs.1.step e, hs.2.step hf hs.1 e he⟩) ⟨hinv, hstart⟩ hsel
  rw [← run_append, List.nil_append] at hrun
  have hserved := hrun.2.served
  rw [hend] at hserved
  rw [hserved]
  exact (filter_range_of_le hf hbound).symm

theorem selectserver_serves_listener :
    trace (Sys.serves 3) (Sys.step 3) (run (Sys.step 3) .listening [.connect, .call (.done 0)])
      (List.replicate 7 (.call (.done 0))) = [3] :=
  (selectserver_serves listening_start [.connect, .call (.done 0)]
    (List.replicate 7 (.call (.done 0))) rfl (by decide) rfl).trans (by decide +kernel)

end SysPrg.SelectServer
