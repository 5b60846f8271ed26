import SysPrg.Room
import SysPrg.SelectServer

namespace SysPrg.SelectServer
set_option autoImplicit true

def Sys.connAt (s : Sys) (fd : Nat) : Option Nat :=
  match fdGet s.fds fd with
  | some (.conn c) => some c
  | _ => none

/-- What a step of the server's is in the room that the clients share. -/
def Sys.event (listener : Nat) (s : Sys) (e : Ev) : Option (RoomEv Nat) :=
  match s.did listener e with
  | some (.accept _) =>
    if (s.step listener e).backlog = s.backlog then none else s.backlog.head?.map .join
  | some (.drop i) => (s.connAt i).map .leave
  | some (.say i buf) => (s.connAt i).map (.say · buf)
  | none => none

def Sys.loses (s : Sys) : Ev → Bool
  | .call a =>
    match s.pc, a with
    | .send _ _ buf _, .done k => k + 1 < buf.length
    | .send _ _ _ _, .fail _ => true
    | _, _ => false
  | _ => false

/-- Whether the loop over `j`, for what came in on `i`, has still to come to the connection. -/
def Sys.awaits (s : Sys) (c i j : Nat) : Bool :=
  (List.range s.fds.length).any fun fd => j ≤ fd && fd ≠ i && s.connAt fd = some c

def Sys.owed (s : Sys) (c : Nat) : Bytes :=
  match s.pc with
  | .each i _ buf j | .send i _ buf j => if s.awaits c i j then buf else []
  | _ => []

theorem connAt_eq_some {s : Sys} : s.connAt fd = some c ↔ fdGet s.fds fd = some (.conn c) := by
  unfold Sys.connAt
  split
  · next d hd => rw [hd, Option.some.injEq, Option.some.injEq, Sock.conn.injEq]
  · next hn =>
    refine ⟨nofun, fun h => (hn c h).elim⟩

theorem awaits_iff {s : Sys} :
    s.awaits c i j = true ↔ ∃ fd, j ≤ fd ∧ fd ≠ i ∧ fdGet s.fds fd = some (.conn c) := by
  unfold Sys.awaits
  rw [List.any_eq_true]
  constructor
  · rintro ⟨fd, _, hfd⟩
    simp only [Bool.and_eq_true, decide_eq_true_eq, connAt_eq_some] at hfd
    exact ⟨fd, hfd.1.1, hfd.1.2, hfd.2⟩
  · rintro ⟨fd, hj, hi, hc⟩
    have hlt : fd < s.fds.length :=
      (List.getElem?_eq_some_iff.1 (Option.join_eq_some_iff.1 hc)).1
    refine ⟨fd, List.mem_range.2 hlt, ?_⟩
    simp only [Bool.and_eq_true, decide_eq_true_eq, connAt_eq_some]
    exact ⟨⟨hj, hi⟩, hc⟩

theorem awaits_succ {s : Sys} (hj : fdGet s.fds j = some (.conn c) → j = i) :
    s.awaits c i (j + 1) = s.awaits c i j := by
  rw [Bool.eq_iff_iff, awaits_iff, awaits_iff]
  constructor
  · rintro ⟨fd, hfd, hi, hc⟩
    exact ⟨fd, Nat.le_of_succ_le hfd, hi, hc⟩
  · rintro ⟨fd, hfd, hi, hc⟩
    refine ⟨fd, Nat.lt_of_le_of_ne hfd ?_, hi, hc⟩
    rintro rfl
    exact hi (hj hc)

/-- The room is what the server makes of it: who has a descriptor is there, what was read from a
connection was said by it, and what was sent on it, with what is still owed, is what it heard. -/
structure Sys.Room (s : Sys) (hist : List (RoomEv Nat)) : Prop where
  here : ∀ c, (Party.after c hist).here = true ↔ ∃ fd, fdGet s.fds fd = some (.conn c)
  heard : ∀ c, (s.out c).wr ++ s.owed c = (Party.after c hist).heard
  said : ∀ c, (s.inp c).wr.take (s.inp c).rd = (Party.after c hist).said
  rd : ∀ c, (s.inp c).rd ≤ (s.inp c).wr.length

theorem look_kept {f : Conn → Conn} {g : Conn → Stream} (hf : ∀ k, g (f k) = g k)
    (conns : List Conn) (c d : Nat) : (conns.modify c f)[d]?.map g = conns[d]?.map g := by
  rw [List.getElem?_modify, Option.map_eq_map, Option.map_map]
  by_cases hc : c = d <;> cases conns[d]? <;> simp [hc, hf]

theorem look_set {f : Conn → Conn} {g : Conn → Stream} (hf : ∀ k, g (f k) = t)
    (conns : List Conn) (c d : Nat) (u : Stream) : ((conns.modify c f)[d]?.map g).getD u =
      if c = d ∧ d < conns.length then t else (conns[d]?.map g).getD u := by
  rw [List.getElem?_modify, Option.map_eq_map, Option.map_map]
  by_cases hd : d < conns.length
  · by_cases hc : c = d <;> simp [hc, hd, hf]
  · simp [hd]

theorem inp_setInp (s : Sys) (c d : Nat) (t : Stream) :
    (s.setInp c t).inp d = if c = d ∧ d < s.conns.length then t else s.inp d := by
  unfold Sys.inp Sys.setInp
  refine look_set ?_ s.conns c d .fresh
  exact fun _ => rfl

@[simp] theorem out_setInp (s : Sys) (c d : Nat) (t : Stream) : (s.setInp c t).out d = s.out d := by
  unfold Sys.out Sys.setInp
  rw [look_kept]
  exact fun _ => rfl

@[simp] theorem inp_setOut (s : Sys) (c d : Nat) (t : Stream) : (s.setOut c t).inp d = s.inp d := by
  unfold Sys.inp Sys.setOut
  rw [look_kept]
  exact fun _ => rfl

theorem out_setOut (s : Sys) (c d : Nat) (t : Stream) :
    (s.setOut c t).out d = if c = d ∧ d < s.conns.length then t else s.out d := by
  unfold Sys.out Sys.setOut
  refine look_set ?_ s.conns c d .fresh
  exact fun _ => rfl

theorem Sys.Room.goto {s : Sys} (h : s.Room hist) {pc : Pc}
    (ho : ∀ c, Sys.owed { s with pc := pc } c = s.owed c) : Sys.Room { s with pc := pc } hist := by
  refine ⟨h.here, ?_, h.said, h.rd⟩
  intro c
  rw [ho c]
  exact h.heard c

theorem Sys.Start.room {s : Sys} (h : s.Start listener) : s.Room [] := by
  have hc : ∀ c, s.conns[c]? = none := fun c => by rw [h.conns, List.getElem?_nil]
  refine ⟨?_, ?_, ?_, ?_⟩
  · intro c
    refine ⟨nofun, ?_⟩
    rintro ⟨fd, hfd⟩
    exact (h.fresh fd c hfd).elim
  · intro c
    simp only [Sys.out, hc, Sys.owed, h.pc]
    rfl
  · intro c
    simp only [Sys.inp, hc]
    rfl
  · intro c
    simp only [Sys.inp, hc]
    exact Nat.zero_le _

theorem Sys.Room.client {s : Sys} (h : s.Room hist) {t : Stream} (hrd : t.rd = (s.inp c).rd)
    (hwr : (s.inp c).wr <+: t.wr) : (s.setInp c t).Room hist := by
  have hle : (s.inp c).rd ≤ t.wr.length := (h.rd c).trans hwr.length_le
  refine ⟨h.here, ?_, ?_, ?_⟩
  · intro d
    rw [out_setInp]
    exact h.heard d
  · intro d
    rw [inp_setInp, ← h.said d]
    split
    · next hd =>
      obtain ⟨rest, hrest⟩ := hwr
      rw [← hd.1, hrd, ← hrest, List.take_append_of_le_length (h.rd c)]
    · rfl
  · intro d
    rw [inp_setInp]
    split
    · exact hrd ▸ hle
    · exact h.rd d

theorem Sys.Room.connect {s : Sys} (h : s.Room hist) (backlog : List Nat) :
    Sys.Room { s with conns := s.conns ++ [⟨.fresh, .fresh⟩], backlog := backlog } hist := by
  have hlook : ∀ (g : Conn → Stream) (c : Nat), g ⟨.fresh, .fresh⟩ = .fresh →
      ((s.conns ++ [⟨.fresh, .fresh⟩])[c]?.map g).getD .fresh =
        (s.conns[c]?.map g).getD .fresh := by
    intro g c hg
    rcases Nat.lt_trichotomy c s.conns.length with hc | rfl | hc
    · rw [List.getElem?_append_left hc]
    · simp [hg]
    · rw [List.getElem?_eq_none (by simp; omega), List.getElem?_eq_none (Nat.le_of_lt hc)]
  have hin : ∀ c, Sys.inp { s with conns := s.conns ++ [⟨.fresh, .fresh⟩], backlog := backlog } c =
      s.inp c := fun c => hlook _ c rfl
  have hout : ∀ c, Sys.out { s with conns := s.conns ++ [⟨.fresh, .fresh⟩], backlog := backlog } c =
      s.out c := fun c => hlook _ c rfl
  refine ⟨h.here, ?_, ?_, ?_⟩
  · intro c
    rw [hout]
    exact h.heard c
  · intro c
    rw [hin]
    exact h.said c
  · intro c
    rw [hin]
    exact h.rd c

theorem Sys.Room.join {s t : Sys} (h : s.Room hist) (ho : ∀ c, s.owed c = [])
    (hfds : t.fds = fdInstall (.conn c) s.fds) (hconns : t.conns = s.conns)
    (ho' : ∀ c, t.owed c = []) : t.Room (hist ++ [.join c]) := by
  refine ⟨?_, ?_, ?_, ?_⟩
  · intro d
    simp only [Party.after_snoc, Party.step, hfds, fdGet_install]
    by_cases hd : c = d
    · simp only [hd, if_true, true_iff]
      exact ⟨fdLowest s.fds, if_pos rfl⟩
    · simp only [hd, if_false, h.here d]
      constructor
      · rintro ⟨fd, hfd⟩
        refine ⟨fd, ?_⟩
        rw [if_neg]
        · exact hfd
        · rintro rfl
          rw [fdGet_lowest] at hfd
          cases hfd
      · rintro ⟨fd, hfd⟩
        split at hfd
        · rw [Option.some.injEq, Sock.conn.injEq] at hfd
          exact (hd hfd).elim
        · exact ⟨fd, hfd⟩
  · intro d
    have hd := h.heard d
    rw [ho d, List.append_nil] at hd
    rw [ho' d, List.append_nil, Party.after_snoc, Sys.out, hconns]
    simp only [Party.step]
    split <;> exact hd
  · intro d
    rw [Party.after_snoc, Sys.inp, hconns]
    simp only [Party.step]
    split <;> exact h.said d
  · intro d
    rw [Sys.inp, hconns]
    exact h.rd d

theorem Sys.Room.leave {s : Sys} (h : s.Room hist) (ht : s.Table listener)
    (hc : fdGet s.fds i = some (.conn c)) (ho : ∀ c, s.owed c = []) (readFds : FdSet) :
    (s.drop i readFds).Room (hist ++ [.leave c]) := by
  refine ⟨?_, ?_, ?_, h.rd⟩
  · intro d
    simp only [Party.after_snoc, Party.step, Sys.drop, fdGet_close]
    by_cases hd : c = d
    · subst hd
      simp only [if_true, Bool.false_eq_true, false_iff]
      rintro ⟨fd, hfd⟩
      split at hfd
      · cases hfd
      · next hi => exact hi (ht.once fd i c hfd hc)
    · simp only [hd, if_false, h.here d]
      constructor
      · rintro ⟨fd, hfd⟩
        refine ⟨fd, ?_⟩
        rw [if_neg]
        · exact hfd
        · rintro rfl
          rw [hc, Option.some.injEq, Sock.conn.injEq] at hfd
          exact hd hfd
      · rintro ⟨fd, hfd⟩
        split at hfd
        · cases hfd
        · exact ⟨fd, hfd⟩
  · intro d
    have hd := h.heard d
    rw [ho d, List.append_nil] at hd
    rw [Party.after_snoc]
    simp only [Party.step, Sys.owed, Sys.drop, List.append_nil]
    split <;> exact hd
  · intro d
    rw [Party.after_snoc]
    simp only [Party.step]
    split <;> exact h.said d

theorem Sys.Room.say {s : Sys} (h : s.Room hist) (ht : s.Table listener)
    (hc : fdGet s.fds i = some (.conn c)) (ho : ∀ c, s.owed c = []) (readFds : FdSet)
    (hr : (s.inp c).recv k 256 = some (buf, t)) :
    Sys.Room { s.setInp c t with pc := .each i readFds buf 0 } (hist ++ [.say c buf]) := by
  obtain ⟨_, _, hle, _, htake, _⟩ := Stream.recv_spec (by decide) (h.rd c) hr
  -- `i` is the only descriptor of the one who said it
  have haw : ∀ d, s.awaits d i 0 = true ↔ c ≠ d ∧ (Party.after d hist).here = true := by
    intro d
    rw [awaits_iff, h.here d]
    constructor
    · rintro ⟨fd, _, hi, hd⟩
      refine ⟨?_, fd, hd⟩
      rintro rfl
      exact hi (ht.once fd i c hd hc)
    · rintro ⟨hne, fd, hd⟩
      refine ⟨fd, Nat.zero_le fd, ?_, hd⟩
      rintro rfl
      rw [hc, Option.some.injEq, Sock.conn.injEq] at hd
      exact hne hd
  refine ⟨?_, ?_, ?_, ?_⟩
  · intro d
    rw [Party.after_snoc]
    simp only [Party.step]
    split
    · exact h.here d
    · split <;> exact h.here d
  · intro d
    have hd := h.heard d
    rw [ho d, List.append_nil] at hd
    rw [Party.after_snoc]
    change ((s.setInp c t).out d).wr ++ (if s.awaits d i 0 = true then buf else []) = _
    rw [out_setInp, hd]
    simp only [haw d, Party.step]
    by_cases hcd : c = d
    · simp [hcd]
    · by_cases hh : (Party.after d hist).here = true <;> simp [hcd, hh]
  · intro d
    rw [Party.after_snoc]
    change ((s.setInp c t).inp d).wr.take ((s.setInp c t).inp d).rd = _
    rw [inp_setInp]
    simp only [Party.step]
    by_cases hcd : c = d
    · subst hcd
      rw [if_pos ⟨rfl, ht.known i c hc⟩, htake, h.said c, if_pos rfl]
    · rw [if_neg (fun hd => hcd hd.1), if_neg hcd, h.said d]
      split <;> rfl
  · intro d
    change ((s.setInp c t).inp d).rd ≤ ((s.setInp c t).inp d).wr.length
    rw [inp_setInp]
    split
    · exact hle
    · exact h.rd d

theorem Sys.Room.deliver {s : Sys} (h : s.Room hist) (ht : s.Table listener)
    (hpc : s.pc = .send i readFds buf j) (hne : i ≠ j) (hd : fdGet s.fds j = some (.conn d)) :
    Sys.Room { s.setOut d ((s.out d).send buf) with pc := .each i readFds buf (j + 1) } hist := by
  refine ⟨h.here, ?_, ?_, ?_⟩
  · intro c
    have hc := h.heard c
    simp only [Sys.owed, hpc] at hc
    change ((s.setOut d ((s.out d).send buf)).out c).wr ++
      (if s.awaits c i (j + 1) = true then buf else []) = _
    rw [← hc, out_setOut]
    by_cases hcd : d = c
    · subst hcd
      have hnow : s.awaits d i j = true := awaits_iff.2 ⟨j, Nat.le_refl j, Ne.symm hne, hd⟩
      have hafter : ¬ s.awaits d i (j + 1) = true := by
        rw [awaits_iff]
        rintro ⟨fd, hj, _, hfd⟩
        exact Nat.ne_of_gt hj (ht.once fd j d hfd hd)
      rw [if_pos ⟨rfl, ht.known j d hd⟩, if_neg hafter, if_pos hnow, List.append_nil]
      rfl
    · rw [if_neg fun h => hcd h.1, awaits_succ]
      intro hc
      rw [hd, Option.some.injEq, Sock.conn.injEq] at hc
      exact (hcd hc).elim
  · intro c
    change ((s.setOut d _).inp c).wr.take ((s.setOut d _).inp c).rd = _
    rw [inp_setOut]
    exact h.said c
  · intro c
    change ((s.setOut d _).inp c).rd ≤ ((s.setOut d _).inp c).wr.length
    rw [inp_setOut]
    exact h.rd c

theorem event_of_did {s : Sys} (h : s.did listener e = none) : s.event listener e = none := by
  rw [Sys.event, h]

theorem Sys.Room.quiet {s t : Sys} (h : t.Room hist) (he : s.event listener e = none) :
    t.Room (hist ++ (s.event listener e).toList) := by
  rw [he, Option.toList_none, List.append_nil]
  exact h

theorem Sys.Room.acceptCall {s : Sys} (h : s.Room hist) (ht : s.Table listener)
    (hpc : s.pc = .accept i readFds) (a : Answer) :
    (s.step listener (.call a)).Room (hist ++ (s.event listener (.call a)).toList) := by
  have ho : ∀ c, s.owed c = [] := fun c => by simp only [Sys.owed, hpc]
  have hstep : s.step listener (.call a) = s.accept listener i readFds a := by
    simp only [Sys.step, Sys.call, hpc]
  rcases Sys.accept_cases ht i readFds a with he | he | ⟨k, c, rest, rfl, hb, he⟩
  · rw [hstep, he]
    exact h.quiet (event_of_did (did_of_pc (by rw [hstep, he])))
  · rw [hstep, he]
    refine Sys.Room.quiet (h.goto ?_) ?_
    · exact fun c => (ho c).symm
    · simp only [Sys.event, Sys.did, hstep, he, hpc, if_true]
  · have hev : s.event listener (.call (.done k)) = some (.join c) := by
      have hne : rest ≠ c :: rest := fun hr => List.cons_ne_self _ _ hr.symm
      have hdid : s.did listener (.call (.done k)) = some (.accept i) := by
        simp only [Sys.did, hstep, he, hpc]
        by_cases hlt : fdLowest s.fds < fdSetsize
        · simp only [if_pos hlt]
        · simp only [if_neg hlt]
      simp only [Sys.event, hdid, hstep, he, hb, hne, if_false]
      rfl
    rw [hstep, he, hev]
    refine h.join ho rfl rfl ?_
    intro d
    by_cases hlt : fdLowest s.fds < fdSetsize
    · simp only [Sys.owed, if_pos hlt]
    · simp only [Sys.owed, if_neg hlt]

theorem Sys.Room.recvCall {s : Sys} (h : s.Room hist) (ht : s.Table listener)
    (hpc : s.pc = .recv i readFds) (hc : fdGet s.fds i = some (.conn c)) (a : Answer) :
    (s.step listener (.call a)).Room (hist ++ (s.event listener (.call a)).toList) := by
  have ho : ∀ c, s.owed c = [] := fun c => by simp only [Sys.owed, hpc]
  have hat : s.connAt i = some c := connAt_eq_some.2 hc
  have hstep : s.step listener (.call a) = s.recv i readFds a := by
    simp only [Sys.step, Sys.call, hpc]
  rcases s.recv_cases i readFds a with he | he | ⟨k, d, buf, t, hd, hr, he⟩
  · rw [hstep, he]
    exact h.quiet (event_of_did (did_of_pc (by rw [hstep, he])))
  · have hev : s.event listener (.call a) = some (.leave c) := by
      simp only [Sys.event, Sys.did, hstep, he, hpc, Sys.drop, hat, Option.map_some]
    rw [hstep, he, hev]
    exact h.leave ht hc ho readFds
  · have hev : s.event listener (.call a) = some (.say d buf) := by
      simp only [Sys.event, Sys.did, hstep, he, hpc, connAt_eq_some.2 hd, Option.map_some]
    rw [hstep, he, hev]
    exact h.say ht hd ho readFds hr

theorem Sys.Room.eachCall {s : Sys} (h : s.Room hist) (ht : s.Table listener)
    (hpc : s.pc = .each i readFds buf j) (a : Answer) : (s.step listener (.call a)).Room hist := by
  simp only [Sys.step, Sys.call, hpc]
  split
  · split
    · refine h.goto ?_
      intro c
      simp only [Sys.owed, hpc]
      rfl
    · next hj =>
      refine h.goto ?_
      intro c
      have hskip : s.awaits c i (j + 1) = s.awaits c i j := by
        refine awaits_succ fun hc => ?_
        by_contra hi
        exact hj ⟨(ht.master j).2 (.inr ⟨c, hc⟩), ht.ne_listener hc, hi⟩
      simp only [Sys.owed, hpc]
      exact congrArg (if · = true then buf else []) hskip
  · next hj =>
    refine h.goto ?_
    intro c
    have hnone : ¬ s.awaits c i j = true := by
      rw [awaits_iff]
      rintro ⟨fd, hfd, _, hc⟩
      exact hj (hfd.trans (ht.below fd ((ht.master fd).2 (.inr ⟨c, hc⟩))))
    simp only [Sys.owed, hpc]
    rw [if_neg hnone]

theorem Sys.Room.sendCall {s : Sys} (h : s.Room hist) (ht : s.Table listener)
    (hpc : s.pc = .send i readFds buf j) (hne : i ≠ j) (hd : fdGet s.fds j = some (.conn d))
    (hl : s.loses (.call a) = false) : (s.step listener (.call a)).Room hist := by
  simp only [Sys.step, Sys.call, hpc]
  rcases Sys.send_cases hd i readFds buf a with ⟨⟨e, rfl⟩, _⟩ | ⟨k, rfl, he⟩
  · simp only [Sys.loses, hpc, Bool.true_eq_false] at hl
  · simp only [Sys.loses, hpc, decide_eq_false_iff_not, Nat.not_lt] at hl
    rw [he, (chunk_eq_self k buf).2 hl]
    exact h.deliver ht hpc hne hd

theorem Sys.Room.step {s : Sys} (hi : s.Inv listener) (h : s.Room hist) (e : Ev)
    (hl : s.loses e = false) :
    (s.step listener e).Room (hist ++ (s.event listener e).toList) := by
  cases e with
  | call a =>
    obtain ⟨ht, _, ha, _⟩ := hi
    cases hpc : s.pc with
    | select =>
      refine Sys.Room.quiet ?_ (event_of_did (did_of_other (by simp [hpc]) (by simp [hpc])))
      simp only [Sys.step, Sys.call, hpc]
      rcases Sys.select_cases ht a with he | ⟨_, he⟩ | ⟨readFds, _, he⟩
      · rw [he]
        exact h
      · rw [he]
        exact h.goto fun c => by simp only [Sys.owed, hpc]
      · rw [he]
        exact h.goto fun c => by simp only [Sys.owed, hpc]
    | scan i readFds =>
      refine Sys.Room.quiet ?_ (event_of_did (did_of_other (by simp [hpc]) (by simp [hpc])))
      simp only [Sys.step, Sys.call, hpc]
      split
      · split
        · by_cases hl : i = listener
          · rw [if_pos hl]
            exact h.goto fun c => by simp only [Sys.owed, hpc]
          · rw [if_neg hl]
            exact h.goto fun c => by simp only [Sys.owed, hpc]
        · exact h.goto fun c => by simp only [Sys.owed, hpc]
      · exact h.goto fun c => by simp only [Sys.owed, hpc]
    | accept i readFds => exact h.acceptCall ht hpc a
    | recv i readFds =>
      rw [hpc] at ha
      obtain ⟨c, hc⟩ := ha
      exact h.recvCall ht hpc hc a
    | each i readFds buf j =>
      exact (h.eachCall ht hpc a).quiet
        (event_of_did (did_of_other (by simp [hpc]) (by simp [hpc])))
    | send i readFds buf j =>
      rw [hpc] at ha
      obtain ⟨_, hne, d, hd⟩ := ha
      exact (h.sendCall ht hpc hne hd hl).quiet
        (event_of_did (did_of_other (by simp [hpc]) (by simp [hpc])))
    | exited err status =>
      have hs : s.step listener (.call a) = s := by simp only [Sys.step, Sys.call, hpc]
      exact hs.symm ▸ h.quiet (event_of_did (did_of_pc (by rw [hs])))
    | killed =>
      have hs : s.step listener (.call a) = s := by simp only [Sys.step, Sys.call, hpc]
      exact hs.symm ▸ h.quiet (event_of_did (did_of_pc (by rw [hs])))
    | overrun =>
      have hs : s.step listener (.call a) = s := by simp only [Sys.step, Sys.call, hpc]
      exact hs.symm ▸ h.quiet (event_of_did (did_of_pc (by rw [hs])))
  | connect => exact (h.connect _).quiet (event_of_did (did_of_pc rfl))
  | clientSend c bs =>
    by_cases hs : (s.inp c).shut = true
    · have hst : s.step listener (.clientSend c bs) = s := if_pos hs
      rw [hst]
      exact h.quiet (event_of_did (did_of_pc (by rw [hst])))
    · have hst : s.step listener (.clientSend c bs) = s.setInp c ((s.inp c).send bs) := if_neg hs
      rw [hst]
      have hroom : (s.setInp c ((s.inp c).send bs)).Room hist :=
        h.client rfl (List.prefix_append _ _)
      exact hroom.quiet (event_of_did (did_of_pc (by rw [hst]; rfl)))
  | clientShut c =>
    have hroom : (s.setInp c (s.inp c).close).Room hist := h.client rfl (List.prefix_refl _)
    exact Sys.Room.quiet hroom (event_of_did (did_of_pc rfl))

/-- The server is a room in which everybody hears everything: whatever the clients do and in
whatever pieces their bytes come, what has been sent on a connection, with what the broadcast at
hand still owes it, is what the others have said since it was accepted, in one order for all, and
nothing of its own. The sends have to take all they are given, which the server does not check. -/
theorem selectserver_delivers {s₀ : Sys} (h : s₀.Start listener)
    (hl : saw Sys.loses (Sys.step listener) s₀ es = false) (c : Nat) :
    let s := run (Sys.step listener) s₀ es
    let p := Party.after c (trace (Sys.event listener) (Sys.step listener) s₀ es)
    (p.here = true ↔ ∃ fd, fdGet s.fds fd = some (.conn c)) ∧ (s.out c).wr ++ s.owed c = p.heard ∧
      (s.inp c).wr.take (s.inp c).rd = p.said := by
  intro s p
  have hrun : s.Inv listener ∧
      s.Room ([] ++ trace (Sys.event listener) (Sys.step listener) s₀ es) := by
    refine run_trace_of (fun s hist => s.Inv listener ∧ s.Room hist) ?_ ⟨h.inv, h.room⟩ hl
    intro s hist e he hs
    exact ⟨hs.1.step e, hs.2.step hs.1 e he⟩
  rw [List.nil_append] at hrun
  exact ⟨hrun.2.here c, hrun.2.heard c, hrun.2.said c⟩

theorem selectserver_delivers_greeting :
    let es := [.connect, .connect, .clientSend 0 [104, 105]] ++
      List.replicate 40 (.call (.done 255))
    saw Sys.loses (Sys.step 3) .listening es = false ∧
      (run (Sys.step 3) .listening es).out 1 = ⟨[104, 105], 0, false⟩ ∧
      ((run (Sys.step 3) .listening es).out 1).wr ++ (run (Sys.step 3) .listening es).owed 1 =
        (Party.after 1 (trace (Sys.event 3) (Sys.step 3) .listening es)).heard := by
  intro es
  have hl : saw Sys.loses (Sys.step 3) .listening es = false := by decide +kernel
  exact ⟨hl, by decide +kernel, (selectserver_delivers listening_start hl 1).2.1⟩

end SysPrg.SelectServer
