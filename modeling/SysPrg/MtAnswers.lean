import SysPrg.MtFinger

namespace SysPrg.MtFinger
set_option autoImplicit true

def Sys.got (s : Sys) (c : Nat) : Bytes := (s.inp c).wr.take (s.inp c).rd

def Sys.sent (s : Sys) (c : Nat) : Bytes := (s.out c).wr

/-- Nothing has been written, or the answer to what was read, from its beginning. -/
def Answered (cfg : Cfg) (missed : Prop) (got sent : Bytes) : Prop :=
  sent = [] ∨ ∃ u r, terminated got = some u ∧ Answers cfg missed u r ∧ sent <+: r.bytes

def lookupFails (c : Nat) (s : Sys) : Ev → Bool
  | .thread t a =>
    (s.threads[t]?.map fun pc => pc.misses a && pc.sd.map s.peer == some c).getD false
  | _ => false

/-- Connections are one to one with descriptors, and the threads know what went over theirs. -/
structure Sys.Inv (cfg : Cfg) (missed : Nat → Prop) (s : Sys) : Prop where
  sound : s.held.Sound
  once : ∀ fd fd', fdGet s.fds fd = some .conn → fdGet s.fds fd' = some .conn →
    s.peer fd = s.peer fd' → fd = fd'
  listed : ∀ fd, fdGet s.fds fd = some .conn → s.peer fd < s.next ∧ s.peer fd ∉ s.backlog
  queue : s.backlog.Nodup ∧ ∀ c ∈ s.backlog, c < s.next
  rd : ∀ c, (s.inp c).rd ≤ (s.inp c).wr.length
  fresh : ∀ c, (c ∈ s.backlog ∨ s.next ≤ c ∨ ∃ fd, s.main.newsd = some fd ∧ s.peer fd = c) →
    s.got c = [] ∧ s.sent c = []
  knows : ∀ (t : Nat) (pc : Pc) fd, s.threads[t]? = some pc → pc.sd = some fd →
    pc.Knows cfg (missed (s.peer fd)) (s.got (s.peer fd)) (s.sent (s.peer fd))
  answered : ∀ c, Answered cfg (missed c) (s.got c) (s.sent c)

section
variable {s s' : Sys} {t u : Nat} {pc pc' : Pc}

theorem Sys.Inv.open_thread (h : s.Inv cfg missed) (ht : s.threads[t]? = some pc)
    (hsd : pc.sd = some fd) :
    fdGet s.fds fd = some .conn :=
  (Held.ofTable_tab rfl s.own).1 (h.sound.live t .conn fd ((own_thread ht).trans hsd))

theorem Sys.Inv.open_main (h : s.Inv cfg missed) (hm : s.main.newsd = some fd) :
    fdGet s.fds fd = some .conn :=
  (Held.ofTable_tab rfl s.own).1 (h.sound.live _ .conn fd ((own_main s).trans hm))

theorem Sys.Inv.threads_apart (h : s.Inv cfg missed) (ht : s.threads[t]? = some pc)
    (hsd : pc.sd = some fd) (ht' : s.threads[u]? = some pc') (hsd' : pc'.sd = some fd')
    (hne : t ≠ u) : s.peer fd ≠ s.peer fd' := by
  intro he
  have hfd := h.once fd fd' (h.open_thread ht hsd) (h.open_thread ht' hsd') he
  exact hne (h.sound.alone t u .conn fd ((own_thread ht).trans hsd)
    ((own_thread ht').trans (hsd'.trans (congrArg some hfd.symm))))

theorem Sys.Inv.main_apart (h : s.Inv cfg missed) (ht : s.threads[t]? = some pc)
    (hsd : pc.sd = some fd) (hm : s.main.newsd = some fd') : s.peer fd' ≠ s.peer fd := by
  intro he
  have hfd := h.once fd' fd (h.open_main hm) (h.open_thread ht hsd) he
  have halone := h.sound.alone t s.threads.length .conn fd ((own_thread ht).trans hsd)
    ((own_main s).trans (hm.trans (congrArg some hfd)))
  exact Nat.ne_of_lt (List.getElem?_eq_some_iff.1 ht).1 halone

/-- What a thread does with its socket concerns no other connection. -/
theorem Sys.Inv.thread_goto (h : s.Inv cfg missed) (ht : s.threads[t]? = some pc)
    (hsd : pc.sd = some sd) (hsound : s'.held.Sound) (hthreads : s'.threads = s.threads.set t pc')
    (hmain : s'.main = s.main ∧ s'.peer = s.peer ∧ s'.next = s.next ∧ s'.backlog = s.backlog)
    (hfds : ∀ fd, fdGet s'.fds fd = some .conn → fdGet s.fds fd = some .conn)
    (hsd' : ∀ fd, pc'.sd = some fd → fd = sd)
    (hrd : ∀ c, (s'.inp c).rd ≤ (s'.inp c).wr.length)
    (hother : ∀ c, c ≠ s.peer sd → s'.got c = s.got c ∧ s'.sent c = s.sent c)
    (hknows : pc'.Knows cfg (missed (s.peer sd)) (s'.got (s.peer sd)) (s'.sent (s.peer sd)))
    (hans : Answered cfg (missed (s.peer sd)) (s'.got (s.peer sd)) (s'.sent (s.peer sd))) :
    s'.Inv cfg missed := by
  obtain ⟨hm, hpeer, hnext, hback⟩ := hmain
  obtain ⟨hlt, hnot⟩ := h.listed sd (h.open_thread ht hsd)
  refine ⟨hsound, ?_, ?_, ?_, hrd, ?_, ?_, ?_⟩
  · intro fd fd' hfd hfd' he
    rw [hpeer] at he
    exact h.once fd fd' (hfds fd hfd) (hfds fd' hfd') he
  · intro fd hfd
    rw [hpeer, hnext, hback]
    exact h.listed fd (hfds fd hfd)
  · rw [hnext, hback]
    exact h.queue
  · intro c hc
    rw [hm, hpeer, hnext, hback] at hc
    have hne : c ≠ s.peer sd := by
      rcases hc with hb | hn | ⟨fd, hfd, rfl⟩
      · exact fun he => hnot (he ▸ hb)
      · omega
      · exact h.main_apart ht hsd hfd
    rw [(hother c hne).1, (hother c hne).2]
    exact h.fresh c hc
  · intro u pcu fd hu hfd
    rw [hpeer]
    rw [hthreads, List.getElem?_set] at hu
    by_cases he : t = u
    · have hlen : t < s.threads.length := (List.getElem?_eq_some_iff.1 ht).1
      rw [if_pos he, if_pos (he ▸ hlen)] at hu
      obtain rfl := Option.some.inj hu
      rw [hsd' fd hfd]
      exact hknows
    · rw [if_neg he] at hu
      have hne := h.threads_apart hu hfd ht hsd (Ne.symm he)
      rw [(hother _ hne).1, (hother _ hne).2]
      exact h.knows u pcu fd hu hfd
  · intro c
    by_cases hc : c = s.peer sd
    · rw [hc]
      exact hans
    · rw [(hother c hc).1, (hother c hc).2]
      exact h.answered c

theorem Sys.Inv.thread_quiet (h : s.Inv cfg missed) (ht : s.threads[t]? = some pc)
    (hsd : pc.sd = some sd) (hsound : s'.held.Sound) (hthreads : s'.threads = s.threads.set t pc')
    (hmain : s'.main = s.main ∧ s'.peer = s.peer ∧ s'.next = s.next ∧ s'.backlog = s.backlog)
    (hfds : ∀ fd, fdGet s'.fds fd = some .conn → fdGet s.fds fd = some .conn)
    (hsd' : ∀ fd, pc'.sd = some fd → fd = sd) (hio : s'.inp = s.inp ∧ s'.out = s.out)
    (hknows : ∀ got sent, pc.Knows cfg (missed (s.peer sd)) got sent →
      pc'.Knows cfg (missed (s.peer sd)) got sent) : s'.Inv cfg missed := by
  have hgot : ∀ c, s'.got c = s.got c := fun c => by rw [Sys.got, Sys.got, hio.1]
  have hsent : ∀ c, s'.sent c = s.sent c := fun c => by rw [Sys.sent, Sys.sent, hio.2]
  refine h.thread_goto ht hsd hsound hthreads hmain hfds hsd' (hio.1 ▸ h.rd)
    (fun c _ => ⟨hgot c, hsent c⟩) ?_ ?_
  · rw [hgot, hsent]
    exact hknows _ _ (h.knows t pc sd ht hsd)
  · rw [hgot, hsent]
    exact h.answered _

theorem Sys.Inv.ended (h : s.Inv cfg missed) (hm : m.ended = true) :
    (s.ended m).Inv cfg missed := by
  have hnew : m.newsd = none := by
    cases m <;> first | rfl | cases hm
  have hnone : ∀ fd, fdGet ([] : Fds Desc) fd ≠ some .conn := fun fd hfd => by cases hfd
  refine ⟨(change_ended s hm).sound h.sound, fun fd _ hfd => (hnone fd hfd).elim,
    fun fd hfd => (hnone fd hfd).elim, h.queue, h.rd, ?_, (fun _ _ _ ht => nomatch ht), h.answered⟩
  rintro c (hb | hn | ⟨fd, hfd, -⟩)
  · exact h.fresh c (.inl hb)
  · exact h.fresh c (.inr (.inl hn))
  · cases hnew.symm.trans hfd

theorem afterRead_knows (cfg : Cfg) (missed : Prop) (sd : Nat) (bs : Bytes) :
    (afterRead sd bs).Knows cfg missed bs [] := by
  unfold afterRead
  split
  · exact trivial
  · next u hu => exact ⟨hu, rfl⟩

theorem not_sd_exited (v : String) (sd fd : Nat) (h : (Pc.exited v).sd = some fd) : fd = sd := by
  cases h

theorem Acts.inv (ha : Acts cfg s t pc miss s' b lost) (ht : s.threads[t]? = some pc)
    (h : s.Inv cfg missed) (hmiss : ∀ sd, pc.sd = some sd → miss = true → missed (s.peer sd)) :
    s'.Inv cfg missed := by
  have hsound := (ha.change ht).sound h.sound
  cases ha with
  | idle => exact h
  | @alloc sd _ _ hsd hsd' _ hknows =>
    exact h.thread_quiet ht hsd hsound rfl ⟨rfl, rfl, rfl, rfl⟩ (fun _ hfd => hfd)
      (fun fd hfd => Option.some.inj (hfd.symm.trans hsd')) ⟨rfl, rfl⟩
      fun got sent => hknows _ got sent (hmiss sd hsd)
  | @goes sd _ _ hsd hsd' _ hknows =>
    exact h.thread_quiet ht hsd hsound rfl ⟨rfl, rfl, rfl, rfl⟩ (fun _ hfd => hfd)
      (fun fd hfd => Option.some.inj (hfd.symm.trans hsd')) ⟨rfl, rfl⟩
      fun got sent => hknows _ got sent (hmiss sd hsd)
  | @reads sd k bs st hpc hr =>
    subst hpc
    obtain ⟨hgot, hsent⟩ := h.knows t _ sd ht rfl
    obtain ⟨hwr, -, hrd, -, htake, -⟩ :=
      Stream.recv_spec (by decide) (h.rd (s.peer sd)) hr
    have hread : st.wr.take st.rd = bs := by
      rw [htake]
      exact congrArg (· ++ bs) hgot
    have hnew : Sys.got { s with inp := Function.update s.inp (s.peer sd) st } (s.peer sd) =
        bs := by
      simp only [Sys.got, Function.update_self, hread]
    refine h.thread_goto ht rfl hsound rfl ⟨rfl, rfl, rfl, rfl⟩ (fun _ hfd => hfd)
      (fun fd hfd => Option.some.inj (hfd.symm.trans (afterRead_sd sd bs))) ?_ ?_ ?_ (.inl hsent)
    · exact (Function.forall_update_iff s.inp fun _ (x : Stream) => x.rd ≤ x.wr.length).2
        ⟨hrd, fun c _ => h.rd c⟩
    · intro c hc
      refine ⟨?_, rfl⟩
      simp only [Sys.got, Sys.goto, Function.update_of_ne hc]
    · exact hnew.symm ▸ hsent.symm ▸ afterRead_knows cfg _ sd bs
  | @writes sd r found st bs hpc hst hbs =>
    subst hpc
    obtain ⟨hsent, u, hu, hans⟩ := h.knows t _ sd ht rfl
    have hnew : Sys.sent { s with out := Function.update s.out (s.peer sd) st } (s.peer sd) =
        bs := by
      simp only [Sys.sent, Function.update_self, hst]
      exact congrArg (· ++ bs) hsent
    refine h.thread_goto ht rfl hsound rfl ⟨rfl, rfl, rfl, rfl⟩ (fun _ hfd => hfd)
      (fun fd hfd => (Option.some.inj hfd).symm) h.rd ?_ trivial ?_
    · intro c hc
      refine ⟨rfl, ?_⟩
      simp only [Sys.sent, Sys.goto, Function.update_of_ne hc]
    · exact .inr ⟨u, r, hu, hans, hnew.symm ▸ hbs⟩
  | @closes sd found v hpc =>
    subst hpc
    have hsd : (Pc.close sd found).sd = some sd := rfl
    refine h.thread_quiet ht hsd hsound rfl ⟨rfl, rfl, rfl, rfl⟩ ?_ (not_sd_exited v sd)
      ⟨rfl, rfl⟩ fun _ _ _ => trivial
    intro fd hfd
    have hget : fdGet (fdClose s.fds sd) fd = some .conn := hfd
    rw [fdGet_close] at hget
    split at hget
    · cases hget
    · exact hget
  | fails sd hsd =>
    exact h.thread_quiet ht hsd hsound rfl ⟨rfl, rfl, rfl, rfl⟩ (fun _ hfd => hfd)
      (not_sd_exited _ sd) ⟨rfl, rfl⟩ fun _ _ _ => trivial
  | givesUp sd hsd =>
    exact h.thread_quiet ht hsd hsound rfl ⟨rfl, rfl, rfl, rfl⟩ (fun _ hfd => hfd)
      (not_sd_exited _ sd) ⟨rfl, rfl⟩ fun _ _ _ => trivial
  | ended hm => exact h.ended hm

theorem Sys.Inv.accepts (h : s.Inv cfg missed) (hsound : s'.held.Sound) (hb : s.backlog = c :: rest)
    (hs' : s' = { s with
      fds := fdInstall .conn s.fds
      peer := Function.update s.peer (fdLowest s.fds) c
      backlog := rest
      main := .create (fdLowest s.fds) }) : s'.Inv cfg missed := by
  subst hs'
  have hc : c ∈ s.backlog := hb ▸ List.mem_cons_self
  have hrest : ∀ d, d ∈ rest → d ∈ s.backlog := fun d hd => hb ▸ List.mem_cons_of_mem c hd
  have hnodup : c ∉ rest ∧ rest.Nodup := List.nodup_cons.1 (hb ▸ h.queue.1)
  have hpeer : ∀ fd, fdGet s.fds fd = some .conn →
      Function.update s.peer (fdLowest s.fds) c fd = s.peer fd := by
    intro fd hfd
    refine Function.update_of_ne ?_ _ _
    rintro rfl
    cases (fdGet_lowest s.fds).symm.trans hfd
  -- a descriptor is the new one, or it was open before
  have hcases : ∀ fd, fdGet (fdInstall .conn s.fds) fd = some .conn →
      fd = fdLowest s.fds ∨ fdGet s.fds fd = some .conn := by
    intro fd hfd
    rw [fdGet_install] at hfd
    split at hfd
    · next he => exact .inl he
    · exact .inr hfd
  refine ⟨hsound, ?_, ?_, ⟨hnodup.2, fun d hd => h.queue.2 d (hrest d hd)⟩, h.rd, ?_, ?_,
    h.answered⟩
  · intro fd fd' hfd hfd' he
    rcases hcases fd hfd with rfl | hold <;> rcases hcases fd' hfd' with rfl | hold'
    · rfl
    · simp only [Function.update_self, hpeer fd' hold'] at he
      exact ((h.listed fd' hold').2 (he ▸ hc)).elim
    · simp only [Function.update_self, hpeer fd hold] at he
      exact ((h.listed fd hold).2 (he ▸ hc)).elim
    · simp only [hpeer fd hold, hpeer fd' hold'] at he
      exact h.once fd fd' hold hold' he
  · intro fd hfd
    rcases hcases fd hfd with rfl | hold
    · simp only [Function.update_self]
      exact ⟨h.queue.2 c hc, hnodup.1⟩
    · simp only [hpeer fd hold]
      exact ⟨(h.listed fd hold).1, fun hd => (h.listed fd hold).2 (hrest _ hd)⟩
  · rintro d (hd | hn | ⟨fd, hfd, rfl⟩)
    · exact h.fresh d (.inl (hrest d hd))
    · exact h.fresh d (.inr (.inl hn))
    · obtain rfl : fdLowest s.fds = fd := Option.some.inj hfd
      simp only [Function.update_self]
      exact h.fresh c (.inl hc)
  · intro t pc fd ht hfd
    simp only [hpeer fd (h.open_thread ht hfd)]
    exact h.knows t pc fd ht hfd

theorem Sys.Inv.mainTo (h : s.Inv cfg missed) (hsound : Sys.held { s with main := m } |>.Sound)
    (hm : m.newsd = none) : Sys.Inv cfg missed { s with main := m } := by
  refine ⟨hsound, h.once, h.listed, h.queue, h.rd, ?_, h.knows, h.answered⟩
  rintro c (hb | hn | ⟨fd, hfd, -⟩)
  · exact h.fresh c (.inl hb)
  · exact h.fresh c (.inr (.inl hn))
  · cases hm.symm.trans hfd

theorem MainActs.inv (ha : MainActs s s' b) (h : s.Inv cfg missed) : s'.Inv cfg missed := by
  have hsound := ha.change.sound h.sound
  cases ha with
  | idle => exact h
  | accepts hm hb => exact h.accepts hsound hb rfl
  | @creates newsd hm =>
    refine ⟨hsound, h.once, h.listed, h.queue, h.rd, ?_, ?_, h.answered⟩
    · rintro c (hb | hn | ⟨fd, hfd, -⟩)
      · exact h.fresh c (.inl hb)
      · exact h.fresh c (.inr (.inl hn))
      · cases hfd
    · intro t pc fd ht hfd
      rcases List.getElem?_append ▸ ht with ht
      split at ht
      · exact h.knows t pc fd ht hfd
      · obtain rfl := List.mem_singleton.1 (List.mem_of_getElem? ht)
        obtain rfl : newsd = fd := Option.some.inj hfd
        exact h.fresh _ (.inr (.inr ⟨newsd, by rw [hm]; rfl, rfl⟩))
  | drops hm => exact h.mainTo hsound rfl
  | detaches hm => exact h.mainTo hsound rfl
  | ended hm => exact h.ended hm

theorem Sys.Inv.connect (h : s.Inv cfg missed) : (s.step cfg .connect).Inv cfg missed := by
  refine ⟨h.sound, h.once, ?_, ⟨?_, ?_⟩, h.rd, ?_, h.knows, h.answered⟩
  · intro fd hfd
    obtain ⟨hlt, hnot⟩ := h.listed fd hfd
    refine ⟨Nat.lt_succ_of_lt hlt, fun hmem => ?_⟩
    rcases List.mem_append.1 hmem with hb | hn
    · exact hnot hb
    · exact Nat.ne_of_lt hlt (List.mem_singleton.1 hn)
  · refine List.nodup_append.2 ⟨h.queue.1, List.nodup_singleton _, ?_⟩
    intro c hc d hd
    obtain rfl := List.mem_singleton.1 hd
    exact Nat.ne_of_lt (h.queue.2 c hc)
  · intro c hc
    rcases List.mem_append.1 hc with hb | hn
    · exact Nat.lt_succ_of_lt (h.queue.2 c hb)
    · exact List.mem_singleton.1 hn ▸ Nat.lt_succ_self _
  · rintro c (hc | hn | hm)
    · rcases List.mem_append.1 hc with hb | hn
      · exact h.fresh c (.inl hb)
      · exact h.fresh c (.inr (.inl (List.mem_singleton.1 hn ▸ Nat.le_refl _)))
    · exact h.fresh c (.inr (.inl (Nat.le_of_succ_le hn)))
    · exact h.fresh c (.inr (.inr hm))

theorem Sys.Inv.client (h : s.Inv cfg missed) (hrd : st.rd = (s.inp c).rd)
    (hwr : (s.inp c).wr <+: st.wr) :
    Sys.Inv cfg missed { s with inp := Function.update s.inp c st } := by
  have hgot : ∀ d, Sys.got { s with inp := Function.update s.inp c st } d = s.got d := by
    intro d
    by_cases hd : d = c
    · obtain ⟨tail, htail⟩ := hwr
      simp only [hd, Sys.got, Function.update_self]
      rw [hrd, ← htail, List.take_append_of_le_length (h.rd c)]
    · simp only [Sys.got, Function.update_of_ne hd]
  refine ⟨h.sound, h.once, h.listed, h.queue, ?_, ?_, ?_, ?_⟩
  · refine (Function.forall_update_iff s.inp fun _ (x : Stream) => x.rd ≤ x.wr.length).2
      ⟨?_, fun d _ => h.rd d⟩
    rw [hrd]
    exact (h.rd c).trans hwr.length_le
  · intro d hd
    rw [hgot]
    exact h.fresh d hd
  · intro t pc fd ht hfd
    rw [hgot]
    exact h.knows t pc fd ht hfd
  · intro d
    rw [hgot]
    exact h.answered d

theorem Sys.Inv.step (h : s.Inv cfg missed) (e : Ev)
    (hmiss : ∀ c, lookupFails c s e = true → missed c) : (s.step cfg e).Inv cfg missed := by
  cases e with
  | main a => exact (mainCall_acts s a).inv h
  | thread t a =>
    simp only [Sys.step]
    split
    case h_1 => exact h
    case h_2 pc ht =>
      refine (thread_acts cfg s t a pc).inv ht h fun sd hsd hm => hmiss _ ?_
      rw [lookupFails, ht, Option.map_some, Option.getD_some, hm, hsd, Option.map_some]
      exact beq_self_eq_true _
  | connect => exact h.connect
  | clientSend c bs =>
    simp only [Sys.step]
    split
    · exact h
    · exact h.client rfl (List.prefix_append ..)
  | clientShut c => exact h.client rfl (List.prefix_refl _)

end

theorem start_inv (cfg : Cfg) (missed : Nat → Prop) : Sys.start.Inv cfg missed where
  sound := start_sound.held
  once fd fd' hfd := by
    match fd with
    | 0 | 1 | 2 | 3 => cases hfd
    | _ + 4 => cases hfd
  listed fd hfd := by
    match fd with
    | 0 | 1 | 2 | 3 => cases hfd
    | _ + 4 => cases hfd
  queue := ⟨List.nodup_nil, nofun⟩
  rd _ := Nat.le_refl 0
  fresh _ _ := ⟨rfl, rfl⟩
  knows t pc fd ht := by cases ht
  answered _ := .inl rfl

/-- However the threads interleave, and whatever the clients do and fails: a client is sent nothing
but the answer to what it has asked itself, from the beginning and at most once. It is told that
there is no information only if there is none, or if the lookup failed. -/
theorem mt_sfingr_answers (cfg : Cfg) (es : List Ev) (c : Nat) :
    let s := run (Sys.step cfg) .start es
    s.sent c = [] ∨ ∃ u r, terminated (s.got c) = some u ∧
      (r = unableReply cfg.prg u ∧
          (cfg.getpwnam u = none ∨ saw (lookupFails c) (Sys.step cfg) .start es = true) ∨
        ∃ p, cfg.getpwnam u = some p ∧ r = infoReply p) ∧
      s.sent c <+: r.bytes := by
  intro s
  cases hsaw : saw (lookupFails c) (Sys.step cfg) .start es with
  | true =>
    have hinv : s.Inv cfg fun _ => true = true := run_invariant (Sys.Inv cfg fun _ => true = true)
      (fun _ e hs => hs.step e fun _ _ => rfl) (start_inv cfg _) es
    exact hinv.answered c
  | false =>
    -- only the lookups of other clients fail
    have hinv : s.Inv cfg (· ≠ c) := run_invariant_of (p := lookupFails c) (Sys.Inv cfg (· ≠ c))
      (fun t e he hs => hs.step e fun d hd hdc => by rw [hdc, he] at hd; cases hd)
      (start_inv cfg _) hsaw
    rcases hinv.answered c with hnil | ⟨u, r, hu, hans, hsent⟩
    · exact .inl hnil
    · refine .inr ⟨u, r, hu, ?_, hsent⟩
      rcases hans with ⟨hr, hnone | hne⟩ | hfound
      · exact .inl ⟨hr, .inl hnone⟩
      · exact (hne rfl).elim
      · exact .inr hfound

end SysPrg.MtFinger
