import SysPrg.Counting

namespace SysPrg.Counting
set_option autoImplicit true

def leaks (msg : π → Bytes) (s : Sys π) : Ev π → Bool
  | .svr _ => false
  | .cli p a =>
    match s.cli p, a with
    | .mqOpen got, .fail _ => got
    | .mqOpen got, .done _ => got && s.mq.isNone
    | .mqSend got, .fail _ => got
    | .mqSend got, .done _ => got && decide (mqMsgsize < (msg p).length)
    | _, _ => false

/-- A client whose `sem_wait` failed sends its message all the same. -/
def forges (msg : π → Bytes) (s : Sys π) : Ev π → Bool
  | .svr _ => false
  | .cli p a =>
    match s.cli p, a with
    | .mqSend got, .done _ =>
      !got && !decide (mqMsgsize < (msg p).length) && s.mq.isSome &&
        decide (s.queue.length < mqMaxmsg)
    | _, _ => false

def postFails (s : Sys π) : Ev π → Bool
  | .cli _ _ => false
  | .svr a =>
    match s.svr, a with
    | .post, .fail _ => true
    | .post, .done _ => decide (semValueMax ≤ s.sem.getD 0)
    | _, _ => false

def delta (msg : π → Bytes) (s : Sys π) (e : Ev π) : Int :=
  (forges msg s e).toNat - (leaks msg s e).toNat

def ServerPc.starting : ServerPc → Bool
  | .mqUnlink | .semUnlink | .semOpen => true
  | _ => false

def ClientPc.outside : ClientPc → Bool
  | .semOpen | .exited _ _ => true
  | _ => false

/-- Only the server makes the semaphore, before it makes the queue, and until then no client gets
anywhere. -/
structure Sys.Sound (s : Sys π) : Prop where
  starting : s.svr.starting = true → s.sem = none ∧ s.mq = none
  outside : s.sem = none → ∀ p, (s.cli p).outside = true
  unused : s.sem = none → s.queue = [] ∧ s.svr.busy = false
  handle : ∀ v, s.sem = some v → s.handle = true

structure Quiet (s s' : Sys π) : Prop where
  sem : s'.sem = s.sem
  queue : s'.queue = s.queue
  busy : s'.svr.busy = s.svr.busy
  starting : s'.svr.starting = false
  handle : s.handle = true → s'.handle = true
  cli : s'.cli = s.cli

/-- The semaphore after a `sem_post`, which does not go beyond `SEM_VALUE_MAX`. -/
def posted (v : Nat) : Nat := if v < semValueMax then v + 1 else v

/-- What a call of the server does once it is set up: nothing to the slots, take a request from the
queue, or post the semaphore. -/
inductive Serves (s : Sys π) : Answer → Sys π → Prop where
  | quiet (h : Quiet s s') : Serves s a s'
  | takes (hq : s.mq = some (m :: ms)) (hp : s.svr = .receive) :
      Serves s a { s with svr := .getvalue, mq := some ms }
  | posts (hp : s.svr = .post) (k : Nat) :
      Serves s (.done k) { s with svr := .mqCreate, sem := s.sem.map posted }
  | drops (hp : s.svr = .post) (e : Errno) : Serves s (.fail e) { s with svr := .mqCreate }

theorem Serves.goto {s : Sys π} {svr : ServerPc} (hb : svr.busy = s.svr.busy)
    (hs : svr.starting = false) : Serves s a { s with svr := svr } :=
  .quiet ⟨rfl, rfl, hb, hs, fun h => h, rfl⟩

theorem server_serves {s : Sys π} (hs : s.svr.starting = false)
    (hh : s.svr.busy = true → s.handle = true) (max : Nat) (a : Answer) :
    Serves s a (s.server max a) := by
  have hstay : Serves s a s := .quiet ⟨rfl, rfl, rfl, hs, fun h => h, rfl⟩
  obtain ⟨sem, mq, handle, svr, cli⟩ := s
  cases svr with
  | mqUnlink | semUnlink | semOpen => cases hs
  | semReopen =>
    cases a with
    | fail e => exact .goto rfl rfl
    | done k =>
      cases sem with
      | none => exact .goto rfl rfl
      | some v => exact .quiet ⟨rfl, rfl, rfl, rfl, fun _ => rfl, rfl⟩
  | mqCreate =>
    cases a with
    | fail e => cases e <;> exact .goto rfl rfl
    | done k =>
      cases mq with
      | none => exact .quiet ⟨rfl, rfl, rfl, rfl, fun h => h, rfl⟩
      | some ms => exact .goto rfl rfl
  | mqReopen =>
    cases a with
    | fail e => exact .goto rfl rfl
    | done k => cases mq <;> exact .goto rfl rfl
  | getattr mqd => cases mqd <;> cases a <;> exact .goto rfl rfl
  | calloc => cases a <;> exact .goto rfl rfl
  | receive =>
    cases a with
    | fail e => exact .goto rfl rfl
    | done k =>
      cases mq with
      | none => exact hstay
      | some ms =>
        cases ms with
        | nil => exact hstay
        | cons m ms => exact .takes rfl rfl
  | getvalue =>
    obtain rfl : handle = true := hh rfl
    exact .goto rfl rfl
  | sleep => exact .goto rfl rfl
  | post =>
    cases a with
    | fail e => exact .drops rfl e
    | done k => cases sem <;> exact .posts rfl k
  | exited | killed => exact hstay

theorem start_sound : (Sys.start : Sys π).Sound where
  starting _ := ⟨rfl, rfl⟩
  outside _ _ := rfl
  unused _ := ⟨rfl, rfl⟩
  handle _ h := by cases h

theorem Sys.Sound.busy {s : Sys π} (h : s.Sound) (hb : s.svr.busy = true) : s.handle = true := by
  cases hv : s.sem with
  | none =>
    rw [(h.unused hv).2] at hb
    cases hb
  | some v => exact h.handle v hv

theorem Sys.Sound.serves {s s' : Sys π} (h : s.Sound) (hs : Serves s a s') : s'.Sound := by
  cases hs with
  | quiet hq =>
    refine ⟨?_, ?_, ?_, ?_⟩
    · intro hstart
      rw [hq.starting] at hstart
      cases hstart
    · rw [hq.sem, hq.cli]
      exact h.outside
    · rw [hq.sem, hq.queue, hq.busy]
      exact h.unused
    · intro v hv
      exact hq.handle (h.handle v (hq.sem ▸ hv))
  | @takes a m ms hm hp =>
    have hsome : s.sem ≠ none := by
      intro hnone
      have hq := (h.unused hnone).1
      simp only [Sys.queue, hm] at hq
      cases hq
    exact ⟨(by intro hst; cases hst), h.outside, fun hnone => (hsome hnone).elim, h.handle⟩
  | posts hp k =>
    refine ⟨(by intro hst; cases hst), ?_, ?_, ?_⟩
    · intro hnone
      exact h.outside (Option.map_eq_none_iff.1 hnone)
    · intro hnone
      exact ⟨(h.unused (Option.map_eq_none_iff.1 hnone)).1, rfl⟩
    · intro v hv
      obtain ⟨v₀, hv₀, -⟩ := Option.map_eq_some_iff.1 hv
      exact h.handle v₀ hv₀
  | drops hp e =>
    exact ⟨(by intro hst; cases hst), h.outside, fun hnone => ⟨(h.unused hnone).1, rfl⟩, h.handle⟩

theorem Sys.Sound.sets_up {s : Sys π} (h : s.Sound) (hs : s.svr.starting = true) (max : Nat)
    (a : Answer) : (s.server max a).Sound ∧ (s.server max a).cli = s.cli ∧
      (s.server max a).queue = [] ∧ (s.server max a).svr.busy = false ∧
      ∀ v, (s.server max a).sem = some v → v = max ∧ max ≤ semValueMax := by
  obtain ⟨hnone, hmq⟩ := h.starting hs
  have hout := h.outside hnone
  obtain ⟨sem, mq, handle, svr, cli⟩ := s
  cases hnone
  cases hmq
  have hsound {svr' : ServerPc} (hb : svr'.busy = false) (handle' : Bool) :
      (⟨none, none, handle', svr', cli⟩ : Sys π).Sound :=
    ⟨fun _ => ⟨rfl, rfl⟩, fun _ => hout, fun _ => ⟨rfl, hb⟩, fun _ hv => by cases hv⟩
  have hno {v : Nat} (hv : (none : Option Nat) = some v) : v = max ∧ max ≤ semValueMax := by
    cases hv
  cases svr with
  | mqUnlink => exact ⟨hsound rfl handle, rfl, rfl, rfl, fun _ => hno⟩
  | semUnlink => exact ⟨hsound rfl handle, rfl, rfl, rfl, fun _ => hno⟩
  | semOpen =>
    cases a with
    | fail e => cases e <;> exact ⟨hsound rfl _, rfl, rfl, rfl, fun _ => hno⟩
    | done k =>
      simp only [Sys.server]
      split
      · exact ⟨hsound rfl _, rfl, rfl, rfl, fun _ => hno⟩
      · next hmax =>
        exact ⟨⟨(by intro hst; cases hst), (by intro hn; cases hn), (by intro hn; cases hn),
          fun _ _ => rfl⟩, rfl, rfl, rfl,
          fun v hv => ⟨(Option.some.inj hv).symm, Nat.not_lt.1 hmax⟩⟩
  | _ => cases hs

theorem client_of_none [DecidableEq π] {s : Sys π} (h : s.Sound) (hnone : s.sem = none)
    (msg : π → Bytes) (p : π) (a : Answer) :
    ∃ cli, s.client msg p a = { s with cli := cli } ∧ ∀ q, (cli q).outside = true := by
  have hout := h.outside hnone
  have hp := hout p
  cases hpc : s.cli p with
  | semOpen =>
    refine ⟨Function.update s.cli p (.exited (some "sem_open() failed") 1), ?_, ?_⟩
    rotate_left
    · exact (Function.forall_update_iff s.cli fun _ pc => pc.outside = true).2
        ⟨rfl, fun q _ => hout q⟩
    cases a with
    | fail e => simp only [Sys.client, hpc, Sys.goto]
    | done k => simp only [Sys.client, hpc, hnone, Sys.goto]
  | exited err status =>
    refine ⟨s.cli, ?_, hout⟩
    simp only [Sys.client, hpc]
  | semWait | mqOpen | mqSend =>
    rw [hpc] at hp
    cases hp

theorem client_keeps [DecidableEq π] {s : Sys π} (hv : s.sem = some v) (msg : π → Bytes) (p : π)
    (a : Answer) : (∃ v', (s.client msg p a).sem = some v') ∧
      (s.client msg p a).svr = s.svr ∧ (s.client msg p a).handle = s.handle := by
  unfold Sys.client
  repeat' split
  all_goals first
    | exact ⟨⟨v, hv⟩, rfl, rfl⟩
    | exact ⟨⟨_, rfl⟩, rfl, rfl⟩

theorem Sys.Sound.client [DecidableEq π] {s : Sys π} (h : s.Sound) (msg : π → Bytes) (p : π)
    (a : Answer) : (s.client msg p a).Sound := by
  cases hv : s.sem with
  | none =>
    obtain ⟨cli, hs, hout⟩ := client_of_none h hv msg p a
    rw [hs]
    exact ⟨h.starting, fun _ => hout, h.unused, h.handle⟩
  | some v =>
    obtain ⟨⟨v', hv'⟩, hsvr, hhandle⟩ := client_keeps hv msg p a
    refine ⟨?_, ?_, ?_, ?_⟩
    · intro hst
      rw [hsvr] at hst
      rw [(h.starting hst).1] at hv
      cases hv
    · intro hnone
      rw [hv'] at hnone
      cases hnone
    · intro hnone
      rw [hv'] at hnone
      cases hnone
    · intro _ _
      rw [hhandle]
      exact h.handle v hv

theorem Sys.Sound.step [DecidableEq π] {s : Sys π} (h : s.Sound) (max : Nat) (msg : π → Bytes)
    (e : Ev π) : (s.step max msg e).Sound := by
  cases e with
  | cli p a => exact h.client msg p a
  | svr a =>
    cases hs : s.svr.starting with
    | true => exact (h.sets_up hs max a).1
    | false => exact h.serves (server_serves hs h.busy max a)

/-- Only an admitted client leaks a slot, and only one that was not admitted forges one. -/
theorem delta_eq_zero_iff (msg : π → Bytes) (s : Sys π) (e : Ev π) :
    delta msg s e = 0 ↔ (leaks msg s e || forges msg s e) = false := by
  have hboth : leaks msg s e = true → forges msg s e = false := by
    intro hl
    cases e with
    | svr a => rfl
    | cli p a =>
      simp only [leaks] at hl
      simp only [forges]
      split at hl
      · simp_all
      · simp_all
      · simp_all
      · simp_all
      · cases hl
  unfold delta
  cases hl : leaks msg s e with
  | true =>
    rw [hboth hl]
    decide
  | false => cases forges msg s e <;> decide

theorem delta_of_none {s : Sys π} (h : s.Sound) (hnone : s.sem = none) (msg : π → Bytes)
    (e : Ev π) : (leaks msg s e || forges msg s e) = false := by
  cases e with
  | svr a => rfl
  | cli p a =>
    have hp := h.outside hnone p
    cases hpc : s.cli p with
    | semOpen | exited => simp only [leaks, forges, hpc, Bool.or_self]
    | semWait | mqOpen | mqSend =>
      rw [hpc] at hp
      cases hp

theorem Serves.sem_none {s s' : Sys π} (h : Serves s a s') (hnone : s.sem = none) :
    s'.sem = none := by
  cases h with
  | quiet hq => exact hq.sem.trans hnone
  | takes | drops => exact hnone
  | posts => exact Option.map_eq_none_iff.2 hnone

theorem Serves.sem_some {s s' : Sys π} (h : Serves s a s') (hv : s.sem = some v) :
    ∃ v', s'.sem = some v' := by
  cases h with
  | quiet hq => exact ⟨v, hq.sem.trans hv⟩
  | takes | drops => exact ⟨v, hv⟩
  | posts => exact ⟨posted v, Option.map_eq_some_iff.2 ⟨v, hv, rfl⟩⟩

section
variable [Fintype π] {s : Sys π} {p : π}

def Sys.slots (s : Sys π) : Slots π :=
  ⟨s.sem.getD 0, s.admitted, s.queue.length, s.svr.busy.toNat⟩

theorem mem_admitted : p ∈ s.admitted ↔ (s.cli p).admitted = true := by
  rw [Sys.admitted, Finset.mem_filter]
  exact ⟨fun h => h.2, fun h => ⟨Finset.mem_univ p, h⟩⟩

theorem admitted_of_outside (h : ∀ q, (s.cli q).outside = true) : s.admitted = ∅ := by
  apply Finset.eq_empty_of_forall_notMem
  intro q hq
  have hadm := mem_admitted.1 hq
  have hout := h q
  cases hpc : s.cli q with
  | semOpen | semWait | exited =>
    rw [hpc] at hadm
    cases hadm
  | mqOpen | mqSend =>
    rw [hpc] at hout
    cases hout

variable [DecidableEq π]

theorem goto_admitted (s : Sys π) (p : π) (pc : ClientPc) :
    (s.goto p pc).admitted =
      if pc.admitted = true then insert p s.admitted else s.admitted.erase p :=
  filter_update ClientPc.admitted s.cli p pc

theorem goto_slots_stay {pc : ClientPc} (h : pc.admitted = (s.cli p).admitted) :
    (s.goto p pc).slots = s.slots := by
  have hset : (s.goto p pc).admitted = s.admitted := by
    rw [goto_admitted]
    split
    · next hp => exact Finset.insert_eq_of_mem (mem_admitted.2 (h ▸ hp))
    · next hp => exact Finset.erase_eq_of_notMem (fun hm => hp (h ▸ mem_admitted.1 hm))
  simp only [Sys.slots, hset]
  rfl

theorem move_goto {pc : ClientPc} (h : pc.admitted = (s.cli p).admitted) :
    Slots.Move s.slots 0 (s.goto p pc).slots := by
  rw [goto_slots_stay h]
  exact .stay _

theorem move_quit {pc : ClientPc} (hp : (s.cli p).admitted = got) (h : pc.admitted = false) :
    Slots.Move s.slots (-got.toNat) (s.goto p pc).slots := by
  cases got with
  | false => exact move_goto (h.trans hp.symm)
  | true =>
    have hset : (s.goto p pc).admitted = s.admitted.erase p := by
      rw [goto_admitted, if_neg (by rw [h]; decide)]
    simp only [Sys.slots, hset]
    exact .lose (mem_admitted.2 hp)

theorem move_take {v : Nat} (hv : s.sem = some (v + 1)) (hp : (s.cli p).admitted = false) :
    Slots.Move s.slots 0 (Sys.goto { s with sem := some v } p (.mqOpen true)).slots := by
  have hset : (Sys.goto { s with sem := some v } p (.mqOpen true)).admitted =
      insert p s.admitted := goto_admitted { s with sem := some v } p (.mqOpen true)
  have hnot : p ∉ s.admitted := fun hm => by
    rw [mem_admitted.1 hm] at hp
    cases hp
  simp only [Sys.slots, hset, hv]
  exact .take hnot

theorem move_send {ms : List Bytes} (hms : s.mq = some ms) (hp : (s.cli p).admitted = got)
    (m : Bytes) : Slots.Move s.slots (!got).toNat
      (Sys.goto { s with mq := some (ms ++ [m]) } p (.exited none 0)).slots := by
  have hset : (Sys.goto { s with mq := some (ms ++ [m]) } p (.exited none 0)).admitted =
      s.admitted.erase p := goto_admitted { s with mq := some (ms ++ [m]) } p (.exited none 0)
  have hlen : (Sys.goto { s with mq := some (ms ++ [m]) } p (.exited none 0)).queue.length =
      s.queue.length + 1 := by
    simp only [Sys.queue, Sys.goto, hms, Option.getD_some, List.length_append,
      List.length_singleton]
  simp only [Sys.slots, hset, hlen]
  cases got with
  | true => exact .hand (mem_admitted.2 hp)
  | false =>
    rw [Finset.erase_eq_of_notMem (fun hm => by rw [mem_admitted.1 hm] at hp; cases hp)]
    exact .forge _ _

theorem client_open_move (msg : π → Bytes) (hpc : s.cli p = .mqOpen got) (a : Answer) :
    Slots.Move s.slots (delta msg s (.cli p a)) (s.client msg p a).slots := by
  have hp : (s.cli p).admitted = got := hpc ▸ rfl
  have hquit := move_quit hp (show (ClientPc.exited (some "mq_open failed") 1).admitted = false
    from rfl)
  rw [← Int.zero_sub] at hquit
  cases a with
  | fail e =>
    simp only [delta, forges, leaks, Sys.client, hpc]
    exact hquit
  | done k =>
    cases hq : s.mq with
    | none =>
      simp only [delta, forges, leaks, Sys.client, hpc, hq, Option.isNone_none, Bool.and_true]
      exact hquit
    | some ms =>
      simp only [delta, forges, leaks, Sys.client, hpc, hq, Option.isNone_some, Bool.and_false]
      exact move_goto hp.symm

theorem client_send_move (msg : π → Bytes) (hpc : s.cli p = .mqSend got) (a : Answer) :
    Slots.Move s.slots (delta msg s (.cli p a)) (s.client msg p a).slots := by
  have hp : (s.cli p).admitted = got := hpc ▸ rfl
  have hquit := move_quit hp
    (show (ClientPc.exited (some "client: mq_send() failed") 1).admitted = false from rfl)
  rw [← Int.zero_sub] at hquit
  cases a with
  | fail e =>
    simp only [delta, forges, leaks, Sys.client, hpc]
    exact hquit
  | done k =>
    simp only [delta, forges, leaks, Sys.client, hpc]
    by_cases hlen : mqMsgsize < (msg p).length
    · simp only [if_pos hlen, decide_eq_true hlen, Bool.and_true, Bool.not_true, Bool.and_false,
        Bool.false_and]
      exact hquit
    · simp only [if_neg hlen, decide_eq_false hlen, Bool.and_false, Bool.not_false, Bool.and_true]
      cases hq : s.mq with
      | none =>
        simp only [Option.isSome_none, Bool.and_false, Bool.false_and]
        exact .stay _
      | some ms =>
        simp only [Sys.queue, hq, Option.isSome_some, Bool.and_true, Option.getD_some]
        by_cases hfull : ms.length < mqMaxmsg
        · simp only [if_pos hfull, decide_eq_true hfull, Bool.and_true]
          have hsend := move_send hq hp (msg p)
          rwa [← Int.sub_zero ((!got).toNat : Int)] at hsend
        · simp only [if_neg hfull, decide_eq_false hfull, Bool.and_false]
          exact .stay _

theorem client_move (msg : π → Bytes) (s : Sys π) (p : π) (a : Answer) :
    Slots.Move s.slots (delta msg s (.cli p a)) (s.client msg p a).slots := by
  cases hpc : s.cli p with
  | semOpen =>
    simp only [delta, forges, leaks, Sys.client, hpc]
    cases a with
    | fail e => exact move_goto (hpc ▸ rfl)
    | done k =>
      cases s.sem with
      | none => exact move_goto (hpc ▸ rfl)
      | some v => exact move_goto (hpc ▸ rfl)
  | semWait =>
    simp only [delta, forges, leaks, Sys.client, hpc]
    cases a with
    | fail e => exact move_goto (hpc ▸ rfl)
    | done k =>
      cases hv : s.sem with
      | none => exact .stay _
      | some v =>
        cases v with
        | zero => exact .stay _
        | succ v => exact move_take hv (hpc ▸ rfl)
  | mqOpen got => exact client_open_move msg hpc a
  | mqSend got => exact client_send_move msg hpc a
  | exited err status =>
    simp only [delta, forges, leaks, Sys.client, hpc]
    exact .stay _

theorem Serves.move {s s' : Sys π} (h : Serves s a s') (hv : s.sem = some v)
    (hpost : postFails s (.svr a) = false) : Slots.Move s.slots 0 s'.slots := by
  cases h with
  | quiet hq =>
    have hset : s'.admitted = s.admitted := by rw [Sys.admitted, Sys.admitted, hq.cli]
    have heq : s'.slots = s.slots := by simp only [Sys.slots, hq.sem, hset, hq.queue, hq.busy]
    rw [heq]
    exact .stay _
  | takes hm hp =>
    simp only [Sys.slots, Sys.queue, hm, hp]
    exact .start _ _
  | posts hp k =>
    simp only [postFails, hp, hv, Option.getD_some, decide_eq_false_iff_not, Nat.not_le] at hpost
    simp only [Sys.slots, hv, hp, Option.map_some, posted, if_pos hpost]
    exact .finish _ _
  | drops hp e =>
    simp only [postFails, hp] at hpost
    cases hpost

theorem step_move (h : s.Sound) (hv : s.sem = some v) (max : Nat) (msg : π → Bytes) {e : Ev π}
    (he : postFails s e = false) :
    (∃ v', (s.step max msg e).sem = some v') ∧
      Slots.Move s.slots (delta msg s e) (s.step max msg e).slots := by
  cases e with
  | cli p a => exact ⟨(client_keeps hv msg p a).1, client_move msg s p a⟩
  | svr a =>
    have hs : s.svr.starting = false := by
      rw [← Bool.not_eq_true]
      intro hst
      rw [(h.starting hst).1] at hv
      cases hv
    have hserves := server_serves hs h.busy max a
    exact ⟨hserves.sem_some hv, hserves.move hv he⟩

theorem step_of_none (h : s.Sound) (hnone : s.sem = none) {max : Nat} {msg : π → Bytes} {e : Ev π}
    (hv : (s.step max msg e).sem = some v) :
    max ≤ semValueMax ∧ (s.step max msg e).slots.total = max := by
  cases e with
  | cli p a =>
    obtain ⟨cli, hs, -⟩ := client_of_none h hnone msg p a
    rw [Sys.step, hs] at hv
    cases hnone.symm.trans hv
  | svr a =>
    cases hst : s.svr.starting with
    | false => cases ((server_serves hst h.busy max a).sem_none hnone).symm.trans hv
    | true =>
      obtain ⟨-, hcli, hqueue, hbusy, hmade⟩ := h.sets_up hst max a
      obtain ⟨rfl, hmax⟩ := hmade v hv
      have hadm : (s.server v a).admitted = ∅ := by
        apply admitted_of_outside
        rw [hcli]
        exact h.outside hnone
      refine ⟨hmax, ?_⟩
      simp only [Sys.step] at hv ⊢
      simp only [Slots.total, Sys.slots, hv, hadm, hqueue, hbusy, Option.getD_some,
        Finset.card_empty, List.length_nil, Bool.toNat_false, Nat.add_zero]

end

end SysPrg.Counting
