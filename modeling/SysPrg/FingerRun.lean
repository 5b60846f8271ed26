import SysPrg.Finger

namespace SysPrg.Finger
set_option autoImplicit true

theorem chunk_eq_whole_iff (k count : Nat) (h : w <+: x) : chunk k count w = x ↔
    w.length = x.length ∧ x.length ≤ k + 1 ∧ x.length ≤ count := by
  constructor
  · intro hx
    have hlen := congrArg List.length hx
    rw [chunk_length] at hlen
    have hle := h.length_le
    omega
  · rintro ⟨hlen, hk, hcount⟩
    rw [h.eq_of_length hlen, chunk, List.take_of_length_le (by omega)]

/-- The user name gets its terminator as long as it does not fill the buffer. -/
theorem terminated_eq (hbuf : buf.length = 32) (hlen : bs.length ≤ 32) (h0 : (0 : UInt8) ∉ bs) :
    terminated buf bs = if bs.length < 32 then some ⟨bs, h0⟩ else none := by
  have hput : store buf 0 bs = some (bs ++ buf.drop bs.length) :=
    store_over [] buf (hbuf ▸ hlen)
  simp only [terminated, hput, Option.bind_eq_bind, Option.bind_some]
  split
  · next hlt =>
    have hroom : [(0 : UInt8)].length ≤ (buf.drop bs.length).length := by
      rw [List.length_drop, List.length_singleton]
      omega
    have hend := store_over bs (buf.drop bs.length) hroom
    rw [List.drop_drop, List.length_singleton] at hend
    have hstr := strAt_append [] h0 (buf.drop (bs.length + 1))
    simp only [List.nil_append, List.length_nil] at hstr
    rw [hend, Option.bind_some, List.singleton_append, hstr]
    exact congrArg some (CString.ofBuffer_bytes ⟨bs, h0⟩)
  · next hge =>
    have hfull : ¬ bs.length + [(0 : UInt8)].length ≤ (bs ++ buf.drop bs.length).length := by
      simp only [List.length_append, List.length_drop, List.length_singleton]
      omega
    rw [store, if_neg hfull]
    rfl

/-- The client finds the end of what it has read only if it happens to be there. -/
theorem printed_eq_iff (hbuf : buf.length = maxbuf) (hlen : bs.length ≤ maxbuf)
    (h0 : (0 : UInt8) ∉ bs) :
    (store buf 0 bs).bind (strAt · 0) = some bs ↔ buf[bs.length]? = some 0 := by
  have hput : store buf 0 bs = some (bs ++ buf.drop bs.length) :=
    store_over [] buf (hbuf ▸ hlen)
  rw [hput, Option.bind_some, strAt_append_iff h0, List.getElem?_drop, Nat.add_zero]

def ClientPc.asked : ClientPc → Bool
  | .malloc | .write => false
  | _ => true

def ClientPc.answered : ClientPc → Bool
  | .malloc | .write | .read => false
  | _ => true

def ServerPc.early : ServerPc → Bool
  | .mallocUsername | .read => true
  | _ => false

def ServerPc.composed : ServerPc → Bool
  | .mallocUsername | .read | .mallocReply _ => false
  | _ => true

/-- What is on its way is a part of the name, and of the reply. -/
structure Sys.Inv (cfg : Cfg) (s : Sys) : Prop where
  exact : s.Exact cfg
  request : s.c2s.wr <+: cfg.name.bytes
  unasked : s.cli.asked = false → s.c2s.wr = []
  unread : s.svr.early = true → s.c2s.rd = 0
  answer : ∀ r, s.reply = some r → s.s2c.wr <+: r.bytes
  unanswered : s.reply = none → s.s2c.wr = []
  uncomposed : s.svr.composed = false → s.reply = none
  writing : ∀ r status, s.svr = .write r status → s.reply = some r ∧ s.s2c.wr = []
  waiting : s.cli.answered = false → s.s2c.rd = 0 ∧ s.printed = none

theorem start_inv (cfg : Cfg) : Sys.start.Inv cfg where
  exact := ⟨fun _ h => (by cases h), fun h => (by cases h), fun _ _ h => (by cases h)⟩
  request := List.nil_prefix
  unasked _ := rfl
  unread _ := rfl
  answer _ h := by cases h
  unanswered _ := rfl
  uncomposed _ := rfl
  writing _ _ h := by cases h
  waiting _ := ⟨rfl, rfl⟩

section
variable {cfg : Cfg} {s : Sys}

theorem Sys.Inv.svrEnds (h : s.Inv cfg)
    (hpc : pc = .killed ∨ ∃ err status, pc = .exited err status) :
    (s.svrEnds pc).Inv cfg := by
  rcases hpc with rfl | ⟨err, status, rfl⟩
  all_goals
    exact ⟨⟨h.exact.name, nofun, h.exact.text⟩, h.request, h.unasked, nofun, h.answer,
      h.unanswered, nofun, nofun, h.waiting⟩

theorem Sys.Inv.svrExit (h : s.Inv cfg) (err : Option String) (status : Int) :
    (s.svrExit err status).Inv cfg :=
  h.svrEnds (.inr ⟨err, status, rfl⟩)

theorem Sys.Inv.cliEnds (h : s.Inv cfg)
    (hpc : pc = .killed ∨ ∃ err status, pc = .exited err status) :
    (s.cliEnds pc).Inv cfg := by
  rcases hpc with rfl | ⟨err, status, rfl⟩
  all_goals
    exact ⟨⟨h.exact.name, h.exact.inside, h.exact.text⟩, h.request, nofun, h.unread, h.answer,
      h.unanswered, h.uncomposed, h.writing, nofun⟩

theorem Sys.Inv.cliExit (h : s.Inv cfg) (err : Option String) (status : Int) :
    (s.cliExit err status).Inv cfg :=
  h.cliEnds (.inr ⟨err, status, rfl⟩)

theorem recv_chunk {st t : Stream} (h : st.recv k count = some (bs, t)) :
    bs = chunk k count st.inFlight := by
  simp only [Stream.recv] at h
  split at h
  · cases h
  · cases h
    rfl

theorem Sys.Inv.server_read (h : s.Inv cfg) (hs : s.svr = .read)
    (hrecv : s.c2s.recv k 32 = some (bs, st)) :
    ∃ h0 : (0 : UInt8) ∉ bs, s.server cfg (.done k) =
      (if bs.length < 32 then
        { s with c2s := st, username := some ⟨bs, h0⟩, svr := .mallocReply ⟨bs, h0⟩ }
      else { s with c2s := st, svr := .overrun }) ∧
      (bs.length < 32 ∧ bs = cfg.name.bytes ↔ cfg.name.bytes.length < 32 ∧
        s.c2s.inFlight.length = cfg.name.bytes.length ∧ cfg.name.bytes.length ≤ k + 1) := by
  have hflight : s.c2s.inFlight = s.c2s.wr := by
    rw [Stream.inFlight, h.unread (hs ▸ rfl), List.drop_zero]
  have hbs := recv_chunk hrecv
  have hpre : bs <+: cfg.name.bytes := by
    rw [hbs, hflight]
    exact (List.take_prefix _ _).trans h.request
  have h0 : (0 : UInt8) ∉ bs := fun hx => cfg.name.noNul (hpre.subset hx)
  have hlen : bs.length ≤ 32 := by
    rw [hbs, chunk_length]
    omega
  refine ⟨h0, ?_, ?_⟩
  · simp only [Sys.server, hs, hrecv, terminated_eq cfg.username_length hlen h0]
    by_cases hlt : bs.length < 32
    · simp only [if_pos hlt]
    · simp only [if_neg hlt]
  · rw [hflight]
    have hiff := chunk_eq_whole_iff k 32 h.request
    rw [← hflight, ← hbs] at hiff
    constructor
    · rintro ⟨hlt, heq⟩
      obtain ⟨hw, hk, -⟩ := hiff.1 heq
      rw [hflight] at hw
      exact ⟨heq ▸ hlt, hw, hk⟩
    · rintro ⟨hlt, hw, hk⟩
      have heq := hiff.2 ⟨hflight ▸ hw, hk, Nat.le_of_lt hlt⟩
      exact ⟨heq ▸ hlt, heq⟩

theorem Sys.Inv.server_read_exact (h : s.Inv cfg) (hs : s.svr = .read)
    (hrecv : s.c2s.recv k 32 = some (bs, st)) :
    (s.server cfg (.done k)).Exact cfg ↔ cut cfg s (.svr (.done k)) = false := by
  obtain ⟨h0, hstep, hiff⟩ := h.server_read hs hrecv
  simp only [cut, hs, hrecv, Option.isSome_some, Bool.true_and, Bool.not_eq_false',
    decide_eq_true_eq, ← hiff, hstep]
  by_cases hlt : bs.length < 32
  · rw [if_pos hlt]
    constructor
    · intro hex
      exact ⟨hlt, congrArg CString.bytes (hex.name ⟨bs, h0⟩ rfl)⟩
    · rintro ⟨-, rfl⟩
      exact ⟨fun u hu => (Option.some.inj hu).symm, fun hx => (by cases hx), h.exact.text⟩
  · rw [if_neg hlt]
    exact ⟨fun hex => (hex.inside rfl).elim, fun hx => (hlt hx.1).elim⟩

theorem Sys.Inv.client_read_exact (h : s.Inv cfg) (hc : s.cli = .read)
    (hrecv : s.s2c.recv k maxbuf = some (bs, st)) :
    (s.client cfg (.done k)).Exact cfg ↔ cut cfg s (.cli (.done k)) = false := by
  have hflight : s.s2c.inFlight = s.s2c.wr := by
    rw [Stream.inFlight, (h.waiting (hc ▸ rfl)).1, List.drop_zero]
  have hbs := recv_chunk hrecv
  have hlen : bs.length ≤ maxbuf := by
    rw [hbs, chunk_length]
    omega
  have hexact : (s.client cfg (.done k)).Exact cfg ↔
      (store cfg.reply 0 bs).bind (strAt · 0) = some bs ∧
        s.reply.map CString.bytes = some bs := by
    simp only [Sys.client, hc, hrecv]
    constructor
    · intro hex
      exact hex.text bs _ rfl
    · intro htext
      refine ⟨h.exact.name, h.exact.inside, ?_⟩
      intro bs' t hp
      cases hp
      exact htext
  rw [hexact]
  simp only [cut, hc, hrecv, Option.isSome_some, Bool.true_and]
  cases hr : s.reply with
  | none => exact ⟨fun hx => (by cases hx.2), fun hx => (by cases hx)⟩
  | some r =>
    have hanswer := h.answer r hr
    have hpre : bs <+: r.bytes := by
      rw [hbs, hflight]
      exact (List.take_prefix _ _).trans hanswer
    have h0 : (0 : UInt8) ∉ bs := fun hx => r.noNul (hpre.subset hx)
    have hiff := chunk_eq_whole_iff k maxbuf hanswer
    rw [← hflight, ← hbs] at hiff
    rw [printed_eq_iff cfg.reply_length hlen h0]
    simp only [Option.map_some, Option.some_inj, Bool.not_eq_false', decide_eq_true_eq]
    constructor
    · rintro ⟨hend, heq⟩
      obtain ⟨hw, hk, -⟩ := hiff.1 heq.symm
      rw [← heq] at hend
      have hlt := (List.getElem?_eq_some_iff.1 hend).1
      exact ⟨cfg.reply_length ▸ hlt, hw, hk, hend⟩
    · rintro ⟨hlt, hw, hk, hend⟩
      have heq := hiff.2 ⟨hw, hk, Nat.le_of_lt hlt⟩
      rw [heq]
      exact ⟨hend, rfl⟩

theorem Sys.Inv.server_reads (h : s.Inv cfg) (hs : s.svr = .read)
    (hrecv : s.c2s.recv k 32 = some (bs, st)) (he : cut cfg s (.svr (.done k)) = false) :
    (s.server cfg (.done k)).Inv cfg := by
  have hexact := (h.server_read_exact hs hrecv).2 he
  obtain ⟨h0, hstep, -⟩ := h.server_read hs hrecv
  rw [hstep] at hexact ⊢
  have hlt : bs.length < 32 := by
    by_contra hge
    rw [if_neg hge] at hexact
    exact hexact.inside rfl
  rw [if_pos hlt] at hexact ⊢
  have hwr := Stream.recv_wr hrecv
  exact ⟨hexact, hwr ▸ h.request, fun hx => hwr.trans (h.unasked hx), fun hx => (by cases hx),
    h.answer, h.unanswered, fun _ => h.uncomposed (hs ▸ rfl), fun _ _ hx => (by cases hx),
    h.waiting⟩

theorem Sys.Inv.server_composes (h : s.Inv cfg) (hs : s.svr = .mallocReply u) :
    (s.server cfg (.done k)).Inv cfg := by
  have hnone := h.uncomposed (hs ▸ rfl)
  have hwr := h.unanswered hnone
  have hprinted : s.printed = none := by
    cases hp : s.printed with
    | none => rfl
    | some p =>
      have htext := (h.exact.text p.1 p.2 hp).2
      rw [hnone] at htext
      cases htext
  simp only [Sys.server, hs]
  refine ⟨⟨h.exact.name, fun hx => (by cases hx), ?_⟩, h.request, h.unasked,
    fun hx => (by cases hx), ?_, fun hx => (by cases hx), fun hx => (by cases hx), ?_, h.waiting⟩
  · intro bs t hp
    cases hprinted.symm.trans hp
  · intro r _
    rw [hwr]
    exact List.nil_prefix
  · intro r status hx
    cases hx
    exact ⟨rfl, hwr⟩

theorem Sys.Inv.server_writes (h : s.Inv cfg) (hs : s.svr = .write r status) :
    (s.server cfg (.done k)).Inv cfg := by
  obtain ⟨hreply, hwr⟩ := h.writing r status hs
  simp only [Sys.server, hs]
  refine ⟨⟨h.exact.name, fun hx => (by cases hx), h.exact.text⟩, h.request, h.unasked,
    fun hx => (by cases hx), ?_, ?_, fun hx => (by cases hx), fun _ _ hx => (by cases hx),
    h.waiting⟩
  · intro r' hr'
    cases hreply.symm.trans hr'
    simp only [Stream.send, hwr, List.nil_append]
    exact List.take_prefix _ _
  · intro hnone
    cases hreply.symm.trans hnone

theorem Sys.Inv.server (h : s.Inv cfg) (a : Answer) (he : cut cfg s (.svr a) = false) :
    (s.server cfg a).Inv cfg := by
  cases hs : s.svr with
  | mallocUsername =>
    cases a with
    | fail e =>
      simp only [Sys.server, hs]
      exact h.svrExit _ _
    | done k =>
      simp only [Sys.server, hs]
      exact ⟨⟨h.exact.name, fun hx => (by cases hx), h.exact.text⟩, h.request, h.unasked,
        fun _ => h.unread (hs ▸ rfl), h.answer, h.unanswered, fun _ => h.uncomposed (hs ▸ rfl),
        fun _ _ hx => (by cases hx), h.waiting⟩
  | read =>
    cases a with
    | fail e =>
      simp only [Sys.server, hs]
      exact h.svrExit _ _
    | done k =>
      cases hrecv : s.c2s.recv k 32 with
      | none =>
        simp only [Sys.server, hs, hrecv]
        exact h
      | some p => exact h.server_reads hs hrecv he
  | mallocReply u =>
    cases a with
    | fail e =>
      simp only [Sys.server, hs]
      exact h.svrExit _ _
    | done k => exact h.server_composes hs
  | write r status =>
    cases a with
    | fail e =>
      cases e with
      | epipe =>
        simp only [Sys.server, hs]
        exact h.svrEnds (.inl rfl)
      | _ =>
        simp only [Sys.server, hs]
        exact h.svrExit _ _
    | done k => exact h.server_writes hs
  | close status =>
    simp only [Sys.server, hs]
    exact h.svrExit _ _
  | exited err status =>
    simp only [Sys.server, hs]
    exact h
  | killed =>
    simp only [Sys.server, hs]
    exact h
  | overrun => exact (h.exact.inside hs).elim

theorem Sys.Inv.client (h : s.Inv cfg) (a : Answer) (he : cut cfg s (.cli a) = false) :
    (s.client cfg a).Inv cfg := by
  cases hc : s.cli with
  | malloc =>
    cases a with
    | fail e =>
      simp only [Sys.client, hc]
      exact h.cliExit _ _
    | done k =>
      simp only [Sys.client, hc]
      exact ⟨⟨h.exact.name, h.exact.inside, h.exact.text⟩, h.request,
        fun _ => h.unasked (hc ▸ rfl), h.unread, h.answer, h.unanswered, h.uncomposed, h.writing,
        fun _ => h.waiting (hc ▸ rfl)⟩
  | write =>
    cases a with
    | fail e =>
      cases e with
      | epipe =>
        simp only [Sys.client, hc]
        exact h.cliEnds (.inl rfl)
      | _ =>
        simp only [Sys.client, hc]
        exact h.cliExit _ _
    | done k =>
      have hwr := h.unasked (hc ▸ rfl)
      simp only [Sys.client, hc]
      refine ⟨⟨h.exact.name, h.exact.inside, h.exact.text⟩, ?_, fun hx => (by cases hx), h.unread,
        h.answer, h.unanswered, h.uncomposed, h.writing, fun _ => h.waiting (hc ▸ rfl)⟩
      simp only [Stream.send, hwr, List.nil_append]
      exact List.take_prefix _ _
  | read =>
    cases a with
    | fail e =>
      simp only [Sys.client, hc]
      exact h.cliExit _ _
    | done k =>
      cases hrecv : s.s2c.recv k maxbuf with
      | none =>
        simp only [Sys.client, hc, hrecv]
        exact h
      | some p =>
        obtain ⟨bs, st⟩ := p
        have hexact := (h.client_read_exact hc hrecv).2 he
        have hwr := Stream.recv_wr hrecv
        simp only [Sys.client, hc, hrecv] at hexact ⊢
        refine ⟨hexact, h.request, fun hx => (by cases hx), h.unread, ?_, ?_, h.uncomposed, ?_,
          fun hx => (by cases hx)⟩
        · intro r hr
          simp only [hwr]
          exact h.answer r hr
        · intro hr
          exact hwr.trans (h.unanswered hr)
        · intro r status hx
          exact ⟨(h.writing r status hx).1, hwr.trans (h.writing r status hx).2⟩
  | close =>
    simp only [Sys.client, hc]
    exact h.cliExit _ _
  | exited err status =>
    simp only [Sys.client, hc]
    exact h
  | killed =>
    simp only [Sys.client, hc]
    exact h

theorem Sys.Inv.cut_breaks (h : s.Inv cfg) (he : cut cfg s e = true) :
    ¬ (s.step cfg e).Exact cfg := by
  intro hexact
  cases e with
  | svr a =>
    cases a with
    | fail e => cases he
    | done k =>
      cases hs : s.svr with
      | read =>
        cases hrecv : s.c2s.recv k 32 with
        | none =>
          simp only [cut, hs, hrecv] at he
          cases he
        | some p =>
          rw [(h.server_read_exact hs hrecv).1 hexact] at he
          cases he
      | _ =>
        simp only [cut, hs] at he
        cases he
  | cli a =>
    cases a with
    | fail e => cases he
    | done k =>
      cases hc : s.cli with
      | read =>
        cases hrecv : s.s2c.recv k maxbuf with
        | none =>
          simp only [cut, hc, hrecv] at he
          cases he
        | some p =>
          rw [(h.client_read_exact hc hrecv).1 hexact] at he
          cases he
      | _ =>
        simp only [cut, hc] at he
        cases he

end

theorem finger_exact_iff (cfg : Cfg) (es : List Ev) :
    (∀ pre, pre <+: es → (run (Sys.step cfg) .start pre).Exact cfg) ↔
      saw (cut cfg) (Sys.step cfg) .start es = false := by
  apply every_state_iff (Sys.Inv cfg) (Sys.Exact cfg) (fun s h => h.exact) _ _ (start_inv cfg) es
  · intro s e he h
    cases e with
    | svr a => exact h.server a he
    | cli a => exact h.client a he
  · intro s e he h
    exact h.cut_breaks he

/-- A name of 32 bytes, whose terminator is written behind the buffer, and a reply of 49 bytes that
the client prints as 100, with what was in its buffer. -/
theorem finger_not_exact :
    (run (Sys.step ⟨.lit "sfingr" (by decide), ⟨List.replicate 32 97, by decide⟩, by decide,
        fun _ => none, List.replicate 32 0, rfl, List.replicate 512 0, List.length_replicate⟩)
      .start [.cli (.done 0), .cli (.done 31), .svr (.done 0), .svr (.done 31)]).svr = .overrun ∧
    (run (Sys.step ⟨.lit "sfingr" (by decide), .lit "kai" (by decide), by decide, fun _ => none,
        List.replicate 32 0, rfl, List.replicate 100 120 ++ List.replicate 412 0,
        by decide +kernel⟩) .start
      [.cli (.done 0), .cli (.done 2), .svr (.done 0), .svr (.done 2), .svr (.done 0),
        .svr (.done 99), .cli (.done 99)]).printed.map (fun p => (p.1.length, p.2.map (·.length))) =
      some (49, some 100) := by
  decide +kernel

end SysPrg.Finger
