import SysPrg.XferTransfer

namespace SysPrg.Xfer
set_option autoImplicit true

theorem chunk_eq_path (hw : wr <+: path) :
    chunk k count wr = path ↔ wr = path ∧ path.length ≤ k + 1 ∧ path.length ≤ count := by
  constructor
  · intro h
    have hl := congrArg List.length h
    rw [chunk_length] at hl
    have hle := hw.length_le
    have hwr : wr = path := hw.eq_of_length (by omega)
    exact ⟨hwr, by omega, by omega⟩
  · rintro ⟨rfl, hk, hc⟩
    exact List.take_of_length_le (by omega)

theorem gotRequest_eq_open2 (h0 : (0 : UInt8) ∉ path) (hb : bs <+: path) :
    gotRequest (.ok bs) = .open2 path ↔ bs = path ∧ path.length < pathMax := by
  simp only [gotRequest, cStr_eq_self (fun h => h0 (hb.subset h))]
  by_cases hl : bs.length < pathMax
  · rw [if_pos hl]
    constructor
    · intro h
      cases h
      exact ⟨rfl, hl⟩
    · rintro ⟨rfl, -⟩
      rfl
  · rw [if_neg hl]
    constructor
    · intro h
      cases h
    · rintro ⟨rfl, h⟩
      exact (hl h).elim

theorem Server.read_request_iff {s : Server} (hp : s.pc = .read) (hrd : s.net.c2s.rd = 0)
    (hw : s.net.c2s.wr <+: path) (h0 : (0 : UInt8) ∉ path) (hne : path ≠ []) :
    (s.step cfg (.done k)).pc = .open2 path ↔
      path.length < pathMax ∧ s.net.c2s.wr = path ∧ path.length ≤ k + 1 := by
  have hbs : chunk k pathMax s.net.c2s.wr <+: path := (List.take_prefix _ _).trans hw
  have hflight : s.net.c2s.inFlight = s.net.c2s.wr := by
    rw [Stream.inFlight, hrd, List.drop_zero]
  simp only [Server.step, hp, Stream.recv, hflight]
  split
  · next hblock =>
    split at hblock
    · next hnil =>
      rw [hp]
      constructor
      · intro h
        cases h
      · rintro ⟨-, hwr, -⟩
        rw [hwr] at hnil
        exact (hne ((chunk_eq_nil (by decide)).1 hnil.1)).elim
    · cases hblock
  · next bs c2s hr =>
    split at hr
    · cases hr
    · cases hr
      rw [Server.goto_pc, gotRequest_eq_open2 h0 hbs, chunk_eq_path hw]
      constructor
      · rintro ⟨⟨hwr, hk, -⟩, hl⟩
        exact ⟨hl, hwr, hk⟩
      · rintro ⟨hl, hwr, hk⟩
        exact ⟨⟨hwr, hk, Nat.le_of_lt hl⟩, hl⟩

/-- The pathname that the server opens is the client's, with its terminator inside the buffer,
exactly when all of a pathname shorter than the buffer is handed over by the one `read`. -/
theorem request_framed_iff (hne : path ≠ []) (h0 : (0 : UInt8) ∉ path)
    (hp : (transfer cfg path prior page es).svr.pc = .read) :
    (transfer cfg path prior page (es ++ [.svr (.done k)])).svr.pc = .open2 path ↔
      path.length < pathMax ∧ (transfer cfg path prior page es).svr.net.c2s.wr = path ∧
        path.length ≤ k + 1 := by
  have h := transfer_inv cfg path prior page es
  have hrd := h.unread (by rw [hp]; rfl)
  rw [transfer, run_snoc]
  exact Server.read_request_iff hp hrd h.asked.isPrefix h0 hne

def noFiles : Config := ⟨fun _ => none, traditional, page4k⟩

theorem request_framed_two_bytes :
    (transfer noFiles [97, 98] [] page4k
        ([.cli (.done 1), .svr (.done 0)] ++ [.svr (.done 1)])).svr.pc = .open2 [97, 98] ↔
      [97, 98].length < pathMax ∧
        (transfer noFiles [97, 98] [] page4k [.cli (.done 1), .svr (.done 0)]).svr.net.c2s.wr =
          [97, 98] ∧ [97, 98].length ≤ 1 + 1 :=
  request_framed_iff (by decide) (by decide) (by decide +kernel)

/-- A first segment of one byte is taken for the whole pathname, and a pathname of `PATH_MAX` bytes
that comes in one piece has its terminator stored past the end of the buffer. -/
theorem request_not_framed :
    ¬ (∀ (cfg : Config) (path prior : Bytes) (page : PageSize) (es : List Ev) (k : Nat),
      path ≠ [] → path.length ≤ pathMax → (0 : UInt8) ∉ path →
      (transfer cfg path prior page es).svr.pc = .read →
      (transfer cfg path prior page es).svr.net.c2s.inFlight ≠ [] →
      (transfer cfg path prior page (es ++ [.svr (.done k)])).svr.pc = .open2 path) ∧
    (transfer noFiles (List.replicate pathMax 97) [] page4k
      [.cli (.done 4095), .svr (.done 0), .svr (.done 4095)]).svr.pc = .overrun := by
  constructor
  · intro h
    have hc := h noFiles [97, 98] [] page4k [.cli (.done 1), .svr (.done 0)] 0 (by decide)
      (by decide) (by decide) (by decide +kernel) (by decide +kernel)
    revert hc
    decide +kernel
  · decide +kernel

end SysPrg.Xfer
