import SysPrg.Memory
import SysPrg.ShmLines

namespace SysPrg.ShmLines
set_option autoImplicit true

def addresses (a : Int) (n : Nat) : List Int := (List.range n).map fun k : Nat => a + k

/-- A turn of the loop in memory that is mapped below `top`: the addresses that it writes to, and
the memory, the position and the input for the next one. It has no next one when `strlen` reads
beyond the mapped memory. Addresses are relative to the start of the segment. -/
def turn (top : Int) (m : Int → UInt8) (addr : Int) (inp : Bytes) :
    List Int × Option ((Int → UInt8) × Int × Bytes) :=
  let (line, rest) := getLine (lineLength - 1) inp
  let entered := if line = [] then [] else addresses addr (line.length + 1)
  let m := if line = [] then m else put m addr (line ++ [0])
  match strlen m addr (top - addr).toNat with
  | none => (entered, none)
  | some n =>
    let m := Function.update m (addr + n - 1) 0
    (entered ++ [addr + n - 1],
      (strlen m addr (top - addr).toNat).map fun n : Nat => (m, addr + toInt (n + 1), rest))

def writes (top : Int) : Nat → (Int → UInt8) → Int → Bytes → List Int
  | 0, _, _, _ => []
  | n + 1, m, addr, inp =>
    let (ws, next) := turn top m addr inp
    ws ++ match next with
      | none => []
      | some (m, addr, rest) => writes top n m addr rest

def memory (top : Int) : Nat → (Int → UInt8) → Int → Bytes → Option (Int → UInt8)
  | 0, m, _, _ => some m
  | n + 1, m, addr, inp =>
    match (turn top m addr inp).2 with
    | none => none
    | some (m, addr, rest) => memory top n m addr rest

def entered (addr : Int) (line : Bytes) : List Int :=
  if line = [] then [] else addresses addr (line.length + 1)

theorem mem_entered (h : a ∈ entered addr line) : addr ≤ a ∧ a ≤ addr + line.length := by
  unfold entered at h
  split at h
  · cases h
  · obtain ⟨k, hk, rfl⟩ := List.mem_map.1 h
    rw [List.mem_range] at hk
    omega

theorem entered_subset_turn (top : Int) (m : Int → UInt8) (addr : Int)
    (hline : getLine (lineLength - 1) inp = (line, rest)) :
    entered addr line ⊆ (turn top m addr inp).1 := by
  intro a ha
  simp only [turn, hline]
  split
  · exact ha
  · exact List.mem_append_left _ ha

theorem cut_mem_turn (hline : getLine (lineLength - 1) inp = (line, rest)) {n : Nat}
    (hn : SysPrg.strlen (if line = [] then m else put m addr (line ++ [0])) addr
      (top - addr).toNat = some n) : addr + n - 1 ∈ (turn top m addr inp).1 := by
  simp only [turn, hline, hn]
  exact List.mem_append_right _ List.mem_cons_self

/-- What was entered stands in memory from the position on, and behind it what was there before. -/
structure Holds (m₀ m : Int → UInt8) (addr : Nat) (known : Bytes) : Prop where
  entered : ∀ (k : Nat) x, known[k]? = some x → m (addr + k) = x
  behind : ∀ i : Int, addr + known.length ≤ i → m i = m₀ i

theorem Holds.bytes (h : Holds m₀ m addr (s ++ 0 :: tail)) (hs : (0 : UInt8) ∉ s) {k : Nat}
    (hk : k < s.length) : m (addr + k) ≠ 0 := by
  have hget : (s ++ 0 :: tail)[k]? = some s[k] := by
    rw [List.getElem?_append_left hk]
    exact List.getElem?_eq_getElem hk
  rw [h.entered k _ hget]
  intro h0
  exact hs (h0 ▸ List.getElem_mem hk)

theorem Holds.nul (h : Holds m₀ m addr (s ++ 0 :: tail)) : m (addr + s.length) = 0 := by
  apply h.entered
  rw [List.getElem?_append_right (Nat.le_refl _), Nat.sub_self]
  rfl

theorem Holds.strlen (h : Holds m₀ m addr (s ++ 0 :: tail)) (hs : (0 : UInt8) ∉ s)
    (hn : s.length < n) : strlen m addr n = some s.length :=
  strlen_eq (fun _ hk => h.bytes hs hk) h.nul hn

theorem Holds.strlen_cut (h : Holds m₀ m addr (s ++ 0 :: tail)) (hs : (0 : UInt8) ∉ s)
    (hn : s.length < n) :
    SysPrg.strlen (Function.update m (addr + s.length - 1) 0) addr n = some (s.length - 1) := by
  apply strlen_eq
  · intro k hk
    rw [Function.update_of_ne (by omega)]
    exact h.bytes hs (by omega)
  · by_cases hlen : s.length = 0
    · have hnul := h.nul
      rw [hlen] at hnul ⊢
      rw [Function.update_of_ne (by omega)]
      exact hnul
    · have hlast : (addr : Int) + (s.length - 1 : Nat) = addr + s.length - 1 := by omega
      rw [hlast]
      exact Function.update_self _ _ _
  · omega

theorem begins_holds (h : Begins m seg) (addr : Nat) : Holds m m addr (seg.drop addr) := by
  refine ⟨fun k x hx => ?_, fun _ _ => rfl⟩
  rw [List.getElem?_drop] at hx
  rw [← h (addr + k) x hx]
  rfl

/-- What a turn of the checked loop stands on: the line fits, the string is there, and so is the
character to be cut off. -/
theorem enter_cases (he : enter seg addr inp = some (seg', addr', rest'))
    (hline : getLine (lineLength - 1) inp = (line, rest)) :
    ∃ seg₁ s s', (line = [] ∧ seg₁ = seg ∨
        line ≠ [] ∧ addr + (line ++ [0]).length ≤ seg.length ∧
          seg₁ = writeAt seg addr (line ++ [0])) ∧
      strAt seg₁ addr = some s ∧ addr + s.length ≠ 0 ∧
      addr + s.length - 1 + 1 ≤ seg₁.length ∧ seg' = writeAt seg₁ (addr + s.length - 1) [0] ∧
      strAt seg' addr = some s' ∧ addr' = addr + (s'.length + 1) ∧ rest' = rest := by
  simp only [enter, fgets, hline, Option.bind_eq_bind, Option.bind_eq_some_iff, Prod.exists] at he
  obtain ⟨seg₁, rest₁, hfgets, s, hs, hcut⟩ := he
  have hline' : (line = [] ∧ seg₁ = seg ∨ line ≠ [] ∧ addr + (line ++ [0]).length ≤ seg.length ∧
      seg₁ = writeAt seg addr (line ++ [0])) ∧ rest₁ = rest := by
    split at hfgets
    · next hnil =>
      cases hfgets
      exact ⟨.inl ⟨hnil, rfl⟩, rfl⟩
    · next hne =>
      obtain ⟨seg₁', hstore, hpair⟩ := Option.map_eq_some_iff.1 hfgets
      cases hpair
      obtain ⟨hroom, rfl⟩ := store_cases hstore
      exact ⟨.inr ⟨hne, hroom, rfl⟩, rfl⟩
  split at hcut
  · cases hcut
  · next hpos =>
    obtain ⟨seg₂, hstore, hcut⟩ := Option.bind_eq_some_iff.1 hcut
    obtain ⟨s', hs', hret⟩ := Option.bind_eq_some_iff.1 hcut
    cases hret
    obtain ⟨hroom, rfl⟩ := store_cases hstore
    exact ⟨seg₁, s, s', hline'.1, hs, hpos, hroom, rfl, hs', rfl, hline'.2⟩

theorem enter_turn (he : enter seg addr inp = some (seg', addr', rest')) (hm : Begins m seg)
    (htop : (seg.length : Int) ≤ top) (hmax : seg.length < 2 ^ 31) :
    ∃ ws m', turn top m addr inp = (ws, some (m', (addr' : Int), rest')) ∧ Begins m' seg' ∧
      seg'.length = seg.length ∧ ∀ a ∈ ws, 0 ≤ a ∧ a < seg.length := by
  obtain ⟨line, rest, hline⟩ : ∃ line rest, getLine (lineLength - 1) inp = (line, rest) :=
    ⟨_, _, rfl⟩
  obtain ⟨seg₁, s, s', hseg₁, hs, hpos, hroom, rfl, hs', rfl, rfl⟩ := enter_cases he hline
  obtain ⟨hns, tail, hsplit⟩ := strAt_split hs
  obtain ⟨hns', tail', hsplit'⟩ := strAt_split hs'
  have hlen₁ : seg₁.length = seg.length := by
    rcases hseg₁ with ⟨-, rfl⟩ | ⟨-, hfit, rfl⟩
    · rfl
    · exact length_writeAt hfit
  have hbegins : Begins (if line = [] then m else put m addr (line ++ [0])) seg₁ := by
    rcases hseg₁ with ⟨hnil, rfl⟩ | ⟨hne, hfit, rfl⟩
    · rw [if_pos hnil]
      exact hm
    · rw [if_neg hne]
      exact hm.writeAt hfit
  have hdrop := congrArg List.length hsplit
  have hdrop' := congrArg List.length hsplit'
  have hlen' : (writeAt seg₁ (addr + s.length - 1) [0]).length = seg₁.length := length_writeAt hroom
  rw [List.length_append, List.length_drop, List.length_cons] at hdrop hdrop'
  have hholds := begins_holds hbegins addr
  have hat : ((addr + s.length - 1 : Nat) : Int) = addr + s.length - 1 := by omega
  have hcut : Begins (Function.update (if line = [] then m else put m addr (line ++ [0]))
      (addr + s.length - 1) 0) (writeAt seg₁ (addr + s.length - 1) [0]) := by
    rw [← put_singleton, ← hat]
    exact hbegins.writeAt hroom
  have hholds' := begins_holds hcut addr
  rw [hsplit] at hholds
  rw [hsplit'] at hholds'
  have hn : s.length < (top - addr).toNat := by omega
  have hn' : s'.length < (top - addr).toNat := by omega
  have hstrlen := hholds'.strlen hns' hn'
  have hhop : (addr : Int) + toInt ((s'.length : Nat) + 1) = (addr + (s'.length + 1) : Nat) := by
    rw [← Int.natCast_succ, toInt_of_lt (by omega)]
    omega
  refine ⟨entered addr line ++ [(addr + s.length - 1 : Int)], _, ?_, hcut, hlen'.trans hlen₁, ?_⟩
  · simp only [turn, hline, hholds.strlen hns hn, hstrlen, Option.map_some, hhop]
    rfl
  · intro a ha
    rcases List.mem_append.1 ha with ha | ha
    · have hrange := mem_entered ha
      rcases hseg₁ with ⟨rfl, -⟩ | ⟨-, hfit, -⟩
      · cases ha
      · rw [List.length_append, List.length_singleton] at hfit
        omega
    · rw [List.mem_singleton.1 ha]
      omega

/-- The checked loop, which gives up at an access beside the segment, is the loop in memory as long
as it does not. -/
theorem writer_memory (hw : writer n seg addr inp = some seg') (hm : Begins m seg)
    (htop : (seg.length : Int) ≤ top) (hmax : seg.length < 2 ^ 31) :
    ∃ m', memory top n m addr inp = some m' ∧ Begins m' seg' ∧
      ∀ a ∈ writes top n m addr inp, 0 ≤ a ∧ a < seg.length := by
  induction n generalizing seg addr inp m with
  | zero =>
    cases hw
    exact ⟨m, rfl, hm, fun a ha => (by cases ha)⟩
  | succ n ih =>
    obtain ⟨⟨seg₁, addr₁, rest₁⟩, henter, hrest⟩ := Option.bind_eq_some_iff.1 hw
    obtain ⟨ws, m₁, hturn, hm₁, hlen, hws⟩ := enter_turn henter hm htop hmax
    obtain ⟨m', hmem, hbegins, hwrites⟩ := ih hrest hm₁ (hlen ▸ htop) (hlen ▸ hmax)
    refine ⟨m', ?_, hbegins, ?_⟩
    · rw [memory, hturn]
      exact hmem
    · intro a ha
      rw [writes, hturn] at ha
      rcases List.mem_append.1 ha with ha | ha
      · exact hws a ha
      · exact hlen ▸ hwrites a ha

end SysPrg.ShmLines
