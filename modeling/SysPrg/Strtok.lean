import Mathlib.Data.List.TakeWhile

namespace SysPrg
set_option autoImplicit true

/-- `strtok`, from what an earlier call has saved: the next token, and what is saved for the call
after it. The separator at the end of a token gives way to the terminator of the token. -/
def strtok (sep : α → Bool) (saved : List α) : Option (List α) × List α :=
  match saved.dropWhile sep with
  | [] => (none, [])
  | b :: s => (some (b :: s.takeWhile (!sep ·)), (s.dropWhile (!sep ·)).drop 1)

/-- The maximal runs of a list without a separator, in their order. -/
inductive Runs (sep : α → Bool) : List α → List (List α) → Prop where
  | nil (hgap : ∀ b ∈ gap, sep b = true) : Runs sep gap []
  | cons (hgap : ∀ b ∈ gap, sep b = true) (hne : t ≠ []) (ht : ∀ b ∈ t, sep b = false)
      (hend : ∀ b ∈ rest.head?, sep b = true) (hrest : Runs sep rest ts) :
      Runs sep (gap ++ (t ++ rest)) (t :: ts)

variable {sep : α → Bool}

theorem Runs.separator (h : Runs sep s ts) (hb : sep b = true) : Runs sep (b :: s) ts := by
  cases h with
  | nil hgap => exact .nil (List.forall_mem_cons.mpr ⟨hb, hgap⟩)
  | cons hgap hne ht hend hrest =>
    rw [← List.cons_append]
    exact .cons (List.forall_mem_cons.mpr ⟨hb, hgap⟩) hne ht hend hrest

theorem mem_head?_dropWhile {s : List α} (h : b ∈ (s.dropWhile (!sep ·)).head?) : sep b = true := by
  have hstop := List.head?_dropWhile_not (!sep ·) s
  rw [h] at hstop
  exact (Bool.not_eq_false' _).mp hstop

theorem strtok_none (h : strtok sep s = (none, s')) : (∀ b ∈ s, sep b = true) ∧ s' = [] := by
  unfold strtok at h
  split at h
  · next hs =>
    cases h
    exact ⟨List.dropWhile_eq_nil_iff.mp hs, rfl⟩
  · cases h

/-- A call that finds a token: what is in front of it are separators, and it goes up to the next
separator or the end. -/
theorem strtok_some (h : strtok sep s = (some t, s')) :
    ∃ gap rest, s = gap ++ (t ++ rest) ∧ s' = rest.drop 1 ∧ (∀ b ∈ gap, sep b = true) ∧
      t ≠ [] ∧ (∀ b ∈ t, sep b = false) ∧ ∀ b ∈ rest.head?, sep b = true := by
  unfold strtok at h
  split at h
  · cases h
  · next b tail hs =>
    cases h
    have hb : sep b = false := by
      have hstop := List.head?_dropWhile_not sep s
      rwa [hs] at hstop
    refine ⟨s.takeWhile sep, tail.dropWhile (!sep ·), ?_, rfl, fun _ => List.mem_takeWhile_imp,
      List.cons_ne_nil _ _, ?_, fun _ => mem_head?_dropWhile⟩
    · rw [List.cons_append, List.takeWhile_append_dropWhile, ← hs,
        List.takeWhile_append_dropWhile]
    · refine List.forall_mem_cons.mpr ⟨hb, fun c hc => ?_⟩
      exact (Bool.not_eq_true' _).mp (List.mem_takeWhile_imp (p := (!sep ·)) hc)

theorem strtok_length (h : strtok sep s = (some t, s')) : s'.length < s.length := by
  obtain ⟨gap, rest, rfl, rfl, -, hne, -, -⟩ := strtok_some h
  have ht := List.length_pos_iff.mpr hne
  rw [List.length_drop, List.length_append, List.length_append]
  omega

theorem Runs.strtok (h : strtok sep s = (some t, s')) (hruns : Runs sep s' ts) :
    Runs sep s (t :: ts) := by
  obtain ⟨gap, rest, rfl, rfl, hgap, hne, ht, hend⟩ := strtok_some h
  refine .cons hgap hne ht hend ?_
  cases rest with
  | nil => exact hruns
  | cons b rest => exact hruns.separator (hend b rfl)

theorem Runs.strtok_none (h : SysPrg.strtok sep s = (none, s')) : Runs sep s [] :=
  .nil (SysPrg.strtok_none h).1

theorem Runs.length_le (h : Runs sep s ts) :
    2 * ts.length ≤ s.length + 1 ∧
      ((∀ b ∈ s.head?, sep b = true) → 2 * ts.length ≤ s.length) := by
  induction h with
  | nil hgap => exact ⟨Nat.zero_le _, fun _ => Nat.zero_le _⟩
  | @cons gap t rest ts hgap hne ht hend hrest ih =>
    have htpos := List.length_pos_iff.mpr hne
    have hts := ih.2 hend
    rw [List.length_append, List.length_append, List.length_cons]
    refine ⟨by omega, fun hsep => ?_⟩
    have hgappos : 0 < gap.length := by
      cases gap with
      | cons b gap => exact Nat.succ_pos _
      | nil =>
        obtain ⟨b, t, rfl⟩ := List.exists_cons_of_ne_nil hne
        have hb := ht b List.mem_cons_self
        rw [hsep b rfl] at hb
        cases hb
    omega

/-- The runs are what splitting at every separator gives, but for the empty pieces. -/
theorem Runs.eq_splitOnP (h : Runs sep s ts) :
    ts = (s.splitOnP sep).filter (!·.isEmpty) := by
  have hsep : ∀ (b : α) (s : List α), sep b = true →
      ((b :: s).splitOnP sep).filter (!·.isEmpty) = (s.splitOnP sep).filter (!·.isEmpty) := by
    intro b s hb
    rw [List.splitOnP_cons_eq_if_modifyHead, if_pos hb]
    rfl
  have hgaps : ∀ gap s : List α, (∀ b ∈ gap, sep b = true) →
      ((gap ++ s).splitOnP sep).filter (!·.isEmpty) = (s.splitOnP sep).filter (!·.isEmpty) := by
    intro gap s hgap
    induction gap with
    | nil => rfl
    | cons b gap ih =>
      obtain ⟨hb, hgap⟩ := List.forall_mem_cons.mp hgap
      rw [List.cons_append, hsep b _ hb, ih hgap]
  induction h with
  | @nil gap hgap =>
    have hnil := hgaps gap [] hgap
    rw [List.append_nil] at hnil
    rw [hnil]
    rfl
  | @cons gap t rest ts hgap hne ht hend hrest ih =>
    have ht' : (!t.isEmpty) = true := by
      rw [List.isEmpty_eq_false_iff.mpr hne]
      rfl
    rw [hgaps gap _ hgap]
    cases rest with
    | nil =>
      rw [List.append_nil, List.splitOnP_eq_singleton ht, ih, List.filter_cons, if_pos ht']
      rfl
    | cons b rest =>
      have hb := hend b rfl
      rw [List.splitOnP_append_cons_of_forall_mem ht b hb, List.filter_cons, if_pos ht', ih,
        hsep b rest hb]

end SysPrg
