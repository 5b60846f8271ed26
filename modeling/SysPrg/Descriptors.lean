import Mathlib.Data.Finset.Card
import Mathlib.Data.Finset.Range
import Mathlib.Data.Fintype.Card
import SysPrg.Run

namespace SysPrg
set_option autoImplicit true

abbrev Fds (κ : Type) := List (Option κ)

def fdGet (t : Fds κ) (fd : Nat) : Option κ := t[fd]?.join

def fdLowest : Fds κ → Nat
  | [] => 0
  | none :: _ => 0
  | some _ :: t => fdLowest t + 1

def fdInstall (k : κ) : Fds κ → Fds κ
  | [] => [some k]
  | none :: t => some k :: t
  | some j :: t => some j :: fdInstall k t

def fdClose (t : Fds κ) (fd : Nat) : Fds κ := t.set fd none

theorem fdGet_lowest (t : Fds κ) : fdGet t (fdLowest t) = none := by
  induction t with
  | nil => rfl
  | cons x t ih =>
    cases x with
    | none => rfl
    | some j => exact ih

theorem fdGet_install (k : κ) (t : Fds κ) (fd : Nat) :
    fdGet (fdInstall k t) fd = if fd = fdLowest t then some k else fdGet t fd := by
  induction t generalizing fd with
  | nil => cases fd <;> rfl
  | cons x t ih =>
    cases x with
    | none => cases fd <;> rfl
    | some j =>
      cases fd with
      | zero => rfl
      | succ fd =>
        have hfd : (fd + 1 = fdLowest (some j :: t)) = (fd = fdLowest t) :=
          propext Nat.add_right_cancel_iff
        simp only [hfd]
        exact ih fd

theorem fdGet_close (t : Fds κ) (fd fd' : Nat) :
    fdGet (fdClose t fd) fd' = if fd' = fd then none else fdGet t fd' := by
  unfold fdGet fdClose
  rw [List.getElem?_set]
  by_cases h : fd = fd'
  · rw [if_pos h, if_pos h.symm]
    split <;> rfl
  · rw [if_neg h, if_neg (Ne.symm h)]

theorem count_fdInstall [DecidableEq κ] (k : κ) (t : Fds κ) :
    (fdInstall k t).count (some k) = t.count (some k) + 1 := by
  induction t with
  | nil => exact List.count_singleton_self
  | cons x t ih =>
    cases x with
    | none =>
      rw [fdInstall, List.count_cons_self, List.count_cons_of_ne (Option.some_ne_none k).symm]
    | some j => rw [fdInstall, List.count_cons, List.count_cons, ih, Nat.add_right_comm]

theorem count_fdClose [DecidableEq κ] {t : Fds κ} (h : fdGet t fd = some k) :
    (fdClose t fd).count (some k) + 1 = t.count (some k) := by
  induction t generalizing fd with
  | nil => cases h
  | cons x t ih =>
    cases fd with
    | zero =>
      obtain rfl : x = some k := h
      rw [fdClose, List.set_cons_zero, List.count_cons_self,
        List.count_cons_of_ne (Option.some_ne_none k).symm]
    | succ fd =>
      rw [fdClose, List.set_cons_succ, List.count_cons, List.count_cons, Nat.add_right_comm, ← ih h]
      rfl

def fdOpen [DecidableEq κ] (t : Fds κ) (k : κ) : Finset Nat :=
  (Finset.range t.length).filter (fun fd => fdGet t fd = some k)

theorem mem_fdOpen [DecidableEq κ] {t : Fds κ} {k : κ} {fd : Nat} :
    fd ∈ fdOpen t k ↔ fdGet t fd = some k := by
  unfold fdOpen
  rw [Finset.mem_filter, Finset.mem_range]
  constructor
  · exact fun h => h.2
  · intro h
    exact ⟨(List.getElem?_eq_some_iff.1 (Option.join_eq_some_iff.1 h)).1, h⟩

structure Held (π κ : Type) where
  tab : Nat → Option κ
  own : π → κ → Option Nat

namespace Held

/-- What somebody has is open, and nobody else has it. -/
structure Sound (h : Held π κ) : Prop where
  live : ∀ p k fd, h.own p k = some fd → h.tab fd = some k
  alone : ∀ p q k fd, h.own p k = some fd → h.own q k = some fd → p = q

def Owned (h : Held π κ) : Prop := ∀ fd k, h.tab fd = some k → ∃ p, h.own p k = some fd

theorem Owned.card_le [Fintype π] {h : Held π κ} (ho : h.Owned) {s : Finset Nat}
    (hs : ∀ fd ∈ s, h.tab fd = some k) : s.card ≤ Fintype.card π := by
  have hsub : s ⊆ Finset.univ.image (fun p => (h.own p k).getD 0) := by
    intro fd hfd
    obtain ⟨p, hp⟩ := ho fd k (hs fd hfd)
    rw [Finset.mem_image]
    exact ⟨p, Finset.mem_univ p, by rw [hp, Option.getD_some]⟩
  exact (Finset.card_le_card hsub).trans Finset.card_image_le

theorem Sound.ne_of_own {h : Held π κ} (hs : h.Sound) (hp : h.own p k = some fd)
    (hq : h.own q j = some fd') (hne : ¬ (q = p ∧ j = k)) : fd' ≠ fd := by
  rintro rfl
  have hj : j = k := Option.some.inj ((hs.live q j fd' hq).symm.trans (hs.live p k fd' hp))
  subst hj
  exact hne ⟨hs.alone q p j fd' hq hp, rfl⟩

variable [DecidableEq π] [DecidableEq κ]

def give (own : π → κ → Option Nat) (p : π) (k : κ) (x : Option Nat) : π → κ → Option Nat :=
  fun q j => if q = p ∧ j = k then x else own q j

theorem give_self (own : π → κ → Option Nat) (p : π) (k : κ) (x : Option Nat) :
    give own p k x p k = x :=
  if_pos ⟨rfl, rfl⟩

theorem give_other {own : π → κ → Option Nat} (hne : ¬ (q = p ∧ j = k)) (x : Option Nat) :
    give own p k x q j = own q j :=
  if_neg hne

theorem give_eq_self {own : π → κ → Option Nat} (h : own p k = x) : give own p k x = own := by
  funext q j
  by_cases hq : q = p ∧ j = k
  · rw [hq.1, hq.2, give_self, h]
  · exact give_other hq x

theorem give_update {f : α → κ → Option Nat} {place : π → α} {p : π} {k : κ} {x : α}
    (h : ∀ j, j ≠ k → f x j = f (place p) j) :
    (fun q => f (Function.update place p x q)) = give (fun q => f (place q)) p k (f x k) := by
  funext q j
  by_cases hq : q = p
  · subst hq
    rw [Function.update_self]
    by_cases hj : j = k
    · rw [hj, give_self]
    · rw [give_other (fun hc => hj hc.2), h j hj]
  · rw [give_other (fun hc => hq hc.1), Function.update_of_ne hq]

/-- What can happen to a descriptor, and whether it is left open behind. -/
inductive Change : Held π κ → Bool → Held π κ → Prop where
  | keep (h : Held π κ) : Change h false h
  | acquire {h : Held π κ} {p : π} {k : κ} {fd : Nat} (hfresh : h.tab fd = none)
      (hidle : h.own p k = none) :
      Change h false ⟨Function.update h.tab fd (some k), give h.own p k (some fd)⟩
  | release {h : Held π κ} {p : π} {k : κ} {fd : Nat} (hp : h.own p k = some fd) :
      Change h false ⟨Function.update h.tab fd none, give h.own p k none⟩
  | abandon {h : Held π κ} {p : π} {k : κ} {fd : Nat} (hp : h.own p k = some fd) :
      Change h true ⟨h.tab, give h.own p k none⟩
  | exit (h : Held π κ) : Change h false ⟨fun _ => none, fun _ _ => none⟩

variable {h h' : Held π κ}

theorem own_of_give_none {own : π → κ → Option Nat} (hg : give own p k none q j = some fd) :
    ¬ (q = p ∧ j = k) ∧ own q j = some fd := by
  by_cases hq : q = p ∧ j = k
  · rw [hq.1, hq.2, give_self] at hg
    cases hg
  · rw [give_other hq] at hg
    exact ⟨hq, hg⟩

theorem Change.sound (hc : Change h b h') (hs : h.Sound) : h'.Sound := by
  cases hc with
  | keep => exact hs
  | @acquire p k fd hfresh hidle =>
    have hold (q : π) (j : κ) (fd' : Nat) (hq : h.own q j = some fd') : fd' ≠ fd := by
      rintro rfl
      cases hfresh.symm.trans (hs.live q j fd' hq)
    have hcase (q : π) (j : κ) (fd' : Nat) (hq : give h.own p k (some fd) q j = some fd') :
        (q = p ∧ j = k ∧ fd' = fd) ∨ h.own q j = some fd' := by
      by_cases he : q = p ∧ j = k
      · rw [he.1, he.2, give_self] at hq
        exact .inl ⟨he.1, he.2, (Option.some.inj hq).symm⟩
      · rw [give_other he] at hq
        exact .inr hq
    constructor
    · intro q j fd' hq
      rcases hcase q j fd' hq with ⟨-, rfl, rfl⟩ | hq
      · exact Function.update_self ..
      · exact (Function.update_of_ne (hold q j fd' hq) ..).trans (hs.live q j fd' hq)
    · intro q r j fd' hq hr
      rcases hcase q j fd' hq with ⟨rfl, -, hfd⟩ | hq'
      · rcases hcase r j fd' hr with ⟨rfl, -, -⟩ | hr'
        · rfl
        · exact (hold r j fd' hr' hfd).elim
      · rcases hcase r j fd' hr with ⟨-, -, hfd⟩ | hr'
        · exact (hold q j fd' hq' hfd).elim
        · exact hs.alone q r j fd' hq' hr'
  | release hp =>
    constructor
    · intro q j fd' hq
      obtain ⟨hne, hq⟩ := own_of_give_none hq
      exact (Function.update_of_ne (hs.ne_of_own hp hq hne) ..).trans (hs.live q j fd' hq)
    · intro q r j fd' hq hr
      exact hs.alone q r j fd' (own_of_give_none hq).2 (own_of_give_none hr).2
  | abandon hp =>
    constructor
    · intro q j fd' hq
      exact hs.live q j fd' (own_of_give_none hq).2
    · intro q r j fd' hq hr
      exact hs.alone q r j fd' (own_of_give_none hq).2 (own_of_give_none hr).2
  | exit =>
    constructor
    · intro q j fd' hq
      cases hq
    · intro q r j fd' hq
      cases hq

theorem Change.owned_iff (hc : Change h b h') (hs : h.Sound) (ho : h.Owned) :
    h'.Owned ↔ b = false := by
  cases hc with
  | keep => exact ⟨fun _ => rfl, fun _ => ho⟩
  | @acquire p k fd hfresh hidle =>
    refine ⟨fun _ => rfl, fun _ fd' j hj => ?_⟩
    by_cases hfd : fd' = fd
    · subst hfd
      have hk : Function.update h.tab fd' (some k) fd' = some k := Function.update_self ..
      obtain rfl : k = j := Option.some.inj (hk.symm.trans hj)
      exact ⟨p, give_self ..⟩
    · obtain ⟨q, hq⟩ := ho fd' j ((Function.update_of_ne hfd ..).symm.trans hj)
      refine ⟨q, (give_other ?_ _).trans hq⟩
      rintro ⟨rfl, rfl⟩
      cases hidle.symm.trans hq
  | @release p k fd hp =>
    refine ⟨fun _ => rfl, fun _ fd' j hj => ?_⟩
    by_cases hfd : fd' = fd
    · subst hfd
      cases (Function.update_self ..).symm.trans hj
    · obtain ⟨q, hq⟩ := ho fd' j ((Function.update_of_ne hfd ..).symm.trans hj)
      refine ⟨q, (give_other ?_ _).trans hq⟩
      rintro ⟨rfl, rfl⟩
      exact hfd (Option.some.inj (hq.symm.trans hp))
  | @abandon p k fd hp =>
    refine ⟨fun ho' => ?_, fun hb => by cases hb⟩
    obtain ⟨q, hq⟩ := ho' fd k (hs.live p k fd hp)
    obtain ⟨hne, hq⟩ := own_of_give_none hq
    exact (hs.ne_of_own hp hq hne rfl).elim
  | exit => exact ⟨fun _ => rfl, fun _ fd k hk => by cases hk⟩

/-- The descriptors of a table that are of a kind to be looked after, and who has which. -/
def ofTable (t : κ → Bool) (fds : Fds κ) (own : π → κ → Option Nat) : Held π κ :=
  ⟨fun fd => (fdGet fds fd).filter t, own⟩

omit [DecidableEq π] [DecidableEq κ] in
theorem ofTable_tab {t : κ → Bool} (hk : t k = true) (own : π → κ → Option Nat) :
    (ofTable t fds own).tab fd = some k ↔ fdGet fds fd = some k := by
  simp only [ofTable, Option.filter_eq_some_iff, hk, and_true]

section
variable {t : κ → Bool} {fds : Fds κ} {own own' : π → κ → Option Nat} {p : π} {k : κ}

theorem change_install (hk : t k = true) (hidle : own p k = none)
    (hown : own' = give own p k (some (fdLowest fds))) :
    Change (ofTable t fds own) false (ofTable t (fdInstall k fds) own') := by
  have htab : (ofTable t (fdInstall k fds) own').tab =
      Function.update (ofTable t fds own).tab (fdLowest fds) (some k) := by
    funext fd
    simp only [ofTable]
    rw [fdGet_install, Function.update_apply]
    split
    · exact Option.filter_some_pos hk
    · rfl
  have hfresh : (ofTable t fds own).tab (fdLowest fds) = none := by
    simp only [ofTable, fdGet_lowest, Option.filter_none]
  have hc := Change.acquire (h := ofTable t fds own) hfresh hidle
  rw [← htab] at hc
  rw [hown]
  exact hc

theorem change_close (hp : own p k = some fd) (hown : own' = give own p k none) :
    Change (ofTable t fds own) false (ofTable t (fdClose fds fd) own') := by
  have htab : (ofTable t (fdClose fds fd) own').tab =
      Function.update (ofTable t fds own).tab fd none := by
    funext fd'
    simp only [ofTable]
    rw [fdGet_close, Function.update_apply]
    split <;> rfl
  have hc := Change.release (h := ofTable t fds own) hp
  rw [← htab] at hc
  rw [hown]
  exact hc

theorem change_leave (hp : own p k = some fd) (hown : own' = give own p k none) :
    Change (ofTable t fds own) true (ofTable t fds own') := by
  rw [hown]
  exact .abandon (h := ofTable t fds own) hp

theorem change_exit (hown : own' = fun _ _ => none) :
    Change (ofTable t fds own) false (ofTable t [] own') := by
  rw [hown]
  exact .exit _

end

/-- Everything open is somebody's all along a run exactly when nothing is ever left behind. -/
theorem owned_run_iff {step : σ → ε → σ} {held : σ → Held π κ} {leaves : σ → ε → Bool}
    (hstep : ∀ s e, Change (held s) (leaves s e) (held (step s e))) (hs : (held s).Sound)
    (ho : (held s).Owned) (es : List ε) :
    (∀ pre, pre <+: es → (held (run step s pre)).Owned) ↔ saw leaves step s es = false := by
  apply every_state_iff (fun t => (held t).Sound ∧ (held t).Owned) (fun t => (held t).Owned)
    (fun t h => h.2) _ _ ⟨hs, ho⟩ es
  · intro t e hl h
    have hc := hstep t e
    exact ⟨hc.sound h.1, (hc.owned_iff h.1 h.2).2 hl⟩
  · intro t e hl h ho'
    rw [((hstep t e).owned_iff h.1 h.2).1 ho'] at hl
    cases hl

end Held

end SysPrg
