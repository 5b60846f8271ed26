import SysPrg.Memory
import SysPrg.Shell

namespace SysPrg.Envp
set_option autoImplicit true

def maxEnv : Nat := 4096

/-- The pointers of `envp`, or of `environ`; a null pointer is `none`. -/
abbrev Pointers := Int → Option CString

def term : Bytes := [84, 69, 82, 77, 61]

def dialup : CString := .lit "TERM=dialup" (by decide)

/-- How `main` ends: it stores behind the end of `envp`, it gives up with a message on the standard
error output, or it calls `execle` with an environment. -/
inductive Outcome where
  | overrun
  | abort (stderr : CString)
  | execle (env : List CString)
  deriving DecidableEq

def copy (envp : Pointers) (i : Int) : List CString → Pointers × Int
  | [] => (envp, i)
  | e :: environ => copy (Function.update envp i (some e)) (i + 1) environ

/-- `strncmp("TERM=", envp[j], 5) == 0`. -/
def isTerm : Option CString → Bool
  | some e => Shell.strncmpEq term e.bytes 5
  | none => false

def search (envp : Pointers) (i j : Int) : Int :=
  if j < i - 1 ∧ ¬ isTerm (envp j) then search envp i (j + 1) else j
termination_by (i - 1 - j).toNat
decreasing_by omega

/-- The strings up to the null pointer, at most `n`: what `execle` makes of a vector. -/
def strings (envp : Pointers) : Nat → Int → List CString
  | 0, _ => []
  | n + 1, i =>
    match envp i with
    | some e => e :: strings envp n (i + 1)
    | none => []

def notFound (prog : CString) : CString :=
  prog ++ .lit ": env variable TERM not found. Aborting..\n" (by decide)

def main (prog : CString) (environ : List CString) : Outcome :=
  if environ.length ≥ maxEnv then .overrun
  else
    -- the array is static, so that it holds null pointers
    let (envp, i) := copy (fun _ => none) 0 environ
    let envp := Function.update envp i none
    let j := search envp i 0
    if j ≥ i - 1 then .abort (notFound prog)
    else .execle (strings (Function.update envp j (some dialup)) maxEnv 0)

def IsTerm (e : CString) : Prop := term <+: e.bytes

instance (e : CString) : Decidable (IsTerm e) := inferInstanceAs (Decidable (_ <+: _))

theorem isTerm_iff (e : CString) : isTerm (some e) = true ↔ IsTerm e := by
  have hterm : (term ++ [0]).take 5 = term := rfl
  rw [isTerm, Shell.strncmpEq, hterm, beq_iff_eq, IsTerm, List.prefix_iff_eq_take]
  change _ ↔ _ = e.bytes.take 5
  by_cases hlen : 5 ≤ e.bytes.length
  · rw [List.take_append_of_le_length hlen]
  · have hcut : (e.bytes ++ [0]).take 5 = e.bytes ++ [0] := by
      apply List.take_of_length_le
      rw [List.length_append, List.length_singleton]
      omega
    constructor
    · intro h
      -- The terminator is not a character of `TERM=`.
      have hmem : (0 : UInt8) ∈ term := by
        rw [h, hcut]
        exact List.mem_append_right _ List.mem_cons_self
      exact absurd hmem (by decide)
    · intro h
      have h5 := congrArg List.length h
      rw [List.length_take] at h5
      change 5 = _ at h5
      omega

theorem copy_eq (envp : Pointers) (i : Int) (environ : List CString) :
    copy envp i environ = (put envp i (environ.map some), i + environ.length) := by
  induction environ generalizing envp i with
  | nil => exact congrArg (envp, ·) (Int.add_zero i).symm
  | cons e environ ih =>
    rw [copy, ih, List.map_cons, put, List.length_cons]
    exact congrArg (_, ·) (by omega)

theorem search_eq {envp : Pointers} {i : Int} {p j : Nat} (hle : (p : Int) ≤ i - 1)
    (hbefore : ∀ k < p, isTerm (envp k) = false) (hat : (p : Int) = i - 1 ∨ isTerm (envp p) = true)
    (hj : j ≤ p) : search envp i j = p := by
  obtain ⟨d, rfl⟩ := Nat.exists_eq_add_of_le hj
  induction d generalizing j with
  | zero =>
    rw [search, if_neg]
    · rfl
    · rintro ⟨hlt, hno⟩
      rcases hat with hat | hat
      · exact absurd hlt (by omega)
      · exact hno hat
  | succ d ih =>
    have hno : ¬ isTerm (envp j) = true := by
      rw [hbefore j (by omega)]
      exact Bool.false_ne_true
    have hnext : j + 1 + d = j + (d + 1) := by omega
    rw [search, if_pos ⟨by omega, hno⟩]
    have ih := ih (j := j + 1)
    rw [hnext] at ih
    exact ih hle hbefore hat (by omega)

theorem strings_eq {envp : Pointers} {n : Nat} {i : Int} {env : List CString}
    (hget : ∀ (k : Nat) e, env[k]? = some e → envp (i + k) = some e)
    (hend : envp (i + env.length) = none) (hn : env.length < n) : strings envp n i = env := by
  induction env generalizing n i with
  | nil =>
    obtain ⟨m, rfl⟩ := Nat.exists_eq_succ_of_ne_zero (Nat.ne_of_gt hn)
    rw [List.length_nil, Int.natCast_zero, Int.add_zero] at hend
    rw [strings, hend]
  | cons e env ih =>
    obtain ⟨m, rfl⟩ := Nat.exists_eq_succ_of_ne_zero (Nat.ne_of_gt (Nat.zero_lt_of_lt hn))
    have hfirst := hget 0 e rfl
    rw [Int.natCast_zero, Int.add_zero] at hfirst
    rw [strings, hfirst]
    refine congrArg (e :: ·) (ih ?_ ?_ (Nat.lt_of_succ_lt_succ hn))
    · intro k e' hk
      rw [← hget (k + 1) e' hk]
      congr 1
      omega
    · rw [← hend, List.length_cons]
      congr 1
      omega

def copied (environ : List CString) : Pointers := put (fun _ => none) 0 (environ.map some)

theorem copied_get {k : Nat} (h : environ[k]? = some e) : copied environ k = some e := by
  apply put_begins
  rw [List.getElem?_map, h]
  rfl

theorem copied_end (environ : List CString) : copied environ environ.length = none := by
  apply put_of_ge
  rw [List.length_map]
  omega

theorem main_eq (prog : CString) (h : environ.length < maxEnv) :
    main prog environ =
      if search (copied environ) environ.length 0 ≥ environ.length - 1 then .abort (notFound prog)
      else .execle (strings (Function.update (copied environ)
        (search (copied environ) environ.length 0) (some dialup)) maxEnv 0) := by
  have hnull : Function.update (copied environ) environ.length none = copied environ :=
    Function.update_eq_self_iff.2 (copied_end environ).symm
  have hlen : (0 : Int) + environ.length = environ.length := Int.zero_add _
  rw [main, if_neg (Nat.not_le.2 h), copy_eq]
  dsimp only
  rw [hlen, ← copied, hnull]

theorem copied_before (environ : List CString) (h : ∀ e ∈ pre, ¬ IsTerm e)
    {k : Nat} (hk : k < pre.length) : isTerm (copied (pre ++ environ) k) = false := by
  have hget : (pre ++ environ)[k]? = some pre[k] := by
    rw [List.getElem?_append_left hk]
    exact List.getElem?_eq_getElem hk
  rw [copied_get hget, ← Bool.not_eq_true, isTerm_iff]
  exact h _ (List.getElem_mem hk)

theorem copied_set (pre : List CString) (t t' : CString) (post : List CString) :
    Function.update (copied (pre ++ t :: post)) pre.length (some t') =
      copied (pre ++ t' :: post) := by
  have hlen : (0 : Int) + (pre.map some).length = pre.length := by
    rw [List.length_map, Int.zero_add]
  simp only [copied, List.map_append, List.map_cons, put_append, hlen, put]
  rw [put_update _ _ _ (.inl (Int.lt_succ _)), Function.update_idem]

theorem main_found (prog : CString) (hlen : (pre ++ t :: post).length < maxEnv)
    (hpre : ∀ e ∈ pre, ¬ IsTerm e) (ht : IsTerm t) (hpost : post ≠ []) :
    main prog (pre ++ t :: post) = .execle (pre ++ dialup :: post) := by
  have hpos := List.length_pos_iff.2 hpost
  have hlength : (pre ++ t :: post).length = pre.length + (post.length + 1) := List.length_append
  have hat : isTerm (copied (pre ++ t :: post) pre.length) = true := by
    have hget : (pre ++ t :: post)[pre.length]? = some t := by
      rw [List.getElem?_append_right (Nat.le_refl _), Nat.sub_self]
      rfl
    rw [copied_get hget, isTerm_iff]
    exact ht
  have hsearch : search (copied (pre ++ t :: post)) (pre ++ t :: post).length 0 = pre.length :=
    search_eq (by omega) (fun k hk => copied_before _ hpre hk) (.inr hat) (Nat.zero_le _)
  rw [main_eq prog hlen, hsearch, if_neg (by omega), copied_set]
  refine congrArg Outcome.execle (strings_eq ?_ ?_ ?_)
  · intro k e hk
    rw [Int.zero_add]
    exact copied_get hk
  · rw [Int.zero_add]
    exact copied_end _
  · rw [List.length_append, List.length_cons] at hlen ⊢
    exact hlen

theorem main_last (prog : CString) (t : CString) (hlen : (pre ++ [t]).length < maxEnv)
    (hpre : ∀ e ∈ pre, ¬ IsTerm e) : main prog (pre ++ [t]) = .abort (notFound prog) := by
  have hlength : (pre ++ [t]).length = pre.length + 1 := List.length_append
  have hsearch : search (copied (pre ++ [t])) (pre ++ [t]).length 0 = pre.length :=
    search_eq (by omega) (fun k hk => copied_before _ hpre hk) (.inl (by omega)) (Nat.zero_le _)
  rw [main_eq prog hlen, hsearch, if_pos (by omega)]

theorem main_nil (prog : CString) : main prog [] = .abort (notFound prog) := by
  have hsearch : search (copied []) 0 0 = 0 := by
    rw [search, if_neg (by decide)]
  rw [main_eq prog (by decide), List.length_nil, Int.natCast_zero, hsearch, if_pos (by decide)]

theorem exists_first (h : ∃ e ∈ environ, IsTerm e) :
    ∃ pre t post, environ = pre ++ t :: post ∧ (∀ e ∈ pre, ¬ IsTerm e) ∧ IsTerm t := by
  obtain ⟨e, he, hterm⟩ := h
  have hsome : (environ.find? fun e => decide (IsTerm e)).isSome :=
    List.find?_isSome.2 ⟨e, he, decide_eq_true hterm⟩
  obtain ⟨t, hfind⟩ := Option.isSome_iff_exists.1 hsome
  obtain ⟨ht, pre, post, heq, hpre⟩ := List.find?_eq_some_iff_append.1 hfind
  refine ⟨pre, t, post, heq, fun e he => ?_, of_decide_eq_true ht⟩
  exact of_decide_eq_false (Bool.not_eq_true' _ ▸ hpre e he)

theorem term_replaced_iff (prog : CString) (environ : List CString)
    (hlen : environ.length < maxEnv) :
    ((∀ pre t post, environ = pre ++ t :: post → (∀ e ∈ pre, ¬ IsTerm e) → IsTerm t →
        main prog environ = .execle (pre ++ dialup :: post)) ∧
      (main prog environ = .abort (notFound prog) ↔ ∀ e ∈ environ, ¬ IsTerm e)) ↔
    ∀ pre t, environ = pre ++ [t] → IsTerm t → ∃ e ∈ pre, IsTerm e := by
  constructor
  · rintro ⟨-, habort⟩ pre t rfl ht
    by_contra hpre
    have hnone := habort.1 (main_last prog t hlen fun e he hterm => hpre ⟨e, he, hterm⟩)
    exact hnone t (List.mem_append_right _ List.mem_cons_self) ht
  · intro hlast
    have hfound : ∀ pre t post, environ = pre ++ t :: post → (∀ e ∈ pre, ¬ IsTerm e) → IsTerm t →
        main prog environ = .execle (pre ++ dialup :: post) := by
      rintro pre t post rfl hpre ht
      apply main_found prog hlen hpre ht
      rintro rfl
      obtain ⟨e, he, hterm⟩ := hlast pre t rfl ht
      exact hpre e he hterm
    refine ⟨hfound, ?_, ?_⟩
    · intro habort e he hterm
      obtain ⟨pre, t, post, heq, hpre, ht⟩ := exists_first ⟨e, he, hterm⟩
      rw [hfound pre t post heq hpre ht] at habort
      cases habort
    · intro hnone
      rcases List.eq_nil_or_concat environ with rfl | ⟨pre, t, heq⟩
      · exact main_nil prog
      · rw [List.concat_eq_append] at heq
        subst heq
        exact main_last prog t hlen fun e he => hnone e (List.mem_append_left _ he)

def home : CString := .lit "HOME=/root" (by decide)

def xterm : CString := .lit "TERM=xterm" (by decide)

theorem term_replaced_second :
    main (.lit "envp" (by decide)) [home, xterm, home] = .execle [home, dialup, home] := by
  have hlast (pre : List CString) (t : CString) (heq : [home, xterm, home] = pre ++ [t])
      (ht : IsTerm t) : ∃ e ∈ pre, IsTerm e := by
    have hhome : some home = some t := (congrArg List.getLast? heq).trans List.getLast?_concat
    cases hhome
    exact absurd ht (by decide)
  exact ((term_replaced_iff (.lit "envp" (by decide)) [home, xterm, home] (by decide)).2 hlast).1
    [home] xterm [home] rfl (by decide) (by decide)

theorem term_last_not_found :
    main (.lit "envp" (by decide)) [home, xterm] = .abort (notFound (.lit "envp" (by decide))) ∧
      IsTerm xterm := by
  have hlast : main (.lit "envp" (by decide)) ([home] ++ [xterm]) =
      .abort (notFound (.lit "envp" (by decide))) := main_last _ xterm (by decide) (by decide)
  exact ⟨hlast, by decide⟩

end SysPrg.Envp
