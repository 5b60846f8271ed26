import SysPrg.Memory
import SysPrg.Shell
import SysPrg.Strtok

namespace SysPrg.Shell
set_option autoImplicit true

def isSep (b : UInt8) : Bool := b == 32

/-- `newargs` with the index `i`, and the elements of `newargs` that have been written. -/
structure Args where
  newargs : Int → Option Bytes
  i : Nat
  stored : List Nat

/-- `newargs[i++] = arg`. -/
def Args.store (a : Args) (arg : Option Bytes) : Args where
  newargs := Function.update a.newargs a.i arg
  i := a.i + 1
  stored := a.stored ++ [a.i]

def argLoop (a : Args) (saved : Bytes) : Args :=
  match h : strtok isSep saved with
  -- the null pointer is stored, too
  | (none, _) => a.store none
  | (some t, saved') =>
    have := strtok_length h
    argLoop (a.store (some t)) saved'
termination_by saved.length

/-- The tokenising of a command, in an array with the tokens of the last one. -/
def tokenize (newargs : Int → Option Bytes) (cmd : Bytes) : Args :=
  let first := strtok isSep cmd
  argLoop (Args.store ⟨newargs, 0, []⟩ first.1) first.2

theorem argLoop_eq (a : Args) (saved : Bytes) :
    ∃ ts, Runs isSep saved ts ∧ argLoop a saved = (ts.map some ++ [none]).foldl Args.store a := by
  fun_induction argLoop a saved with
  | case1 a saved x h => exact ⟨[], .strtok_none h, rfl⟩
  | case2 a saved t saved' h _ ih =>
    obtain ⟨ts, hruns, heq⟩ := ih
    exact ⟨t :: ts, hruns.strtok h, heq⟩

theorem foldl_store (a : Args) (args : List (Option Bytes)) :
    args.foldl Args.store a = ⟨put a.newargs a.i args, a.i + args.length,
      a.stored ++ List.range' a.i args.length⟩ := by
  induction args generalizing a with
  | nil => rw [List.foldl_nil, put, List.length_nil, List.range'_zero, List.append_nil]; rfl
  | cons arg args ih =>
    rw [List.foldl_cons, ih, put, List.length_cons, List.range'_succ]
    simp only [Args.store, List.append_assoc, List.singleton_append]
    congr 1
    omega

/-- What `tokenize` stores, one after the other. A command of separators alone has a second null
pointer stored behind the first. -/
theorem tokenize_eq (newargs : Int → Option Bytes) (cmd : Bytes) :
    ∃ (ts : List Bytes) (args : List (Option Bytes)), Runs isSep cmd ts ∧
      args.length = max ts.length 1 + 1 ∧ (ts.map some ++ [none]) <+: args ∧
      tokenize newargs cmd = args.foldl Args.store ⟨newargs, 0, []⟩ := by
  obtain ⟨ts, hruns, heq⟩ :=
    argLoop_eq (Args.store ⟨newargs, 0, []⟩ (strtok isSep cmd).1) (strtok isSep cmd).2
  have htok : tokenize newargs cmd =
      ((strtok isSep cmd).1 :: (ts.map some ++ [none])).foldl Args.store ⟨newargs, 0, []⟩ := heq
  rcases hfirst : strtok isSep cmd with ⟨_ | t, saved⟩
  · rw [hfirst] at htok hruns
    have hnil : ts = [] := by
      have hsaved : saved = [] := (strtok_none hfirst).2
      have hlen := hruns.length_le.1
      rw [hsaved, List.length_nil] at hlen
      exact List.length_eq_zero_iff.mp (by omega)
    subst hnil
    exact ⟨[], _, .strtok_none hfirst, rfl, ⟨[none], rfl⟩, htok⟩
  · rw [hfirst] at htok hruns
    refine ⟨t :: ts, _, hruns.strtok hfirst, ?_, List.prefix_rfl, htok⟩
    rw [List.length_append, List.length_map, List.length_cons, List.length_singleton]
    omega

theorem tooMany_eq (newargs : Int → Option Bytes) (cmd : Bytes) :
    tooMany cmd = decide (maxArgs < (tokenize newargs cmd).i - 2) := by
  obtain ⟨ts, args, hruns, hlen, -, heq⟩ := tokenize_eq newargs cmd
  have hempty : ∀ t : Bytes, decide (t ≠ []) = !t.isEmpty := by
    intro t
    cases t <;> rfl
  have hts : tokens cmd = ts := by
    simp only [tokens, hempty]
    exact hruns.eq_splitOnP.symm
  rw [tooMany, hts, heq, foldl_store]
  simp only [Nat.zero_add, hlen, Nat.reduceSubDiff]

theorem getElem?_args (ts : List Bytes) {k : Nat} (h : k ≤ ts.length) :
    (ts.map some ++ [none])[k]? = some ts[k]? := by
  rcases Nat.lt_or_eq_of_le h with hlt | rfl
  · rw [List.getElem?_append_left (by rwa [List.length_map]), List.getElem?_map,
      List.getElem?_eq_getElem hlt]
    rfl
  · rw [← List.length_map (f := some), List.getElem?_concat_length, List.length_map,
      List.getElem?_eq_none (Nat.le_refl _)]

/-- A command that the shell can have read is split into at most half as many arguments as it has
characters, so that there is room for all of them. -/
theorem newargs_tokens (newargs : Int → Option Bytes) (cmd : CString)
    (h : cmd.bytes.length ≤ len - 2) :
    ∃ ts, Runs isSep cmd.bytes ts ∧ ts.length ≤ 64 ∧
      (∀ k : Nat, k < ts.length → (tokenize newargs cmd.bytes).newargs k = ts[k]?) ∧
      (tokenize newargs cmd.bytes).newargs ts.length = none ∧
      (∀ j ∈ (tokenize newargs cmd.bytes).stored, j < maxArgs) ∧
      ¬ maxArgs < (tokenize newargs cmd.bytes).i - 2 ∧ tooMany cmd.bytes = false := by
  obtain ⟨ts, args, hruns, hlen, ⟨more, hargs⟩, heq⟩ := tokenize_eq newargs cmd.bytes
  have hts := hruns.length_le.1
  rw [len] at h
  rw [tooMany_eq newargs, heq, foldl_store]
  have hget : ∀ k : Nat, k ≤ ts.length → put newargs 0 args k = ts[k]? := by
    intro k hk
    have hk' : args[k]? = some ts[k]? := by
      rw [← hargs, List.getElem?_append_left, getElem?_args ts hk]
      rw [List.length_append, List.length_map, List.length_singleton]
      omega
    exact put_begins newargs args k _ hk'
  have hfew : args.length ≤ maxArgs := by
    rw [hlen, maxArgs]
    omega
  refine ⟨ts, hruns, by omega, fun k hk => hget k (Nat.le_of_lt hk), ?_, ?_, ?_⟩
  · exact (hget _ (Nat.le_refl _)).trans (List.getElem?_eq_none (Nat.le_refl _))
  · intro j hj
    simp only [List.nil_append, List.mem_range'_1] at hj
    omega
  · simp only [Nat.zero_add, decide_eq_false_iff_not, and_self]
    omega

theorem newargs_tokens_ls :
    ∃ ts, Runs isSep (CString.lit "ls  -l /proc" (by decide)).bytes ts ∧
      ∀ k : Nat, k < ts.length →
        (tokenize (fun _ => none) (CString.lit "ls  -l /proc" (by decide)).bytes).newargs k =
          ts[k]? := by
  obtain ⟨ts, hruns, -, hargs, -⟩ :=
    newargs_tokens (fun _ => none) (CString.lit "ls  -l /proc" (by decide)) (by decide)
  exact ⟨ts, hruns, hargs⟩

end SysPrg.Shell
