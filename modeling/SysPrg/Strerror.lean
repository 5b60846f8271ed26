import SysPrg.Block
import SysPrg.Run
import SysPrg.Threads

namespace SysPrg.Strerror
set_option autoImplicit true

def maxErrorLen : Nat := 256

def lookup (sysErrlist : List (Option CString)) (err : Int) : Option CString :=
  if err < 0 then none else sysErrlist[err.toNat]?.join

def unknown (err : Int) : CString := .lit "Unknown error " (by decide) ++ .decimal err

def message (sysErrlist : List (Option CString)) (err : Int) : CString :=
  .snprintf maxErrorLen ((lookup sysErrlist err).getD (unknown err))

/-- The bytes that are stored into the buffer, one after the other. `strncpy` fills what is left of
it with NULs, and one more is stored behind. -/
def stores (sysErrlist : List (Option CString)) (err : Int) : Bytes :=
  match lookup sysErrlist err with
  | none => (CString.snprintf maxErrorLen (unknown err)).bytes ++ [0]
  | some m =>
    let bs := m.bytes.take (maxErrorLen - 1)
    bs ++ List.replicate (maxErrorLen - 1 - bs.length) 0 ++ [0]

/-- The three files with a `strerror`, which differ in where the buffer is. -/
inductive Impl where
  | static
  | tls
  | tsd
  deriving DecidableEq, Repr

inductive Ptr (θ : Type) where
  | static
  | tls (t : θ)
  | heap (k : Nat)
  deriving DecidableEq, Repr

/-- Where a thread is in `strerror`. Outside of it, it may have what its last call returned, and for
which error. In `copy` it stores byte `i` next. -/
inductive Pc (θ : Type) where
  | idle (got : Option (Ptr θ × Int))
  | once (err : Int)
  | createKey (err : Int)
  | getspecific (err : Int)
  | malloc (err : Int)
  | setspecific (err : Int) (buf : Ptr θ)
  | copy (err : Int) (buf : Ptr θ) (i : Nat)
  | exited
  deriving DecidableEq, Repr

inductive Once (θ : Type) where
  | init
  | running (t : θ)
  | done
  deriving DecidableEq, Repr

/-- The process. `tsd` has what the threads have under `strerrorKey`, of which `keys` were created,
and `live` are the heap blocks. It is `dead` when an error was handled. -/
structure Sys (θ : Type) where
  once : Once θ
  keys : Nat
  tsd : θ → Option (Ptr θ)
  live : Nat → Bool
  mem : Ptr θ → Bytes
  pc : θ → Pc θ
  dead : Bool

inductive Ev (θ : Type) where
  | call (t : θ) (err : Int)
  | step (t : θ) (a : Answer)
  | exit (t : θ)
  deriving DecidableEq, Repr

def Impl.enter (impl : Impl) (t : θ) (err : Int) : Pc θ :=
  match impl with
  | .static => .copy err .static 0
  | .tls => .copy err (.tls t) 0
  | .tsd => .once err

/-- `destructor`, for what a thread that ends has under the key. -/
def destructor (live : Nat → Bool) : Option (Ptr θ) → Nat → Bool
  | some (.heap k) => Function.update live k false
  | _ => live

section
variable {θ : Type} [DecidableEq θ]

def Sys.goto (s : Sys θ) (t : θ) (pc : Pc θ) : Sys θ :=
  { s with pc := Function.update s.pc t pc }

/-- `strerror`, with `pthread_once` and `createKey`. `malloc` may return any block that is free. -/
def Sys.strerror (sysErrlist : List (Option CString)) (s : Sys θ) (t : θ) (a : Answer) : Sys θ :=
  match s.pc t, a with
  | .idle _, _ | .exited, _ => s
  | .getspecific err, _ =>
    match s.tsd t with
    | none => s.goto t (.malloc err)
    | some buf => s.goto t (.copy err buf 0)
  | .copy err buf i, _ =>
    match (stores sysErrlist err)[i]? with
    | some b =>
      Sys.goto { s with mem := Function.update s.mem buf ((s.mem buf).set i b) } t
        (.copy err buf (i + 1))
    | none => s.goto t (.idle (some (buf, err)))
  | _, .fail _ => { s with dead := true }
  | .once err, .done _ =>
    match s.once with
    | .init => Sys.goto { s with once := .running t } t (.createKey err)
    | .running _ => s
    | .done => s.goto t (.getspecific err)
  | .createKey err, .done _ =>
    Sys.goto { s with once := .done, keys := s.keys + 1 } t (.getspecific err)
  | .malloc err, .done k =>
    if s.live k then s
    else Sys.goto { s with live := Function.update s.live k true } t (.setspecific err (.heap k))
  | .setspecific err buf, .done _ =>
    Sys.goto { s with tsd := Function.update s.tsd t (some buf) } t (.copy err buf 0)

def Sys.step (sysErrlist : List (Option CString)) (impl : Impl) (s : Sys θ) (e : Ev θ) : Sys θ :=
  if s.dead then s
  else
    match e with
    | .call t err =>
      match s.pc t with
      | .idle _ => s.goto t (impl.enter t err)
      | _ => s
    | .step t a => s.strerror sysErrlist t a
    | .exit t =>
      match s.pc t with
      | .idle _ =>
        Sys.goto
          { s with
            live := destructor s.live (s.tsd t)
            tsd := Function.update s.tsd t none } t .exited
      | _ => s

end

/-- What is in memory before a store is arbitrary. -/
def Sys.start (mem : Ptr θ → Bytes) : Sys θ :=
  ⟨.init, 0, fun _ => none, fun _ => false, mem, fun _ => .idle none, false⟩

theorem stores_eq (sysErrlist : List (Option CString)) (err : Int) :
    ∃ k, stores sysErrlist err = (message sysErrlist err).bytes ++ 0 :: List.replicate k 0 ∧
      (message sysErrlist err).bytes.length + 1 + k ≤ maxErrorLen := by
  unfold stores message
  cases lookup sysErrlist err with
  | none =>
    refine ⟨0, rfl, ?_⟩
    rw [Option.getD_none, CString.snprintf, List.length_take]
    exact Nat.add_le_add_right (Nat.min_le_left _ _) 1
  | some m =>
    have hle : (m.bytes.take (maxErrorLen - 1)).length ≤ maxErrorLen - 1 := by
      rw [List.length_take]
      exact Nat.min_le_left _ _
    refine ⟨maxErrorLen - 1 - (m.bytes.take (maxErrorLen - 1)).length, ?_, ?_⟩
    · show m.bytes.take (maxErrorLen - 1) ++ List.replicate _ 0 ++ [0] =
        m.bytes.take (maxErrorLen - 1) ++ 0 :: List.replicate _ 0
      rw [List.append_assoc, ← List.replicate_succ', List.replicate_succ]
    · rw [Option.getD_some, CString.snprintf]
      simp only [maxErrorLen] at hle ⊢
      omega

theorem stores_length (sysErrlist : List (Option CString)) (err : Int) :
    (stores sysErrlist err).length ≤ maxErrorLen := by
  obtain ⟨k, heq, hle⟩ := stores_eq sysErrlist err
  rw [heq, List.length_append, List.length_cons, List.length_replicate]
  omega

/-- What the buffer has from its beginning, when all is stored, is the message. -/
theorem cStr_of_stores (h : stores sysErrlist err <+: bs) :
    cStr bs = (message sysErrlist err).bytes := by
  obtain ⟨rest, rfl⟩ := h
  obtain ⟨k, heq, -⟩ := stores_eq sysErrlist err
  rw [heq, List.append_assoc, List.cons_append]
  exact cStr_append (message sysErrlist err).noNul _

theorem destructor_eq_true (live : Nat → Bool) (o : Option (Ptr θ)) (j : Nat) :
    destructor live o j = true ↔ o ≠ some (.heap j) ∧ live j = true := by
  have hother : o ≠ some (.heap j) → (live j = true ↔ o ≠ some (.heap j) ∧ live j = true) :=
    fun hne => ⟨fun hj => ⟨hne, hj⟩, fun hj => hj.2⟩
  cases o with
  | none => exact hother nofun
  | some p =>
    cases p with
    | static | tls u => exact hother nofun
    | heap k =>
      by_cases hj : j = k
      · subst hj
        rw [destructor, Function.update_self]
        exact ⟨nofun, fun hn => (hn.1 rfl).elim⟩
      · rw [destructor, Function.update_of_ne hj]
        exact hother fun he => hj (by cases he; rfl)

theorem prefix_set {bs buf : Bytes} (h : bs.take i <+: buf) (hi : bs[i]? = some b)
    (hlen : bs.length ≤ buf.length) : bs.take (i + 1) <+: buf.set i b := by
  obtain ⟨hlt, hget⟩ := List.getElem?_eq_some_iff.1 hi
  obtain ⟨rest, rfl⟩ := h
  have htake : (bs.take i).length = i := List.length_take_of_le hlt.le
  rw [List.take_add_one, hi, List.set_append_right _ _ htake.le, htake, Nat.sub_self]
  cases rest with
  | nil =>
    rw [List.append_nil, htake] at hlen
    exact (Nat.not_lt.2 hlen hlt).elim
  | cons x rest =>
    rw [List.set_cons_zero]
    exact ⟨rest, by rw [Option.toList_some, List.append_assoc]; rfl⟩

/-- The buffer that a thread has, under the key or on the way there. -/
def own (impl : Impl) (t : θ) (tsd : Option (Ptr θ)) (pc : Pc θ) : Option (Ptr θ) :=
  match impl, pc with
  | .static, _ => some .static
  | .tls, _ => some (.tls t)
  | .tsd, .setspecific _ buf => some buf
  | .tsd, _ => tsd

def Pc.setting : Pc θ → Bool
  | .setspecific _ _ => true
  | _ => false

theorem own_congr {pc pc' : Pc θ} (h : pc.setting = false) (h' : pc'.setting = false)
    (impl : Impl) (t : θ) (tsd : Option (Ptr θ)) : own impl t tsd pc' = own impl t tsd pc := by
  have hown : ∀ pc : Pc θ, pc.setting = false → own .tsd t tsd pc = tsd := by
    intro pc hpc
    cases pc with
    | setspecific => cases hpc
    | _ => rfl
  cases impl with
  | static | tls => rfl
  | tsd => rw [hown pc h, hown pc' h']

def Sys.own (impl : Impl) (s : Sys θ) (t : θ) : Option (Ptr θ) :=
  Strerror.own impl t (s.tsd t) (s.pc t)

/-- What is true of a thread at each place: it stores to its own buffer, which has what was stored
so far, and what it was returned is still there. -/
def Pc.Fits (sysErrlist : List (Option CString)) (impl : Impl) (o tsd : Option (Ptr θ))
    (mem : Ptr θ → Bytes) : Pc θ → Prop
  | .idle none => True
  | .exited => impl = .tsd → o = none
  | .idle (some (buf, err)) => o = some buf ∧ stores sysErrlist err <+: mem buf
  | .once _ | .createKey _ | .getspecific _ => impl = .tsd
  | .malloc _ | .setspecific _ _ => impl = .tsd ∧ tsd = none
  | .copy err buf i => o = some buf ∧ (stores sysErrlist err).take i <+: mem buf

theorem Pc.Fits.congr {pc : Pc θ} (h : pc.Fits sysErrlist impl o tsd mem)
    (hmem : ∀ buf, o = some buf → mem' buf = mem buf) : pc.Fits sysErrlist impl o tsd mem' := by
  cases pc with
  | idle got =>
    cases got with
    | none => trivial
    | some x => exact ⟨h.1, (hmem x.1 h.1).symm ▸ h.2⟩
  | copy err buf i => exact ⟨h.1, (hmem buf h.1).symm ▸ h.2⟩
  | _ => exact h

/-- The buffers of two threads are apart, and the heap has just those that a thread has. -/
structure Inv (sysErrlist : List (Option CString)) (impl : Impl) (s : Sys θ) : Prop where
  apart : ∀ t u buf, s.own impl t = some buf → s.own impl u = some buf → t = u
  plain : impl ≠ .tsd → ∀ t, s.tsd t = none
  kind : impl = .tsd → ∀ t buf, s.own impl t = some buf → ∃ k, buf = .heap k
  heap : ∀ k, s.live k = true ↔ ∃ t, s.own impl t = some (.heap k)
  fits : ∀ t, (s.pc t).Fits sysErrlist impl (s.own impl t) (s.tsd t) s.mem
  room : ∀ buf, (s.mem buf).length = maxErrorLen

theorem Inv.start (himpl : impl ≠ .static) {mem : Ptr θ → Bytes}
    (hmem : ∀ p, (mem p).length = maxErrorLen) : Inv sysErrlist impl (.start mem) := by
  cases impl with
  | static => exact (himpl rfl).elim
  | tls =>
    refine ⟨?_, fun _ _ => rfl, nofun, fun k => ⟨nofun, ?_⟩, fun _ => trivial, hmem⟩
    · intro t u buf ht hu
      cases ht
      cases hu
      rfl
    · rintro ⟨t, ht⟩
      cases ht
  | tsd =>
    refine ⟨nofun, fun _ _ => rfl, nofun, fun k => ⟨nofun, ?_⟩, fun _ => trivial, hmem⟩
    rintro ⟨t, ht⟩
    cases ht

def Once.holder : Once θ → Option θ
  | .running t => some t
  | .init | .done => none

def Once.made : Once θ → Nat
  | .done => 1
  | .init | .running _ => 0

def Pc.creating : Pc θ → Bool
  | .createKey _ => true
  | _ => false

def Pc.keyed : Pc θ → Bool
  | .getspecific _ | .malloc _ | .setspecific _ _ => true
  | _ => false

/-- `createKey` is run by one thread, and the key is there before it is used. -/
structure KeyInv (s : Sys θ) : Prop where
  held : HeldAt Pc.creating s.pc s.once.holder
  made : s.keys = s.once.made
  used : ∀ t, (s.pc t).keyed = true → s.once = .done

theorem KeyInv.start (mem : Ptr θ → Bytes) : KeyInv (.start mem) where
  held _ := ⟨nofun, nofun⟩
  made := rfl
  used := nofun

section
variable {θ : Type} [DecidableEq θ] {s s' : Sys θ} {t u : θ}

theorem own_update (hpc : s'.pc = Function.update s.pc t pc')
    (htsd : s'.tsd = Function.update s.tsd t tsd') (u : θ) :
    s'.own impl u = if u = t then own impl t tsd' pc' else s.own impl u := by
  rw [Sys.own, hpc, htsd]
  by_cases hu : u = t
  · rw [if_pos hu, hu, Function.update_self, Function.update_self]
  · rw [if_neg hu, Function.update_of_ne hu, Function.update_of_ne hu]
    rfl

theorem Inv.keep (h : Inv sysErrlist impl s) (hpc : s'.pc = Function.update s.pc t pc')
    (htsd : s'.tsd = Function.update s.tsd t tsd') (hlive : s'.live = s.live)
    (hplain : impl ≠ .tsd → tsd' = none) (hown : own impl t tsd' pc' = s.own impl t)
    (hmem : ∀ buf, s.own impl t ≠ some buf → s'.mem buf = s.mem buf)
    (hroom : ∀ buf, (s'.mem buf).length = (s.mem buf).length)
    (hfits : pc'.Fits sysErrlist impl (s.own impl t) tsd' s'.mem) : Inv sysErrlist impl s' := by
  have hsame : ∀ u, s'.own impl u = s.own impl u := by
    intro u
    rw [own_update hpc htsd]
    split
    case isTrue hu => rw [hown, hu]
    case isFalse => rfl
  refine ⟨?_, ?_, ?_, ?_, ?_, fun buf => (hroom buf).trans (h.room buf)⟩
  · intro u v buf hu hv
    rw [hsame] at hu hv
    exact h.apart u v buf hu hv
  · intro himpl
    rw [htsd]
    exact (Function.forall_update_iff s.tsd fun _ (x : Option (Ptr θ)) => x = none).2
      ⟨hplain himpl, fun u _ => h.plain himpl u⟩
  · intro htsd u buf hu
    rw [hsame] at hu
    exact h.kind htsd u buf hu
  · intro k
    simp only [hsame, hlive]
    exact h.heap k
  · intro u
    rw [hsame, hpc, htsd]
    by_cases hu : u = t
    · rw [hu, Function.update_self, Function.update_self]
      exact hfits
    · rw [Function.update_of_ne hu, Function.update_of_ne hu]
      apply (h.fits u).congr
      intro buf hbuf
      apply hmem
      intro ht
      exact hu (h.apart u t buf hbuf ht)

theorem Inv.move (h : Inv sysErrlist impl s) (hpc : s'.pc = Function.update s.pc t pc')
    (htsd : s'.tsd = s.tsd) (hlive : s'.live = s.live) (hmem : s'.mem = s.mem)
    (hown : own impl t (s.tsd t) pc' = s.own impl t)
    (hfits : pc'.Fits sysErrlist impl (s.own impl t) (s.tsd t) s.mem) : Inv sysErrlist impl s' := by
  refine h.keep hpc (htsd.trans (Function.update_eq_self t s.tsd).symm) hlive
    (fun himpl => h.plain himpl t) hown (fun buf _ => congrFun hmem buf) (fun buf => ?_)
    (hmem.symm ▸ hfits)
  rw [hmem]

theorem Inv.malloc (h : Inv sysErrlist .tsd s) (hpc : s.pc t = .malloc err)
    (hfree : s.live k = false)
    (hpc' : s'.pc = Function.update s.pc t (.setspecific err (.heap k))) (htsd : s'.tsd = s.tsd)
    (hlive : s'.live = Function.update s.live k true) (hmem : s'.mem = s.mem) :
    Inv sysErrlist .tsd s' := by
  have hown : ∀ u, s'.own .tsd u = if u = t then some (.heap k) else s.own .tsd u :=
    own_update hpc' (htsd.trans (Function.update_eq_self t s.tsd).symm)
  have hnone : s.own .tsd t = none := by
    have hfits := h.fits t
    rw [hpc] at hfits
    rw [Sys.own, hpc]
    exact hfits.2
  -- nobody has a block that is free
  have hnot : ∀ u, s.own .tsd u ≠ some (.heap k) := by
    intro u hu
    cases hfree.symm.trans ((h.heap k).2 ⟨u, hu⟩)
  refine ⟨?_, fun hne => (hne rfl).elim, ?_, ?_, ?_, hmem ▸ h.room⟩
  · intro u v buf hu hv
    rw [hown] at hu hv
    split at hu <;> split at hv
    case isTrue.isTrue hut hvt => exact hut.trans hvt.symm
    case isTrue.isFalse => cases hu; exact (hnot v hv).elim
    case isFalse.isTrue => cases hv; exact (hnot u hu).elim
    case isFalse.isFalse => exact h.apart u v buf hu hv
  · intro _ u buf hu
    rw [hown] at hu
    split at hu
    · exact ⟨k, (Option.some.inj hu).symm⟩
    · exact h.kind rfl u buf hu
  · intro j
    rw [hlive]
    by_cases hj : j = k
    · subst hj
      rw [Function.update_self]
      exact ⟨fun _ => ⟨t, (hown t).trans (if_pos rfl)⟩, fun _ => rfl⟩
    · rw [Function.update_of_ne hj, h.heap j]
      refine exists_congr fun u => ?_
      rw [hown]
      split
      case isTrue hu =>
        rw [hu, hnone]
        refine ⟨nofun, fun he => ?_⟩
        cases he
        exact (hj rfl).elim
      case isFalse => rfl
  · intro u
    rw [hown, hpc', htsd, hmem]
    by_cases hu : u = t
    · rw [hu, Function.update_self]
      have hfits := h.fits t
      rw [hpc] at hfits
      exact hfits
    · rw [Function.update_of_ne hu, if_neg hu]
      exact h.fits u

theorem Inv.exit (h : Inv sysErrlist impl s) (hpc : s.pc t = .idle got)
    (hpc' : s'.pc = Function.update s.pc t .exited) (htsd : s'.tsd = Function.update s.tsd t none)
    (hlive : s'.live = destructor s.live (s.tsd t)) (hmem : s'.mem = s.mem) :
    Inv sysErrlist impl s' := by
  by_cases himpl : impl = .tsd
  case neg =>
    have hlive' : s'.live = s.live := by
      rw [hlive, h.plain himpl t]
      rfl
    refine h.keep hpc' htsd hlive' (fun _ => rfl) ?_ (fun buf _ => congrFun hmem buf)
      (fun buf => by rw [hmem]) fun htsd => (himpl htsd).elim
    cases impl with
    | static | tls => rfl
    | tsd => exact (himpl rfl).elim
  case pos =>
    subst himpl
    have hown : ∀ u, s'.own .tsd u = if u = t then none else s.own .tsd u := own_update hpc' htsd
    have hmine : s.own .tsd t = s.tsd t := by
      rw [Sys.own, hpc]
      rfl
    refine ⟨?_, fun hne => (hne rfl).elim, ?_, ?_, ?_, hmem ▸ h.room⟩
    · intro u v buf hu hv
      rw [hown] at hu hv
      split at hu <;> split at hv
      case isTrue.isTrue | isTrue.isFalse => cases hu
      case isFalse.isTrue => cases hv
      case isFalse.isFalse => exact h.apart u v buf hu hv
    · intro _ u buf hu
      rw [hown] at hu
      split at hu
      · cases hu
      · exact h.kind rfl u buf hu
    · intro j
      rw [hlive]
      have hrest : (∃ u, s'.own .tsd u = some (.heap j)) ↔
          s.tsd t ≠ some (.heap j) ∧ ∃ u, s.own .tsd u = some (.heap j) := by
        constructor
        · rintro ⟨u, hu⟩
          rw [hown] at hu
          split at hu
          case isTrue => cases hu
          case isFalse hut =>
            refine ⟨fun ht => hut ?_, u, hu⟩
            exact h.apart u t _ hu (hmine.trans ht)
        · rintro ⟨hne, u, hu⟩
          refine ⟨u, ?_⟩
          rw [hown, if_neg, hu]
          rintro rfl
          exact hne (hmine.symm.trans hu)
      rw [hrest, ← h.heap j]
      exact destructor_eq_true s.live (s.tsd t) j
    · intro u
      rw [hown, hpc', htsd, hmem]
      by_cases hu : u = t
      · rw [hu, Function.update_self, Function.update_self, if_pos rfl]
        exact fun _ => rfl
      · rw [Function.update_of_ne hu, Function.update_of_ne hu, if_neg hu]
        exact h.fits u

theorem Inv.strerror (h : Inv sysErrlist impl s) (t : θ) (a : Answer) :
    Inv sysErrlist impl (s.strerror sysErrlist t a) := by
  have hfits := h.fits t
  have hsame : ∀ pc', (s.pc t).setting = false → pc'.setting = false →
      own impl t (s.tsd t) pc' = s.own impl t :=
    fun pc' hpc hpc' => own_congr hpc hpc' impl t (s.tsd t)
  unfold Sys.strerror
  split
  case h_1 => exact h
  case h_2 => exact h
  case h_3 err hpc =>
    rw [hpc] at hfits hsame
    obtain rfl : impl = .tsd := hfits
    have hmine : s.tsd t = s.own .tsd t := hsame (.getspecific err) rfl rfl
    split
    case h_1 hnone => exact h.move rfl rfl rfl rfl hmine ⟨rfl, hnone⟩
    case h_2 buf hbuf => exact h.move rfl rfl rfl rfl hmine ⟨hmine.symm.trans hbuf, List.nil_prefix⟩
  case h_4 err buf i hpc =>
    rw [hpc] at hfits hsame
    split
    case h_1 b hb =>
      refine h.keep rfl (Function.update_eq_self t s.tsd).symm rfl (fun himpl => h.plain himpl t)
        (hsame _ rfl rfl) ?_ ?_ ⟨hfits.1, ?_⟩
      · intro buf' hne
        have hbuf : buf' ≠ buf := by
          rintro rfl
          exact hne hfits.1
        exact Function.update_of_ne hbuf ..
      · exact (Function.forall_update_iff s.mem fun p (x : Bytes) =>
          x.length = (s.mem p).length).2 ⟨List.length_set, fun _ _ => rfl⟩
      · show _ <+: Function.update s.mem buf _ buf
        rw [Function.update_self]
        exact prefix_set hfits.2 hb ((stores_length sysErrlist err).trans (h.room buf).ge)
    case h_2 hend =>
      have hlen := List.getElem?_eq_none_iff.1 hend
      refine h.move rfl rfl rfl rfl (hsame _ rfl rfl) ⟨hfits.1, ?_⟩
      rw [← List.take_of_length_le hlen]
      exact hfits.2
  case h_5 => exact { h with }
  case h_6 err _ hpc =>
    rw [hpc] at hfits hsame
    split
    · exact h.move rfl rfl rfl rfl (hsame _ rfl rfl) hfits
    · exact h
    · exact h.move rfl rfl rfl rfl (hsame _ rfl rfl) hfits
  case h_7 err _ hpc =>
    rw [hpc] at hfits hsame
    exact h.move rfl rfl rfl rfl (hsame _ rfl rfl) hfits
  case h_8 err k hpc =>
    rw [hpc] at hfits
    obtain rfl := hfits.1
    split
    · exact h
    case isFalse hfree => exact h.malloc hpc (Bool.eq_false_iff.2 hfree) rfl rfl rfl rfl
  case h_9 err buf _ hpc =>
    rw [hpc] at hfits
    obtain rfl := hfits.1
    have hmine : some buf = s.own .tsd t := by
      rw [Sys.own, hpc]
      rfl
    exact h.keep rfl rfl rfl (fun himpl => (himpl rfl).elim) hmine (fun _ _ => rfl) (fun _ => rfl)
      ⟨hmine.symm, List.nil_prefix⟩

theorem Inv.call (h : Inv sysErrlist impl s) (hpc : s.pc t = .idle got) (err : Int) :
    Inv sysErrlist impl (s.goto t (impl.enter t err)) := by
  have hsame : ∀ pc' : Pc θ, pc'.setting = false → own impl t (s.tsd t) pc' = s.own impl t := by
    intro pc' hpc'
    refine own_congr ?_ hpc' impl t (s.tsd t)
    rw [hpc]
    rfl
  cases impl with
  | static | tls => exact h.move rfl rfl rfl rfl (hsame _ rfl) ⟨rfl, List.nil_prefix⟩
  | tsd => exact h.move rfl rfl rfl rfl (hsame _ rfl) rfl

theorem Inv.step (h : Inv sysErrlist impl s) (e : Ev θ) :
    Inv sysErrlist impl (s.step sysErrlist impl e) := by
  unfold Sys.step
  split
  case isTrue => exact h
  case isFalse =>
    cases e with
    | call t err =>
      show Inv sysErrlist impl (match s.pc t with | .idle _ => _ | _ => s)
      split
      case h_1 hpc => exact h.call hpc err
      case h_2 => exact h
    | step t a => exact h.strerror t a
    | exit t =>
      show Inv sysErrlist impl (match s.pc t with | .idle _ => _ | _ => s)
      split
      case h_1 hpc => exact h.exit hpc rfl rfl rfl rfl
      case h_2 => exact h

/-- With the buffer in thread-local storage or under a key, what a call has returned to a thread
stays as it is, whatever the other threads do, and no other thread is returned the same buffer. -/
theorem strerror_reentrant (sysErrlist : List (Option CString)) (himpl : impl ≠ .static)
    {mem : Ptr θ → Bytes} (hmem : ∀ p, (mem p).length = maxErrorLen) (es : List (Ev θ))
    (ht : (run (Sys.step sysErrlist impl) (.start mem) es).pc t = .idle (some (buf, err))) :
    cStr ((run (Sys.step sysErrlist impl) (.start mem) es).mem buf) =
        (message sysErrlist err).bytes ∧
      ∀ u err', (run (Sys.step sysErrlist impl) (.start mem) es).pc u = .idle (some (buf, err')) →
        u = t := by
  have h : Inv sysErrlist impl (run (Sys.step sysErrlist impl) (.start mem) es) :=
    run_invariant (Inv sysErrlist impl) (fun _ e hs => hs.step e) (.start himpl hmem) es
  have hfits := h.fits t
  rw [ht] at hfits
  refine ⟨cStr_of_stores hfits.2, ?_⟩
  intro u err' hu
  have hfits' := h.fits u
  rw [hu] at hfits'
  exact h.apart u t buf hfits'.1 hfits.1

def oneError : List (Option CString) := [some ⟨[69], by decide⟩]

/-- One thread has its message, and the other one is at its third byte. -/
def twoCalls : List (Ev Bool) :=
  .call false 0 :: List.replicate 257 (.step false (.done 0)) ++
    [.call true 1, .step true (.done 0), .step true (.done 0)]

theorem strerror_reentrant_two :
    (run (Sys.step oneError .tls) (.start fun _ => List.replicate 256 7) twoCalls).pc true =
        .copy 1 (.tls true) 2 ∧
      cStr ((run (Sys.step oneError .tls) (.start fun _ => List.replicate 256 7) twoCalls).mem
        (.tls false)) = [69] := by
  have hpc : (run (Sys.step oneError .tls) (.start fun _ => List.replicate 256 7) twoCalls).pc
      false = .idle (some (.tls false, 0)) := by decide +kernel
  have himpl : Impl.tls ≠ .static := nofun
  have hmem : ∀ _ : Ptr Bool, (List.replicate 256 (7 : UInt8)).length = maxErrorLen :=
    fun _ => List.length_replicate
  have hmessage : (message oneError 0).bytes = [69] := by decide +kernel
  exact ⟨by decide +kernel, (strerror_reentrant oneError himpl hmem twoCalls hpc).1.trans hmessage⟩

theorem KeyInv.move (h : KeyInv s) (hpc : s'.pc = Function.update s.pc t pc')
    (honce : s'.once = s.once) (hkeys : s'.keys = s.keys)
    (hcreating : pc'.creating = (s.pc t).creating) (hkeyed : pc'.keyed = true → s.once = .done) :
    KeyInv s' where
  held := by
    rw [hpc, honce]
    exact h.held.stay hcreating
  made := by rw [hkeys, honce, h.made]
  used := by
    rw [hpc, honce]
    exact (Function.forall_update_iff s.pc fun _ (x : Pc θ) => x.keyed = true → s.once = .done).2
      ⟨hkeyed, fun u _ => h.used u⟩

theorem KeyInv.strerror (h : KeyInv s) (t : θ) (a : Answer) :
    KeyInv (s.strerror sysErrlist t a) := by
  have hused := h.used t
  unfold Sys.strerror
  split
  case h_1 => exact h
  case h_2 => exact h
  case h_3 err hpc =>
    rw [hpc] at hused
    split
    · exact h.move rfl rfl rfl (by rw [hpc]; rfl) hused
    · exact h.move rfl rfl rfl (by rw [hpc]; rfl) nofun
  case h_4 err buf i hpc =>
    split
    · exact h.move rfl rfl rfl (by rw [hpc]; rfl) nofun
    · exact h.move rfl rfl rfl (by rw [hpc]; rfl) nofun
  case h_5 => exact { h with }
  case h_6 err _ hpc =>
    split
    case h_1 honce =>
      have hheld := h.held
      rw [honce] at hheld
      refine ⟨hheld.enter rfl, by rw [h.made, honce]; rfl, ?_⟩
      refine (Function.forall_update_iff s.pc fun _ (x : Pc θ) => x.keyed = true → _).2
        ⟨nofun, fun u _ hu => ?_⟩
      cases honce.symm.trans (h.used u hu)
    case h_2 => exact h
    case h_3 honce => exact h.move rfl rfl rfl (by rw [hpc]; rfl) fun _ => honce
  case h_7 err _ hpc =>
    have honce : s.once.holder = some t := (h.held t).1 (by rw [hpc]; rfl)
    have hheld := h.held
    rw [honce] at hheld
    refine ⟨hheld.leave rfl, ?_, fun _ _ => rfl⟩
    have hmade := h.made
    cases ho : s.once with
    | running u =>
      rw [ho] at hmade
      exact congrArg (· + 1) hmade
    | init | done =>
      rw [ho] at honce
      cases honce
  case h_8 err k hpc =>
    rw [hpc] at hused
    split
    · exact h
    · exact h.move rfl rfl rfl (by rw [hpc]; rfl) hused
  case h_9 err buf _ hpc => exact h.move rfl rfl rfl (by rw [hpc]; rfl) nofun

theorem KeyInv.step (h : KeyInv s) (e : Ev θ) : KeyInv (s.step sysErrlist impl e) := by
  unfold Sys.step
  split
  case isTrue => exact h
  case isFalse =>
    cases e with
    | call t err =>
      show KeyInv (match s.pc t with | .idle _ => _ | _ => s)
      split
      case h_1 hpc => cases impl <;> exact h.move rfl rfl rfl (by rw [hpc]; rfl) nofun
      case h_2 => exact h
    | step t a => exact h.strerror t a
    | exit t =>
      show KeyInv (match s.pc t with | .idle _ => _ | _ => s)
      split
      case h_1 hpc => exact h.move rfl rfl rfl (by rw [hpc]; rfl) nofun
      case h_2 => exact h

/-- However many threads call `strerror` for the first time at once, there is one key, and no thread
uses it before it is there. A block is allocated exactly as long as one thread has it, so that none
is leaked and none freed twice, and a thread that has ended has none. -/
theorem strerror_tsd_blocks (sysErrlist : List (Option CString)) {mem : Ptr θ → Bytes}
    (hmem : ∀ p, (mem p).length = maxErrorLen) (es : List (Ev θ)) :
    let s := run (Sys.step sysErrlist .tsd) (.start mem) es
    (s.keys ≤ 1 ∧ ∀ t, (s.pc t).keyed = true → s.keys = 1) ∧
      (∀ k, s.live k = true ↔ ∃! t, s.own .tsd t = some (.heap k)) ∧
      ∀ t, s.pc t = .exited → s.own .tsd t = none := by
  intro s
  have hkey : KeyInv s := run_invariant KeyInv (fun _ e hs => hs.step e) (.start mem) es
  have himpl : Impl.tsd ≠ .static := nofun
  have h : Inv sysErrlist .tsd s :=
    run_invariant (Inv sysErrlist .tsd) (fun _ e hs => hs.step e) (.start himpl hmem) es
  refine ⟨⟨?_, ?_⟩, ?_, ?_⟩
  · rw [hkey.made]
    cases s.once with
    | init | running => exact Nat.zero_le 1
    | done => exact Nat.le_refl 1
  · intro t ht
    rw [hkey.made, hkey.used t ht]
    rfl
  · intro k
    rw [h.heap k]
    constructor
    · rintro ⟨t, ht⟩
      exact ⟨t, ht, fun u hu => h.apart u t _ hu ht⟩
    · exact ExistsUnique.exists
  · intro t ht
    have hfits := h.fits t
    rw [ht] at hfits
    exact hfits rfl

/-- Two first calls at once: one thread creates the key and the other one waits, and `malloc` does
not give them the same block. -/
theorem strerror_tsd_blocks_two :
    let s := run (Sys.step oneError .tsd) (.start fun _ => List.replicate 256 7)
      [.call false 0, .call true 0, .step false (.done 0), .step true (.done 0),
        .step false (.done 0), .step true (.done 0), .step false (.done 0), .step true (.done 0),
        .step false (.done 3), .step true (.done 3)]
    s.live 3 = true ∧ ∃! t, s.own .tsd t = some (.heap 3) := by
  intro s
  have hlive : s.live 3 = true := by decide +kernel
  exact ⟨hlive, ((strerror_tsd_blocks oneError (fun _ => List.length_replicate) _).2.1 3).1 hlive⟩

end

end SysPrg.Strerror
