import Mathlib.Data.List.Basic
import Mathlib.Logic.Function.Basic
import SysPrg.Run

namespace SysPrg
set_option autoImplicit true

inductive QueueEv (μ : Type) where
  | sent (m : μ)
  | received (m : μ)
  deriving DecidableEq, Repr

namespace QueueEv

def sent? : QueueEv μ → Option μ
  | .sent m => some m
  | .received _ => none

def received? : QueueEv μ → Option μ
  | .sent _ => none
  | .received m => some m

end QueueEv

def allSent (hist : List (QueueEv μ)) : List μ := hist.filterMap QueueEv.sent?

def allReceived (hist : List (QueueEv μ)) : List μ := hist.filterMap QueueEv.received?

@[simp] theorem allSent_sent (hist : List (QueueEv μ)) (m : μ) :
    allSent (hist ++ [.sent m]) = allSent hist ++ [m] :=
  List.filterMap_append

@[simp] theorem allSent_received (hist : List (QueueEv μ)) (m : μ) :
    allSent (hist ++ [.received m]) = allSent hist :=
  List.filterMap_append.trans (List.append_nil _)

@[simp] theorem allReceived_sent (hist : List (QueueEv μ)) (m : μ) :
    allReceived (hist ++ [.sent m]) = allReceived hist :=
  List.filterMap_append.trans (List.append_nil _)

@[simp] theorem allReceived_received (hist : List (QueueEv μ)) (m : μ) :
    allReceived (hist ++ [.received m]) = allReceived hist ++ [m] :=
  List.filterMap_append

def doneBy [DecidableEq ι] (i : ι) (hist : List (ι × QueueEv μ)) : List (QueueEv μ) :=
  (hist.filter fun a => a.1 = i).map Prod.snd

section

variable [DecidableEq ι]

theorem doneBy_self (i : ι) (hist : List (ι × QueueEv μ)) (e : QueueEv μ) :
    doneBy i (hist ++ [(i, e)]) = doneBy i hist ++ [e] := by
  simp only [doneBy, List.filter_append, List.filter_singleton, decide_true, cond_true,
    List.map_append, List.map_cons, List.map_nil]

theorem doneBy_of_ne (h : j ≠ i) (hist : List (ι × QueueEv μ)) (e : QueueEv μ) :
    doneBy i (hist ++ [(j, e)]) = doneBy i hist := by
  simp only [doneBy, List.filter_append, List.filter_singleton, h, decide_false, cond_false,
    List.append_nil]

/-- What ties every party to what it did stays so when one of them does one thing more. -/
theorem forall_doneBy [DecidableEq α] {party : α → ι} (hinj : Function.Injective party)
    {x : α → ξ} (R : α → ξ → List (QueueEv μ) → Prop)
    (h : ∀ b, R b (x b) (doneBy (party b) hist)) (ha : R a y (doneBy (party a) hist ++ [e])) :
    ∀ b, R b (Function.update x a y b) (doneBy (party b) (hist ++ [(party a, e)])) := by
  refine (Function.forall_update_iff x fun b z =>
    R b z (doneBy (party b) (hist ++ [(party a, e)]))).2 ⟨?_, fun b hb => ?_⟩
  · rw [doneBy_self]
    exact ha
  · rw [doneBy_of_ne fun he => hb (hinj he).symm]
    exact h b

end

section

variable [DecidableEq κ] {kind : μ → κ}

theorem filter_kind_pull {pre : List μ} (hpre : ∀ x ∈ pre, kind x ≠ kind m) (post : List μ)
    (k : κ) :
    (pre ++ m :: post).filter (fun x => kind x = k) =
      [m].filter (fun x => kind x = k) ++ (pre ++ post).filter fun x => kind x = k := by
  rw [← List.singleton_append, List.filter_append, List.filter_append, List.filter_append]
  by_cases hmk : kind m = k
  · have hnone : pre.filter (fun x => kind x = k) = [] := by
      rw [List.filter_eq_nil_iff]
      intro x hx hxk
      exact hpre x hx ((of_decide_eq_true hxk).trans hmk.symm)
    rw [hnone]
    rfl
  · have hnone : [m].filter (fun x => kind x = k) = [] := by
      rw [List.filter_singleton, decide_eq_false hmk]
      rfl
    rw [hnone]
    rfl

end

/-- Within each kind, messages come out in the order in which they went in, and what has not come
out is in the queue. -/
def Fifo [DecidableEq κ] (kind : μ → κ) (q₀ q : List μ) (hist : List (QueueEv μ)) : Prop :=
  ∀ k, (q₀ ++ allSent hist).filter (fun m => kind m = k) =
    (allReceived hist).filter (fun m => kind m = k) ++ q.filter fun m => kind m = k

namespace Fifo

variable [DecidableEq κ] {kind : μ → κ}

theorem refl (kind : μ → κ) (q : List μ) : Fifo kind q q [] := fun k => by
  rw [allSent, allReceived, List.filterMap_nil, List.filterMap_nil, List.append_nil]
  rfl

theorem send (h : Fifo kind q₀ q hist) (m : μ) : Fifo kind q₀ (q ++ [m]) (hist ++ [.sent m]) := by
  intro k
  rw [allSent_sent, allReceived_sent, ← List.append_assoc, List.filter_append, h k,
    List.filter_append, List.append_assoc]

/-- A receiver that looks only at the kind takes the first message of a kind. -/
theorem receive (h : Fifo kind q₀ q hist) {p : μ → Bool}
    (hp : ∀ x y, kind x = kind y → p x = p y) (hm : q.find? p = some m) :
    Fifo kind q₀ (q.eraseP p) (hist ++ [.received m]) := by
  obtain ⟨hpm, pre, post, rfl, hpre⟩ := List.find?_eq_some_iff_append.1 hm
  have herase : (pre ++ m :: post).eraseP p = pre ++ post := by
    rw [List.eraseP_append_right _ fun x hx => by simpa using hpre x hx,
      List.eraseP_cons_of_pos hpm]
  -- what is in front of the message is of other kinds
  have hother : ∀ x ∈ pre, kind x ≠ kind m := by
    intro x hx he
    have hpx := hpre x hx
    rw [hp x m he, hpm] at hpx
    cases hpx
  intro k
  rw [allSent_received, allReceived_received, h k, herase, filter_kind_pull hother,
    ← List.append_assoc, ← List.filter_append]

end Fifo

/-- What a call can do to a queue: a receiver looks only at the kind. -/
inductive Queued (kind : μ → κ) (q : List μ) : List μ → Option (QueueEv μ) → Prop where
  | same : Queued kind q q none
  | sent (m : μ) : Queued kind q (q ++ [m]) (some (.sent m))
  | received {p : μ → Bool} (hp : ∀ x y, kind x = kind y → p x = p y) (hm : q.find? p = some m) :
    Queued kind q (q.eraseP p) (some (.received m))

theorem Fifo.queued [DecidableEq κ] {kind : μ → κ} (h : Fifo kind q₀ q hist)
    (hq : Queued kind q q' ev) : Fifo kind q₀ q' (hist ++ ev.toList) := by
  cases hq with
  | same => rwa [Option.toList_none, List.append_nil]
  | sent m => exact h.send m
  | received hp hm => exact h.receive hp hm

/-- What every call keeps of the queue, every run keeps, whichever party makes the calls. -/
theorem Fifo.run [DecidableEq κ] {kind : μ → κ} {step : σ → ε → σ} {f : σ → ε → Option (QueueEv μ)}
    (party : ε → ι) (queue : σ → List μ)
    (hstep : ∀ s e, Queued kind (queue s) (queue (step s e)) (f s e)) (s : σ) (es : List ε) :
    Fifo kind (queue s) (queue (SysPrg.run step s es))
      ((trace (fun s e => (f s e).map fun ev => (party e, ev)) step s es).map Prod.snd) := by
  rw [trace_map]
  simp only [Option.map_map, Function.comp_def, Option.map_id_fun']
  exact run_trace (fun t hist => Fifo kind (queue s) (queue t) hist)
    (fun t _ e h => h.queued (hstep t e)) (Fifo.refl kind (queue s)) es

structure Msg where
  mtype : Nat
  mtext : List Char
  deriving DecidableEq, Repr

/-- Type 0 asks for any message. -/
def wanted (msgtyp : Nat) (m : Msg) : Bool := msgtyp == 0 || m.mtype == msgtyp

theorem wanted_eq_of_mtype (msgtyp : Nat) {m n : Msg} (h : m.mtype = n.mtype) :
    wanted msgtyp m = wanted msgtyp n := by
  rw [wanted, wanted, h]

/-- Whether a queue that holds `qbytes` bytes has room for one more message. -/
def msgFits (qbytes : Nat) (q : List Msg) (m : Msg) : Bool :=
  (q.flatMap (·.mtext)).length + m.mtext.length ≤ qbytes && q.length + 1 ≤ qbytes

inductive MsgrcvResult where
  | block
  | e2big
  | done (m : Msg) (rest : List Msg)
  deriving DecidableEq, Repr

/-- A message that is too long stays in the queue, unless `noError` has it cut. -/
def msgrcv (q : List Msg) (msgsz msgtyp : Nat) (noError : Bool) : MsgrcvResult :=
  match q.find? (wanted msgtyp) with
  | none => .block
  | some m =>
    if msgsz < m.mtext.length && !noError then .e2big else .done m (q.eraseP (wanted msgtyp))

theorem msgrcv_done (h : msgrcv q msgsz msgtyp noError = .done m rest) :
    q.find? (wanted msgtyp) = some m ∧ rest = q.eraseP (wanted msgtyp) := by
  unfold msgrcv at h
  split at h
  case h_1 => cases h
  case h_2 m' hm =>
    split at h
    · cases h
    · cases h
      exact ⟨hm, rfl⟩

end SysPrg
