import SysPrg.Kernel
import SysPrg.Run

namespace SysPrg
set_option autoImplicit true

inductive RoomEv (κ : Type) where
  | join (c : κ)
  | leave (c : κ)
  | say (c : κ) (bs : Bytes)
  deriving DecidableEq, Repr

/-- What a party has to do with the room: whether it is there, what it has heard and what it has
said. -/
structure Party where
  here : Bool
  heard : Bytes
  said : Bytes
  deriving DecidableEq, Repr

namespace Party

variable [DecidableEq κ]

/-- A party hears what the others say while it is there, and nothing of what it says itself. -/
def step (c : κ) (p : Party) : RoomEv κ → Party
  | .join d => if d = c then { p with here := true } else p
  | .leave d => if d = c then { p with here := false } else p
  | .say d bs =>
    if d = c then { p with said := p.said ++ bs }
    else if p.here then { p with heard := p.heard ++ bs } else p

def outside : Party := ⟨false, [], []⟩

/-- A party after what has happened in the room since it was empty. -/
def after (c : κ) (hist : List (RoomEv κ)) : Party := run (step c) outside hist

theorem after_snoc (c : κ) (hist : List (RoomEv κ)) (e : RoomEv κ) :
    after c (hist ++ [e]) = step c (after c hist) e :=
  run_snoc _ _ _ _

@[simp] theorem after_append_none (c : κ) (hist : List (RoomEv κ)) :
    after c (hist ++ (none : Option (RoomEv κ)).toList) = after c hist := by
  rw [Option.toList_none, List.append_nil]

@[simp] theorem after_append_some (c : κ) (hist : List (RoomEv κ)) (e : RoomEv κ) :
    after c (hist ++ (some e).toList) = step c (after c hist) e :=
  after_snoc c hist e

end Party

end SysPrg
