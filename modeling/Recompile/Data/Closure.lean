/-!
Closure of a list of members under a successor function, breadth first.
-/

namespace Recompile.Closure

universe u

variable {α : Type u} [BEq α]

def fresh (known : List α) : List α → List α
  | [] => []
  | a :: rest => if known.contains a then fresh known rest else a :: fresh (a :: known) rest

theorem fresh_nil (known : List α) : fresh known [] = [] := rfl

theorem fresh_cons (known : List α) (a : α) (rest : List α) : fresh known (a :: rest) =
    if known.contains a then fresh known rest else a :: fresh (a :: known) rest := rfl

/-- Takes the fresh members of the frontier in, and goes on with their successors. -/
def grow (next : α → List α) : Nat → List α → List α → List α
  | 0, reached, _ => reached
  | fuel + 1, reached, frontier =>
      match fresh reached frontier with
      | [] => reached
      | new => grow next fuel (reached ++ new) (new.flatMap next)

theorem grow_round (next : α → List α) (fuel : Nat) (reached frontier : List α) :
    grow next (fuel + 1) reached frontier =
      match fresh reached frontier with
      | [] => reached
      | new => grow next fuel (reached ++ new) (new.flatMap next) := rfl

/-- The members reached from a list in any number of steps. The first round takes all seeds in,
and every further round a member that is none, so the rounds suffice when no more than `bound`
members are reached beyond the seeds. -/
def closure (next : α → List α) (bound : Nat) (seeds : List α) : List α :=
  grow next (bound + 1) [] seeds

end Recompile.Closure
