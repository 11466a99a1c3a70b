import Recompile.Path.Basic

/-!
Normal forms of paths, resolution against a directory, and the relative path between two paths.
-/

namespace Recompile.Path

/-- Takes in one component: `.` is dropped, and `..` removes the name before it, is absorbed by
the root, or stays. The components taken in so far are in reverse. -/
def foldComponent : List Component → Component → List Component
  | done, .here => done
  | .name _ :: done, .up => done
  | .root :: done, .up => .root :: done
  | done, .up => .up :: done
  | done, c => c :: done

def normalComponents (cs : List Component) : List Component :=
  (cs.foldl foldComponent []).reverse

/-- The normal form of a path; the empty one is written `.`. -/
def normalize (p : Path) : Path :=
  match normalComponents p.components with
  | [] => ⟨"."⟩
  | cs => ofComponents cs

def resolve (base p : Path) : Path :=
  if p.isAbsolute then normalize p else normalize (base.join p)

def dropShared : List Component → List Component → List Component × List Component
  | a :: as, b :: bs => if a = b then dropShared as bs else (a :: as, b :: bs)
  | as, bs => (as, bs)

/-- The way from a directory to a path: up for each component left, then down. A way that would
go down through the root is the absolute path itself. -/
def relative (source target : Path) : Path :=
  let steps := fun p : Path => (normalComponents p.components)
  let (rise, descent) := dropShared (steps source) (steps target)
  match descent with
  | .root :: _ => ofComponents descent
  | _ =>
      match rise.map (fun _ => Component.up) ++ descent with
      | [] => ⟨"."⟩
      | cs => ofComponents cs

end Recompile.Path
