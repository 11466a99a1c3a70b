import Recompile.Bundle.Runner

/-!
A bundler that plays back recorded outcomes and keeps a log of what it is asked for.
-/

namespace Recompile.Bundle

inductive Call where
  | build
  | start
  | rebuild
  | dispose
deriving DecidableEq, Repr

def Call.name : Call → String
  | build => "build"
  | start => "start"
  | rebuild => "rebuild"
  | dispose => "dispose"

structure Playback where
  outcomes : List (Except Fault Product)
  starts : List (Except Fault Unit)
  log : List Call

namespace Playback

/-- The first of the recorded outcomes, and those left; the last one is never used up. -/
def next {α : Type} (empty : α) : List α → α × List α
  | [] => (empty, [])
  | [a] => (a, [a])
  | a :: rest => (a, rest)

def play (p : Playback) (call : Call) : Except Fault Product × Playback :=
  let (outcome, outcomes) := next (.ok ⟨[], Metafile.empty, []⟩) p.outcomes
  (outcome, { p with outcomes := outcomes, log := p.log ++ [call] })

instance : Bundler Playback where
  build p := p.play .build
  start p :=
    let (outcome, starts) := next (.ok ()) p.starts
    (outcome, { p with starts := starts, log := p.log ++ [.start] })
  rebuild p := p.play .rebuild
  dispose p := { p with log := p.log ++ [.dispose] }

end Playback

end Recompile.Bundle
