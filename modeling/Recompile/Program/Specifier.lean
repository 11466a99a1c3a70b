import Recompile.Host.Basic
import Recompile.Options.Basic

/-!
What module specifiers stand for: relative paths, aliases of the options, or packages.
-/

namespace Recompile.Specifier

def isRelative (specifier : String) : Bool :=
  specifier = "." || specifier = ".." ||
    ["./", "../", "/"].any fun lead => Text.startsWith lead.toList specifier.toList

def starParts? (pattern : String) : Option (List Char × List Char) :=
  if Options.stars pattern = 1 then Text.splitFirst? ['*'] pattern.toList else none

/-- What the star between two parts stands for in a specifier. -/
def capture? (before after specifier : List Char) : Option (List Char) :=
  (Text.stripLead? before specifier).bind (Text.stripTail? after)

def fillStar (text : List Char) (target : String) : String :=
  match Text.splitFirst? ['*'] target.toList with
  | some (before, after) => String.ofList (before ++ text ++ after)
  | none => target

def wildcard? (specifier : String) (entry : String × List String) : Option (Nat × List String) := do
  let (before, after) ← starParts? entry.1
  let text ← capture? before after specifier.toList
  return (Text.width before, entry.2.map (fillStar text))

/-- The choice with the largest size, of equals the first. -/
def longest : Option (Nat × List String) → List (Nat × List String) → Option (Nat × List String)
  | best, [] => best
  | none, c :: rest => longest (some c) rest
  | some best, c :: rest => longest (some (if best.1 < c.1 then c else best)) rest

/-- The targets that the aliases give for a specifier: those of the pattern that equals it, or
else those of the pattern with one star that has the longest part before the star. -/
def aliasTargets? (aliases : OrdMap String (List String)) (specifier : String) :
    Option (List String) :=
  match aliases.entries.find? fun e => Options.stars e.1 = 0 && e.1 = specifier with
  | some e => some e.2
  | none => (longest none (aliases.entries.filterMap (wildcard? specifier))).map (·.2)

/-- The files that a module path may stand for, in the order they are tried. -/
def candidates (base : Path) : List Path :=
  let name := base.text.toList
  if Text.endsWith ".ts".toList name then [base]
  else match Text.stripTail? ".js".toList name with
    | some stem => [⟨String.ofList stem ++ ".ts"⟩]
    | none => [⟨base.text ++ ".ts"⟩, ⟨base.text ++ ".d.ts"⟩, base.join ⟨"index.ts"⟩,
        base.join ⟨"index.d.ts"⟩]

inductive Found where
  | file (path : Path)
  | external
  | unresolved
deriving DecidableEq, Repr

def Found.path? : Found → Option Path
  | file path => some path
  | _ => none

variable {σ : Type} [FileSystem σ]

def firstPresent? (h : Host) (fs : σ) (base : Path) : Option Path :=
  (candidates base).find? (h.present fs)

def find (o : Options) (h : Host) (fs : σ) (dir : Path) (specifier : String) : Found :=
  if isRelative specifier then
    match firstPresent? h fs (dir.resolve ⟨specifier⟩) with
    | some path => .file path
    | none => .unresolved
  else match aliasTargets? o.paths specifier with
    | none => .external
    | some targets =>
        match targets.findSome? fun t => firstPresent? h fs (o.moduleRoot.resolve ⟨t⟩) with
        | some path => .file path
        | none => .unresolved

end Recompile.Specifier
