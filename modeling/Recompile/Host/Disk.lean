import Recompile.Host.FileSystem
import Recompile.Text.Utf8

/-!
A tree of directories with a working directory.

A path is followed segment by segment: every directory on the way has to exist, also one that `..`
leaves again. Names and paths have a greatest size, and hold no zero character.
-/

namespace Recompile

inductive Listing where
  | empty
  | file (name : String) (contents : ByteArray) (rest : Listing)
  | directory (name : String) (children rest : Listing)

inductive Entry where
  | file (contents : ByteArray)
  | directory (listing : Listing)

namespace Listing

def get? : Listing → String → Option Entry
  | empty, _ => none
  | file n contents rest, name => if n = name then some (.file contents) else rest.get? name
  | directory n children rest, name =>
      if n = name then some (.directory children) else rest.get? name

def cons (name : String) : Entry → Listing → Listing
  | .file contents, rest => file name contents rest
  | .directory children, rest => directory name children rest

def put (name : String) (e : Entry) : Listing → Listing
  | empty => cons name e empty
  | file n contents rest =>
      if n = name then cons name e rest else file n contents (rest.put name e)
  | directory n children rest =>
      if n = name then cons name e rest else directory n children (rest.put name e)

def size : Listing → Nat
  | empty => 0
  | file _ _ rest => rest.size + 1
  | directory _ children rest => children.size + rest.size + 1

end Listing

/-- A directory on the way to an entry, and the name that is followed there. -/
structure Step where
  listing : Listing
  name : String

/-- An entry, and the steps that lead to it from the root, the last one first. -/
structure Spot where
  entry : Entry
  steps : List Step

namespace Spot

/-- The directory that an entry lies in; the root lies in itself. -/
def leave (s : Spot) : Spot :=
  match s.steps with
  | [] => s
  | step :: rest => ⟨.directory step.listing, rest⟩

/-- The root, when the steps lead to a directory with other entries than before. -/
def rootWith : List Step → Listing → Listing
  | [], listing => listing
  | step :: rest, listing => rootWith rest (step.listing.put step.name (.directory listing))

end Spot

structure Disk where
  root : Listing
  workingDir : List String

namespace Disk

def ofWorkingDir (names : List String) : Disk :=
  ⟨names.foldr (fun name listing => .directory name listing .empty) .empty, names⟩

def notFound : IoFault := .missing "No such file or directory (os error 2)"

def notDirectory : IoFault := .failed "Not a directory (os error 20)"

def isDirectoryFault : IoFault := .failed "Is a directory (os error 21)"

def alreadyPresent : IoFault := .failed "File exists (os error 17)"

def tooLong : IoFault := .failed "File name too long (os error 36)"

def zeroCharacter : IoFault := .failed "file name contained an unexpected NUL byte"

def nameLimit : Nat := 255

def pathLimit : Nat := 4095

/-- Refuses paths that are not followed at all. -/
def accept (p : Path) : Except IoFault Unit :=
  if p.text.toList.contains (Char.ofNat 0) then .error zeroCharacter
  else if p.text.isEmpty then .error notFound
  else if pathLimit < Text.width p.text.toList then .error tooLong
  else .ok ()

def isLong (name : String) : Bool := nameLimit < Text.width name.toList

def follow (s : Spot) (segment : String) : Except IoFault Spot :=
  match s.entry with
  | .file _ => .error notDirectory
  | .directory listing =>
      if segment = "" ∨ segment = "." then .ok s
      else if segment = ".." then .ok s.leave
      else if isLong segment then .error tooLong
      else match listing.get? segment with
        | some e => .ok ⟨e, ⟨listing, segment⟩ :: s.steps⟩
        | none => .error notFound

def followAll : Spot → List String → Except IoFault Spot
  | s, [] => .ok s
  | s, segment :: rest =>
      match follow s segment with
      | .ok s => followAll s rest
      | .error fault => .error fault

def segments (d : Disk) (p : Path) : List String :=
  let own := (Path.segments p.text.toList).map String.ofList
  if p.isAbsolute then own.drop 1 else d.workingDir ++ own

def walk (d : Disk) (segments : List String) : Except IoFault Spot :=
  followAll ⟨.directory d.root, []⟩ segments

def locate (d : Disk) (p : Path) : Except IoFault Entry := do
  accept p
  let spot ← d.walk (d.segments p)
  return spot.entry

def isDirectory (d : Disk) (p : Path) : Bool :=
  match d.locate p with
  | .ok (.directory _) => true
  | _ => false

def isFile (d : Disk) (p : Path) : Bool :=
  match d.locate p with
  | .ok (.file _) => true
  | _ => false

def read (d : Disk) (p : Path) : Except IoFault String := do
  match ← d.locate p with
  | .file contents =>
      match Utf8.decode contents with
      | .ok text => .ok text
      | .error fault => .error (.failed fault.message)
  | .directory _ => .error isDirectoryFault

/-- The directory that the last segment of a path is looked up in, and that segment. -/
structure Slot where
  steps : List Step
  listing : Listing
  name : String
  /-- Whether slashes follow the last segment. -/
  slashed : Bool

def slot (d : Disk) (p : Path) : Except IoFault Slot := do
  accept p
  let segments := d.segments p
  let kept := (segments.reverse.dropWhile (· = "")).reverse
  let spot ← d.walk kept.dropLast
  match spot.entry with
  | .directory listing =>
      return ⟨spot.steps, listing, kept.getLast?.getD "", kept.length < segments.length⟩
  | .file _ => .error notDirectory

def fill (d : Disk) (s : Slot) (e : Entry) : Disk :=
  { d with root := Spot.rootWith s.steps (s.listing.put s.name e) }

def isName (segment : String) : Bool := !(["", ".", ".."].contains segment)

def makeDirectory (d : Disk) (p : Path) : Except IoFault Disk := do
  let s ← d.slot p
  if !isName s.name || (s.listing.get? s.name).isSome then .error alreadyPresent
  if isLong s.name then .error tooLong
  return d.fill s (.directory .empty)

def makeDirectories : Nat → Disk → Path → Except IoFault Unit × Disk
  | 0, d, _ => (.ok (), d)
  | fuel + 1, d, p =>
      if p.text.isEmpty then (.ok (), d)
      else match d.makeDirectory p with
        | .ok d => (.ok (), d)
        | .error (.missing reason) =>
            match p.parent? with
            | none => (.error (.failed reason), d)
            | some parent =>
                match makeDirectories fuel d parent with
                | (.error fault, d) => (.error fault, d)
                | (.ok (), d) =>
                    match d.makeDirectory p with
                    | .ok d => (.ok (), d)
                    | .error fault => (if d.isDirectory p then .ok () else .error fault, d)
        | .error fault => (if d.isDirectory p then .ok () else .error fault, d)

def store (d : Disk) (p : Path) (contents : ByteArray) : Except IoFault Disk := do
  let s ← d.slot p
  if s.slashed || !isName s.name then .error isDirectoryFault
  if isLong s.name then .error tooLong
  match s.listing.get? s.name with
  | some (.directory _) => .error isDirectoryFault
  | _ => return d.fill s (.file contents)

def write (d : Disk) (p : Path) (contents : ByteArray) : Except IoFault Unit × Disk :=
  let made := match p.parent? with
    | some parent => makeDirectories (parent.components.length + 1) d parent
    | none => (.ok (), d)
  match made with
  | (.error fault, d) => (.error fault, d)
  | (.ok (), d) =>
      match d.store p contents with
      | .ok d => (.ok (), d)
      | .error fault => (.error fault, d)

/-- An entry has one absolute path, one that starts with a dot, and one relative path for each number
of steps up, of which a path holds fewer than its greatest size. -/
instance : FileSystem Disk where
  read := read
  present := isFile
  write := write
  capacity d := d.root.size * (pathLimit + 2)

end Disk

end Recompile
