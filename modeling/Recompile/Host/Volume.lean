import Recompile.Data.OrdMap
import Recompile.Host.FileSystem
import Recompile.Text.Utf8

/-!
Files kept in memory. Marks on paths make a volume misbehave: a phantom counts as present although
nothing need be stored there, and reading or writing can be denied.
-/

namespace Recompile

structure Volume where
  files : OrdMap Path ByteArray
  phantoms : OrdSet Path
  readDenied : OrdSet Path
  writeDenied : OrdSet Path

namespace Volume

def empty : Volume := ⟨OrdMap.empty, OrdMap.empty, OrdMap.empty, OrdMap.empty⟩

def put (v : Volume) (p : Path) (contents : ByteArray) : Volume :=
  { v with files := v.files.insert p contents }

def ofTexts (texts : List (Path × String)) : Volume :=
  texts.foldl (fun v t => v.put t.1 t.2.toUTF8) empty

def remove (v : Volume) (p : Path) : Volume := { v with files := v.files.erase p }

/-- What is stored under a path, whatever its marks. -/
def stored? (v : Volume) (p : Path) : Option ByteArray := v.files.get? p

/-- The stored text, with faulty stretches replaced. -/
def text? (v : Volume) (p : Path) : Option String := (v.stored? p).map Utf8.lossy

def isMarked (v : Volume) (p : Path) : Bool :=
  v.phantoms.contains p || v.readDenied.contains p || v.writeDenied.contains p

def allow (v : Volume) (p : Path) : Volume :=
  { v with
    phantoms := v.phantoms.erase p
    readDenied := v.readDenied.erase p
    writeDenied := v.writeDenied.erase p }

def read (v : Volume) (p : Path) : Except IoFault String :=
  if v.readDenied.contains p then .error (.failed "read denied")
  else match v.stored? p with
    | none => .error (.missing (p.text ++ " not found"))
    | some contents =>
        match Utf8.decode contents with
        | .ok text => .ok text
        | .error fault => .error (.failed fault.message)

instance : FileSystem Volume where
  read := read
  present v p := v.phantoms.contains p || v.files.contains p
  write v p contents :=
    if v.writeDenied.contains p then (.error (.failed "write denied"), v)
    else (.ok (), v.put p contents)
  capacity v := v.files.size

end Volume

end Recompile
