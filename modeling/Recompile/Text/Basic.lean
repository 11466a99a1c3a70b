/-!
Texts as lists of characters, measured and cut in UTF-8 bytes.

A cut that falls inside a character, or past the end, has no result.
-/

namespace Recompile.Text

def width : List Char → Nat
  | [] => 0
  | c :: cs => c.utf8Size + width cs

@[simp] theorem width_append (xs ys : List Char) : width (xs ++ ys) = width xs + width ys := by
  induction xs with
  | nil => simp [width]
  | cons c cs ih => simp [width, ih, Nat.add_assoc]

/-- Cuts a text at a byte offset; no result off a character boundary. -/
def splitAt? : List Char → Nat → Option (List Char × List Char)
  | cs, 0 => some ([], cs)
  | [], _ + 1 => none
  | c :: cs, n + 1 =>
      if c.utf8Size ≤ n + 1 then
        (splitAt? cs (n + 1 - c.utf8Size)).map fun r => (c :: r.1, r.2)
      else none

/-- The part of a text between two byte offsets; no result when the range is not well formed. -/
def slice? (cs : List Char) (start stop : Nat) : Option (List Char) := do
  if stop < start then none
  let (_, rest) ← splitAt? cs start
  let (mid, _) ← splitAt? rest (stop - start)
  return mid

/-- The pieces between separators; always at least one. -/
def splitOn (sep : Char → Bool) : List Char → List (List Char)
  | [] => [[]]
  | c :: cs =>
      if sep c then [] :: splitOn sep cs
      else match splitOn sep cs with
        | [] => [[c]]
        | piece :: rest => (c :: piece) :: rest

def stripLead? : List Char → List Char → Option (List Char)
  | [], cs => some cs
  | _ :: _, [] => none
  | p :: ps, c :: cs => if p = c then stripLead? ps cs else none

@[simp] theorem stripLead?_nil (cs : List Char) : stripLead? [] cs = some cs := rfl

@[simp] theorem stripLead?_cons_nil (p : Char) (ps : List Char) : stripLead? (p :: ps) [] = none := rfl

@[simp] theorem stripLead?_cons (p c : Char) (ps cs : List Char) : stripLead? (p :: ps) (c :: cs) =
    if p = c then stripLead? ps cs else none := rfl

def startsWith (lead cs : List Char) : Bool := (stripLead? lead cs).isSome

def stripTail? (tail cs : List Char) : Option (List Char) :=
  (stripLead? tail.reverse cs.reverse).map List.reverse

def endsWith (tail cs : List Char) : Bool := (stripTail? tail cs).isSome

def splitFirst? (pat : List Char) : List Char → Option (List Char × List Char)
  | [] => if pat.isEmpty then some ([], []) else none
  | c :: cs =>
      match stripLead? pat (c :: cs) with
      | some rest => some ([], rest)
      | none => (splitFirst? pat cs).map fun r => (c :: r.1, r.2)

theorem splitFirst?_nil (pat : List Char) :
    splitFirst? pat [] = if pat.isEmpty then some ([], []) else none := rfl

theorem splitFirst?_cons (pat : List Char) (c : Char) (cs : List Char) :
    splitFirst? pat (c :: cs) =
      match stripLead? pat (c :: cs) with
      | some rest => some ([], rest)
      | none => (splitFirst? pat cs).map fun r => (c :: r.1, r.2) := rfl

def includes (pat cs : List Char) : Bool := (splitFirst? pat cs).isSome

/-- Replaces every occurrence of a pattern, from left to right; `skip` counts the characters of
the occurrence being replaced that are still to be passed over. -/
def replaceGo (pat new : List Char) : List Char → Nat → List Char
  | [], _ => []
  | _ :: cs, skip + 1 => replaceGo pat new cs skip
  | c :: cs, 0 =>
      if startsWith pat (c :: cs) then new ++ replaceGo pat new cs (pat.length - 1)
      else c :: replaceGo pat new cs 0

def replaceAll (pat new cs : List Char) : List Char := replaceGo pat new cs 0

def trimStartBy (p : Char → Bool) (cs : List Char) : List Char := cs.dropWhile p

def trimEndBy (p : Char → Bool) (cs : List Char) : List Char := (cs.reverse.dropWhile p).reverse

def trimBy (p : Char → Bool) (cs : List Char) : List Char := trimEndBy p (trimStartBy p cs)

end Recompile.Text
