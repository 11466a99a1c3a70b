import Recompile.Script.Exports

/-!
Declarations at the top of a module, and the members of classes.

The surface of a declaration is what other modules can depend on: a class by its head and its
members, a function by its head, a variable by its name and annotation, a type in full.
-/

namespace Recompile.Script

def memberModifiers : List String :=
  ["public", "private", "protected", "readonly", "static", "async", "get", "set", "override",
   "declare", "abstract", "accessor"]

/-- Words that make a constructor's parameter a member. -/
def parameterModifiers : List String := ["private", "public", "protected", "readonly"]

def parameterMembers (s : Stream) (first stop : Nat) : List String :=
  ((List.range (stop - first)).map (first + ·)).filterMap fun p =>
    if s.ident p && parameterModifiers.contains (s.text (p - 1)) &&
        !memberModifiers.contains (s.text p) then
      some (s.text p)
    else none

def memberBoundary (s : Stream) (opening k : Nat) : Bool :=
  k = opening + 1 || s.newlineBefore k || s.oneOf (k - 1) [';', '\x7d', ')', ']'] ||
    memberModifiers.contains (s.text (k - 1))

def classMembersFrom (s : Stream) (opening close : Nat) : Nat → Nat → List String
  | 0, _ => []
  | fuel + 1, k =>
      if close ≤ k then []
      else if s.oneOf k openers then
        match s.partner? k with
        | none => classMembersFrom s opening close fuel (k + 1)
        | some groupClose =>
            let parameters :=
              if s.punct k '(' && s.word (k - 1) "constructor" then
                parameterMembers s (k + 1) groupClose
              else []
            parameters ++ classMembersFrom s opening close fuel (groupClose + 1)
      else if s.punct k '@' then
        let j := s.skipDotted s.size (k + 1)
        let next := if s.punct j '(' then s.groupEnd j + 1 else j
        classMembersFrom s opening close fuel next
      else if s.ident k then
        if memberModifiers.contains (s.text k) && (s.ident (k + 1) || s.punct (k + 1) '[') then
          classMembersFrom s opening close fuel (k + 1)
        else
          let named := memberBoundary s opening k &&
            s.oneOf (k + 1) ['(', ':', '=', ';', '?', '!', '<', '\x7d'] &&
            s.text k != "constructor"
          let rest := classMembersFrom s opening close fuel (k + 1)
          if named then s.text k :: rest else rest
      else classMembersFrom s opening close fuel (k + 1)

def classMembers (s : Stream) (opening close : Nat) : List String :=
  classMembersFrom s opening close s.size (opening + 1)

def variableEnd (s : Stream) : Nat → Nat → Nat
  | 0, i => i
  | fuel + 1, i =>
      if s.atEnd i || s.punct i '=' || s.punct i ';' then i
      else if s.newlineBefore i && !s.punct (i - 1) ':' && !s.punct i ':' then i
      else variableEnd s fuel (s.groupEnd i + 1)

/-- The first of a declaration and the `export` and `declare` words right before it. -/
def erasureStart (s : Stream) : Nat → Nat
  | 0 => 0
  | k + 1 => if s.word k "export" || s.word k "declare" then erasureStart s k else k + 1

def startsDeclaration (s : Stream) (i : Nat) : Bool :=
  let keyword := s.text i
  if keyword = "interface" then s.ident (i + 1)
  else if keyword = "type" then
    s.ident (i + 1) && (s.punct (i + 2) '=' || s.punct (i + 2) '<')
  else declarationKeywords.contains keyword

def namePosition (s : Stream) (i : Nat) (name : String) : Nat :=
  if s.ident (i + 1) && s.text (i + 1) = name then i + 1
  else if s.ident (i + 2) && s.text (i + 2) = name then i + 2
  else i + 1

/-- The surface of the declaration of a name at a position, and the span that vanishes with it. -/
def surfaceAt (s : Stream) (i nameAt : Nat) : Option (String × Option Span) :=
  let keyword := s.text i
  if keyword = "class" then
    (s.bodyOpen (nameAt + 1)).map fun opening =>
      let members := ((s.partner? opening).map (classMembers s opening)).getD []
      ("class " ++ s.textBetween nameAt opening ++ " \x7b" ++ ",".intercalate members ++ "\x7d",
       none)
  else if keyword = "function" then
    let stop := (s.bodyOpen (nameAt + 1)).getD (s.statementEnd i)
    some ("function " ++ s.textBetween nameAt stop, none)
  else if keyword = "const" || keyword = "let" || keyword = "var" then
    let stop := variableEnd s s.size (nameAt + 1)
    some (keyword ++ " " ++ s.textBetween nameAt stop, none)
  else if keyword = "interface" then
    (s.bodyOpen (nameAt + 1)).map fun opening =>
      let close := s.groupEnd opening
      ("interface " ++ s.textBetween nameAt (close + 1),
       some (s.span (erasureStart s i) close))
  else if keyword = "type" then
    let stop := s.statementEnd i
    let last := if s.punct stop ';' then stop else stop - 1
    some ("type " ++ s.textBetween nameAt stop, some (s.span (erasureStart s i) last))
  else
    let stop := match s.bodyOpen (nameAt + 1) with
      | some opening => s.groupEnd opening + 1
      | none => s.statementEnd i
    some (keyword ++ " " ++ s.textBetween nameAt stop, none)

def declarationAt (s : Stream) (i : Nat) (o : Outline) : Outline :=
  if startsDeclaration s i then
    match declaredName? s i with
    | none => o
    | some name =>
        match surfaceAt s i (namePosition s i name) with
        | none => o
        | some (surface, erased) =>
            { o with
              surfaces := o.surfaces.insert name surface
              erased := o.erased ++ erased.toList }
  else o

end Recompile.Script
