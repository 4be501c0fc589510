import GrammarTrees.Text.Split

/-! Paths of files: names with slashes between them. -/

namespace GrammarTrees.Path

inductive Component where
  | root
  | current
  | parent
  | name (text : String)
deriving DecidableEq, Repr

/-- The components of the pieces between slashes, each with the number of characters of the path up
to its end. The first of the pieces starts after `start` characters. Empty pieces count for nothing,
and a single dot only at the front of the path. -/
def componentsFrom : (start : Nat) → List (List Char) → List (Component × Nat)
  | _, [] => []
  | start, piece :: pieces =>
    let stop := start + piece.length
    let rest := componentsFrom (stop + 1) pieces
    if piece = [] then rest
    else if piece = ['.'] then if start = 0 then (.current, stop) :: rest else rest
    else if piece = ['.', '.'] then (.parent, stop) :: rest
    else (.name (String.ofList piece), stop) :: rest

/-- The components of a path, each with the number of characters up to its end. -/
def components (path : String) : List (Component × Nat) :=
  let cs := path.toList
  let rest := componentsFrom 0 (splitAtChar '/' cs)
  if cs.head? = some '/' then (.root, 1) :: rest else rest

/-- The path without its last component; a path without one, and the root, have no parent. -/
def parent? (path : String) : Option String :=
  match (components path).reverse with
  | [] => none
  | (.root, _) :: _ => none
  | [_] => some ""
  | _ :: (_, stop) :: _ => some (String.ofList (path.toList.take stop))

/-- The last component, if it is a name. -/
def fileName? (path : String) : Option String :=
  match (components path).getLast? with
  | some (.name text, _) => some text
  | _ => none

/-- The names that a path from the root consists of; there are none if it goes back to a parent. -/
def names? (path : String) : Option (List String) :=
  match components path with
  | (.root, _) :: rest =>
    rest.mapM fun
      | (.name text, _) => some text
      | _ => none
  | _ => none

/-- The path `path` seen from the directory `dir`. A path that starts at the root stays as it is. -/
def join (dir path : String) : String :=
  if path.toList.head? = some '/' then path
  else if dir = "" ∨ dir.toList.getLast? = some '/' then dir ++ path
  else dir ++ "/" ++ path

def hasSuffix (path suffix : String) : Bool := suffix.toList.isSuffixOf path.toList

end GrammarTrees.Path
