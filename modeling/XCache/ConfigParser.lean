import Mathlib

/-!
# The configuration

`ConfigParser` of `utils/config_parser.{h,cpp}`, once the file is loaded. Of the YAML library,
`operator[]` throws `BadSubscript` for a scalar, and makes an empty map of what is null and a map of
a sequence, whose names are a parameter (`Index`); so is what `as<T>` does for a type (`Element`).
Both work on a clone of the tree, which no other call sees.
-/

namespace XCache

namespace ConfigParser

abbrev Str := List UInt8

def bytes (s : String) : Str := s.toUTF8.data.toList

/-- `YAML::Node`, where it is defined. -/
inductive Node
  | null
  | scalar (text : Str)
  | sequence (items : List Node)
  | map (entries : List (Node × Node))

/-- What a sequence has under a name, once it has been made a map. -/
abbrev Index := List Node → Str → Option Node

inductive Exception
  | configError (err : Str)  -- `ConfigError`
  | badSubscript  -- `YAML::BadSubscript`
  | runtimeError (err : Str)  -- `std::runtime_error`, and none of the others
  deriving DecidableEq

/-- How `as<T>` fails: by `YAML::BadConversion`, or another `std::runtime_error`. -/
inductive AsError
  | badConversion
  | runtime (what : Str)

/-- A type that is asked for. -/
structure Element (T : Type) where
  /-- `demangle(typeid(T).name())`. -/
  name : Str
  as : Node → Except AsError T

def Node.isScalar (key : Str) : Node → Bool
  | .scalar text => text = key
  | .null | .sequence _ | .map _ => false

variable (index : Index)

/-- `node[segment]`, if it is defined. -/
def Node.subscript : Node → Str → Except Exception (Option Node)
  | .null, _ => .ok none
  | .scalar _, _ => .error .badSubscript
  | .sequence items, segment => .ok (index items segment)
  | .map entries, segment =>
    .ok ((entries.find? fun e => e.1.isScalar segment).map Prod.snd)

def dot : UInt8 := 0x2e

/-- What `std::getline` yields, up to the next dot or the end. After the last dot there is nothing
to get if nothing is left. -/
def getline (segment : Str) : Str → List Str
  | [] => if segment = [] then [] else [segment]
  | c :: path => if c = dot then segment :: getline [] path else getline (segment ++ [c]) path

def segments (path : Str) : List Str := getline [] path

/-- The loop of `find`. -/
def walk (node : Node) : List Str → Except Exception (Option Node)
  | [] => .ok (some node)
  | segment :: rest =>
    match node.subscript index segment with
    | .error e => .error e
    | .ok none => .ok none
    | .ok (some next) => walk next rest

def find (root : Node) (path : Str) : Except Exception (Option Node) :=
  walk index root (segments path)

/-- `as<T>`, with the two handlers around it. -/
def convert {T : Type} (elem : Element T) (mismatch : Str) (node : Node) : Except Exception T :=
  match elem.as node with
  | .ok x => .ok x
  | .error .badConversion => .error (.configError mismatch)
  | .error (.runtime what) => .error (.configError (bytes "unknown error: " ++ what))

section Accessors

variable {T : Type} (elem : Element T) (root : Node) (path : Str)

def getRequired : Except Exception T := do
  match ← find index root path with
  | none => .error (.configError (bytes "path missing: " ++ path))
  | some node =>
    convert elem
      (bytes "type mismatch for '" ++ path ++ bytes "': cannot convert to [" ++ elem.name
        ++ bytes "]")
      node

def getOptional (defaultVal : T) : Except Exception T := do
  match ← find index root path with
  | none => return defaultVal
  | some node =>
    convert elem
      (bytes "type mismatch: can not convert " ++ path ++ bytes " to [" ++ elem.name ++ bytes "]")
      node

def getArray : Except Exception (List T) := do
  match ← find index root path with
  | none => .error (.runtimeError (bytes "array path missing: " ++ path))
  | some (.sequence items) =>
    items.mapM (convert elem
      (bytes "type mismatch in sequence for '" ++ path ++ bytes "': cannot convert to ["
        ++ elem.name ++ bytes "]"))
  | some .null | some (.scalar _) | some (.map _) =>
    .error (.runtimeError
      (bytes "type mismatch for path '" ++ path ++ bytes "': expected a sequence"))

end Accessors

end ConfigParser

end XCache
