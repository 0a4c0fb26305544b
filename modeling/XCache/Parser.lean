import Mathlib

/-!
# The parser of log lines

`Parser` of `utils/parser.{h,cpp}`. The JSON library is a parameter (`Library`): `read` is what
RFC 8259 makes of a text, and a text that `json::parse` rejects is malformed or has a number too
large for a `double`. `Value.store` is how the library keeps what it has read: a non-negative
integer as unsigned, any other as signed, and one beyond 64 bits as a `double`.
-/

namespace XCache

namespace Parser

abbrev Str := List UInt8

def bytes (s : String) : Str := s.toUTF8.data.toList

variable {F : Type}

/-- A JSON value. `float` is a number with a fraction or an exponent; `F` is the type `double`. -/
inductive Value (F : Type)
  | null
  | boolean (b : Bool)
  | integer (n : ℤ)
  | float (x : F)
  | string (s : Str)
  | array (items : List (Value F))
  | object (members : List (Str × Value F))

/-- `nlohmann::json`. -/
inductive Json (F : Type)
  | null
  | boolean (b : Bool)
  | numberInteger (n : Int64)
  | numberUnsigned (n : UInt64)
  | numberFloat (x : F)
  | string (s : Str)
  | array (items : List (Json F))
  | object (members : List (Str × Json F))

section Store

variable (ofInt : ℤ → F)

def storeInteger (n : ℤ) : Json F :=
  if 0 ≤ n ∧ n < 2 ^ 64 then .numberUnsigned (.ofNat n.toNat)
  else if -2 ^ 63 ≤ n ∧ n < 0 then .numberInteger (.ofInt n)
  else .numberFloat (ofInt n)

mutual

def Value.store : Value F → Json F
  | .null => .null
  | .boolean b => .boolean b
  | .integer n => storeInteger ofInt n
  | .float x => .numberFloat x
  | .string s => .string s
  | .array items => .array (storeItems items)
  | .object members => .object (storeMembers members)

def storeItems : List (Value F) → List (Json F)
  | [] => []
  | v :: items => v.store :: storeItems items

def storeMembers : List (Str × Value F) → List (Str × Json F)
  | [] => []
  | (name, v) :: members => (name, v.store) :: storeMembers members

end

end Store

inductive ReadError
  | parseError (what : Str)  -- `json::parse_error`
  | outOfRange (what : Str)  -- `json::out_of_range`: a number is too large for a `double`

structure Library (F : Type) where
  read : Str → Except ReadError (Value F)
  ofInt : ℤ → F
  toInt64 : F → Int64
  toUInt64 : F → UInt64
  /-- The text of a value, if it does not throw `json::type_error`. -/
  dump : Json F → Option Str
  /-- What has been read is valid UTF-8, and can be written. -/
  dump_read : ∀ text members name v, read text = .ok (.object members) →
    members.lookup name = some v → ∃ str, dump (v.store ofInt) = some str

inductive Exception
  | runtimeError (what : Str)  -- `std::runtime_error`
  | outOfRange  -- `std::out_of_range`
  | jsonOutOfRange (what : Str)  -- `json::out_of_range`
  | jsonTypeError  -- `json::type_error`
  deriving DecidableEq

inductive LogValue (F : Type)
  | null
  | boolean (b : Bool)
  | int64 (n : Int64)
  | uint64 (n : UInt64)
  | double (x : F)
  | string (s : Str)
  | unknown (exist : Bool) (value : Str)

/-! ## Values -/

namespace Json

def isNull : Json F → Bool
  | .null => true
  | _ => false

def isBoolean : Json F → Bool
  | .boolean _ => true
  | _ => false

def isNumberInteger : Json F → Bool
  | .numberInteger _ | .numberUnsigned _ => true
  | _ => false

def isNumberUnsigned : Json F → Bool
  | .numberUnsigned _ => true
  | _ => false

def isNumberFloat : Json F → Bool
  | .numberFloat _ => true
  | _ => false

def isString : Json F → Bool
  | .string _ => true
  | _ => false

/-- `json_parsed[keys]`, where `contains(keys)`. -/
def member? : Json F → Str → Option (Json F)
  | .object members, key => members.lookup key
  | _, _ => none

def getBool : Json F → Except Exception Bool
  | .boolean b => .ok b
  | _ => .error .jsonTypeError

def getString : Json F → Except Exception Str
  | .string s => .ok s
  | _ => .error .jsonTypeError

variable (lib : Library F)

/-- `get<int64_t>`: a `static_cast` of the number, however it is stored. -/
def getInt64 : Json F → Except Exception Int64
  | .numberInteger n => .ok n
  | .numberUnsigned n => .ok n.toInt64
  | .numberFloat x => .ok (lib.toInt64 x)
  | _ => .error .jsonTypeError

def getUInt64 : Json F → Except Exception UInt64
  | .numberInteger n => .ok n.toUInt64
  | .numberUnsigned n => .ok n
  | .numberFloat x => .ok (lib.toUInt64 x)
  | _ => .error .jsonTypeError

def getDouble : Json F → Except Exception F
  | .numberInteger n => .ok (lib.ofInt n.toInt)
  | .numberUnsigned n => .ok (lib.ofInt n.toNat)
  | .numberFloat x => .ok x
  | _ => .error .jsonTypeError

def dump (val : Json F) : Except Exception Str :=
  match lib.dump val with
  | some str => .ok str
  | none => .error .jsonTypeError

end Json

/-! ## The parser -/

end Parser

structure Parser where
  jsonKeys : List Parser.Str
  /-- The constructor throws otherwise. -/
  jsonKeys_ne : jsonKeys ≠ []

namespace Parser

variable {F : Type}

def construct (keys : List Str) : Except Exception Parser :=
  if h : keys = [] then .error (.runtimeError (bytes "parser: invalid args")) else .ok ⟨keys, h⟩

/-- `find` of a character. `none` is `npos`, which is no size of a string. -/
def find (c : UInt8) (s : Str) : Option ℕ := s.findIdx? (· = c)

def substr (s : Str) : Option ℕ → Except Exception Str
  | none => .error .outOfRange
  | some pos => if pos ≤ s.length then .ok (s.drop pos) else .error .outOfRange

/-- An opening brace. -/
def brace : UInt8 := 0x7b

/-- `json::parse`, with its handler. -/
def parseJson (lib : Library F) (data : Str) : Except Exception (Json F) :=
  match lib.read data with
  | .ok v => .ok (v.store lib.ofInt)
  | .error (.parseError what) =>
    .error (.runtimeError (bytes "parser: fail to parse json: " ++ what))
  | .error (.outOfRange what) => .error (.jsonOutOfRange what)

def logValue (lib : Library F) (val : Json F) : Except Exception (LogValue F) :=
  if val.isNull then .ok .null
  else if val.isBoolean then .boolean <$> val.getBool
  else if val.isNumberInteger then .int64 <$> val.getInt64 lib
  else if val.isNumberUnsigned then .uint64 <$> val.getUInt64 lib
  else if val.isNumberFloat then .double <$> val.getDouble lib
  else if val.isString then .string <$> val.getString
  else .unknown true <$> val.dump lib

/-- The body of the loop. -/
def element (lib : Library F) (jsonParsed : Json F) (key : Str) :
    Except Exception (LogValue F) :=
  match jsonParsed.member? key with
  | some val => logValue lib val
  | none => .ok (.unknown false [])

def parse (p : Parser) (lib : Library F) (dataRaw : Str) : Except Exception (List (LogValue F)) :=
  let ptr := find brace dataRaw
  if ptr = some dataRaw.length then .error (.runtimeError (bytes "parser: invalid json"))
  else do
    let data ← substr dataRaw ptr
    let jsonParsed ← parseJson lib data
    p.jsonKeys.mapM (element lib jsonParsed)

end Parser

end XCache
