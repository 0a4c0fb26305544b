import XCache.ConfigParser
import XCache.Lib.Regex

/-!
# The checker of the configuration

`ConfigChecker` of `utils/config_checker.h`. A table of rules is the list in which it is gone
through. `std::regex_match` is a match of the whole string, in the default locale, so `^` and `$`
say nothing more.
-/

namespace XCache

namespace ConfigChecker

open ConfigParser Regex

/-! ## Patterns -/

abbrev Pattern := RegularExpression UInt8

/-- A class of characters. -/
def charClass (p : UInt8 → Bool) : Pattern := oneOf (((List.range 256).map UInt8.ofNat).filter p)

def slash : UInt8 := 0x2f

/-- `std::isspace`, and `\s` in a pattern. -/
def isspace (c : UInt8) : Bool := c = 0x20 || (0x09 ≤ c && c ≤ 0x0d)

/-- The characters from one to another. -/
def range (a b : UInt8) (c : UInt8) : Bool := a ≤ c && c ≤ b

def isDigit : UInt8 → Bool := range 0x30 0x39

def regexMatch (val : Str) (pattern : Pattern) : Bool := pattern.rmatch val

/-- `(/[^/\s]+)*(/)?` -/
def linuxPath : Pattern :=
  (.char slash * atLeastOnce (charClass fun c => !(c = slash) && !isspace c)).star
    * maybe (.char slash)

/-- `25[0-5]|2[0-4]\d|[01]?\d?\d` -/
def octet : Pattern :=
  word (bytes "25") * charClass (range 0x30 0x35)
    + word (bytes "2") * charClass (range 0x30 0x34) * charClass isDigit
    + maybe (charClass (range 0x30 0x31)) * maybe (charClass isDigit) * charClass isDigit

/-- `((25[0-5]|2[0-4]\d|[01]?\d?\d)\.){3}(25[0-5]|2[0-4]\d|[01]?\d?\d)` -/
def ipv4 : Pattern := (octet * .char dot) ^ 3 * octet

/-- `\[?[0-9a-fA-F:]+\]?` -/
def ipv6 : Pattern :=
  maybe (.char 0x5b)
    * atLeastOnce (charClass fun c =>
        isDigit c || range 0x61 0x66 c || range 0x41 0x46 c || c = 0x3a)
    * maybe (.char 0x5d)

/-! ## Rules -/

structure StringRule where
  minLength : ℕ
  maxLength : ℕ
  /-- Disallow leading and trailing spaces. -/
  trimWhitespace : Bool

structure PathRule where
  pattern : Pattern

structure HostRule where
  allowLocalhost : Bool
  ipv4Pattern : Pattern
  ipv6Pattern : Pattern

structure PortRule where
  minPort : ℤ
  maxPort : ℤ

structure Rules where
  stringRules : List (Str × StringRule)
  pathRules : List (Str × PathRule)
  hostRules : List (Str × HostRule)
  portRules : List (Str × PortRule)

def getDefaultRules : Rules where
  stringRules := [(bytes "app.name", ⟨1, 50, true⟩)]
  pathRules := [(bytes "sqlite.path", ⟨linuxPath⟩)]
  hostRules := [(bytes "redis.host", ⟨true, ipv4, ipv6⟩)]
  portRules := [(bytes "redis.port", ⟨1, 65535⟩)]

/-! ## Checks -/

/-- The configuration, and the types that are asked for. -/
structure Config where
  index : Index
  string : Element Str
  int : Element ℤ
  root : ConfigParser.Node

variable (conf : Config)

def checkString (path : Str) (rule : StringRule) : Except Exception Unit := do
  let val ← getRequired conf.index conf.string conf.root path
  if val.length < rule.minLength ∨ rule.maxLength < val.length then
    .error (.configError (bytes "string length for '" ++ path ++ bytes "' out of range"))
  -- `front` and `back` are asked for with an empty string only where `minLength` is 0
  else if rule.trimWhitespace && (val.head?.any isspace || val.getLast?.any isspace) then
    .error (.configError
      (bytes "string '" ++ path ++ bytes "' has leading or trailing whitespace"))
  else return

def checkPath (path : Str) (rule : PathRule) : Except Exception Unit := do
  let val ← getRequired conf.index conf.string conf.root path
  if regexMatch val rule.pattern then return
  else .error (.configError
    (bytes "path '" ++ path ++ bytes "' does not match Linux path format"))

def checkHost (path : Str) (rule : HostRule) : Except Exception Unit := do
  let val ← getRequired conf.index conf.string conf.root path
  if rule.allowLocalhost && val = bytes "localhost" then return
  else if regexMatch val rule.ipv4Pattern || regexMatch val rule.ipv6Pattern then return
  else .error (.configError
    (bytes "host '" ++ path ++ bytes "' is not valid localhost, IPv4, or IPv6"))

def checkPort (path : Str) (rule : PortRule) : Except Exception Unit := do
  let val ← getRequired conf.index conf.int conf.root path
  if val < rule.minPort ∨ rule.maxPort < val then
    .error (.configError (bytes "port '" ++ path ++ bytes "' out of range"))
  else return

def validate (rules : Rules) : Except Exception Unit := do
  rules.stringRules.forM fun p => checkString conf p.1 p.2
  rules.pathRules.forM fun p => checkPath conf p.1 p.2
  rules.hostRules.forM fun p => checkHost conf p.1 p.2
  rules.portRules.forM fun p => checkPort conf p.1 p.2

end ConfigChecker

end XCache
