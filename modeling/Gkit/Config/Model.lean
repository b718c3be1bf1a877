import Gkit.Lib.Errors
import Gkit.Lib.Maps
import Gkit.Lib.Texts

/-!
# Loading a configuration

The process environment is a map from names to values.  A file is given by the
lines its scanner delivers; a struct by its fields in order, where a field is a
struct without an `env` tag or a leaf.  The parsers of other packages are
parameters, and `ν` stands for the values of types they return.
-/

namespace Gkit.Config

open Gkit.Lib

abbrev Env := GoMap Text Text

/-! ## The file -/

def isQuote (c : Char) : Bool := c = '"' ∨ c = '\x27'

/-- What `os.Setenv` accepts. -/
def storable (key val : Text) : Bool :=
  key ≠ [] ∧ '=' ∉ key ∧ '\x00' ∉ key ∧ '\x00' ∉ val

def setenv (env : Env) (key val : Text) : Env :=
  if storable key val then env.insert key val else env

/-- The key and the value of a line. -/
def parseLine (text : Text) : Option (Text × Text) :=
  let line := text.trimSpace
  if line = [] ∨ line.startsWith ['#'] then none
  else
    match line.cut '=' with
    | none => none
    | some (key, val) => some (key.trimSpace, Text.trimBy isQuote val.trimSpace)

/-- One turn of the loop of `loadEnvFile`. -/
def loadLine (env : Env) (text : Text) : Env :=
  match parseLine text with
  | none => env
  | some (key, val) => if (env.find key).isSome then env else setenv env key val

/-- `bufio.MaxScanTokenSize`. -/
def maxTokenSize : ℕ := 64 * 1024

def fits (text : Text) : Bool := text.byteLength < maxTokenSize

def errTooLong : GoError := .new "bufio.Scanner: token too long"

/-- The loop of `loadEnvFile`; a line that is too long ends it. -/
def loadEnvFile : List Text → Env → Env × Option GoError
  | [], env => (env, none)
  | text :: rest, env =>
      if fits text then loadEnvFile rest (loadLine env text) else (env, some errTooLong)

/-! ## Fields -/

inductive FieldType where
  | duration
  | url
  | ip
  | strings
  | string
  | bool
  | int (bits : ℕ)
  | uint (bits : ℕ)
  | float (bits : ℕ)
  | ptr (elem : FieldType)
  | unsupported (name : Text)
  deriving DecidableEq, Repr

inductive Val (ν : Type) where
  | duration (d : ℤ)
  | string (s : Text)
  | strings (parts : List Text)
  | bool (b : Bool)
  | int (n : ℤ)
  | uint (n : ℕ)
  | other (v : ν)
  | nilPtr
  | ptr (v : Val ν)
  deriving DecidableEq, Repr

structure Parsers (ν : Type) where
  parseDuration : Text → Except GoError ℤ
  parseURL : Text → Except GoError ν
  parseIP : Text → Option ν
  parseBool : Text → Option Bool
  parseInt : Text → ℕ → Option ℤ
  parseUint : Text → ℕ → Option ℕ
  parseFloat : Text → ℕ → Option ν

def splitTrimmed (s : Text) (sep : Char) : List Text :=
  ((s.splitOn sep).map Text.trimSpace).filter (· ≠ [])

/-- The `%q` verb. -/
def quoted (s : Text) : Text := (quote (String.ofList s)).toList

section Structs

variable {ν : Type} (parsers : Parsers ν)

/-- An error without a cause. -/
def invalid {α : Type} (what : String) (raw : Text) (value : α → Val ν) :
    Option α → Except Text (Val ν)
  | none => .error ("invalid ".toList ++ what.toList ++ " ".toList ++ quoted raw)
  | some a => .ok (value a)

/-- An error with the cause behind it. -/
def invalidBy {α : Type} (what : String) (raw : Text) (value : α → Val ν) :
    Except GoError α → Except Text (Val ν)
  | .error err =>
      .error ("invalid ".toList ++ what.toList ++ " ".toList ++ quoted raw ++ ": ".toList ++
        err.error.toList)
  | .ok a => .ok (value a)

/-- The value a field of a type is set to, or the text of the error. -/
def setField : FieldType → Text → Except Text (Val ν)
  | .ptr elem, raw =>
      match setField elem raw with
      | .error err => .error err
      | .ok v => .ok (.ptr v)
  | .duration, raw => invalidBy "duration" raw .duration (parsers.parseDuration raw)
  | .url, raw => invalidBy "URL" raw .other (parsers.parseURL raw)
  | .ip, raw => invalid "IP" raw .other (parsers.parseIP raw)
  | .strings, raw => .ok (.strings (splitTrimmed raw ','))
  | .string, raw => .ok (.string raw)
  | .bool, raw => invalid "bool" raw .bool (parsers.parseBool raw)
  | .int bits, raw => invalid "int" raw .int (parsers.parseInt raw bits)
  | .uint bits, raw => invalid "uint" raw .uint (parsers.parseUint raw bits)
  | .float bits, raw => invalid "float" raw .other (parsers.parseFloat raw bits)
  | .unsupported name, _ => .error ("unsupported type ".toList ++ name)

/-- The tags of a field that is not a struct, or has an `env` tag. -/
structure Leaf where
  env : Text
  dflt : Text
  required : Text
  type : FieldType
  deriving DecidableEq, Repr

inductive Fields (ν : Type) where
  | nil
  | leaf (l : Leaf) (value : Val ν) (rest : Fields ν)
  | struct (inner : Fields ν) (rest : Fields ν)

/-- The text a leaf is set from. -/
def rawText (env : Env) (l : Leaf) : Text :=
  match env.find l.env with
  | none | some [] => l.dflt
  | some raw => raw

/-- One leaf: its new value, and the error text if there is one. -/
def parseLeaf (env : Env) (l : Leaf) (value : Val ν) : Val ν × Option Text :=
  if l.env = [] then (value, none)
  else if rawText env l = [] then
    (value, if l.required = "true".toList
      then some ("required env var ".toList ++ quoted l.env ++ " is not set".toList) else none)
  else
    match setField parsers l.type (rawText env l) with
    | .error err => (value, some ("env var ".toList ++ quoted l.env ++ ": ".toList ++ err))
    | .ok v => (v, none)

/-- The text of an error about several fields. -/
def joined (errs : List Text) : Text := List.intercalate "; ".toList errs

/-- The loop of `parseStruct`: the fields and the error texts. -/
def parseFields (env : Env) : Fields ν → Fields ν × List Text
  | .nil => (.nil, [])
  | .leaf l value rest =>
      let (value', err) := parseLeaf parsers env l value
      let (rest', errs) := parseFields env rest
      (.leaf l value' rest', err.toList ++ errs)
  | .struct inner rest =>
      let (inner', nested) := parseFields env inner
      let (rest', errs) := parseFields env rest
      (.struct inner' rest', (if nested = [] then [] else [joined nested]) ++ errs)

def parseStruct (env : Env) (fields : Fields ν) : Fields ν × Option Text :=
  let (fields', errs) := parseFields parsers env fields
  (fields', if errs = [] then none else some (joined errs))

/-- The file of `WithEnvFile`. -/
inductive EnvFile where
  /-- The option is not given, or there is no such file. -/
  | absent
  | unreadable (err : GoError)
  | lines (text : List Text)

def EnvFile.load (env : Env) : EnvFile → Env × Option GoError
  | .absent => (env, none)
  | .unreadable err => (env, some err)
  | .lines text => loadEnvFile text env

/-- `Load` into a struct: the environment and the struct it leaves, and the error text. -/
def load (path : Text) (file : EnvFile) (env : Env) (fields : Fields ν) :
    Env × Fields ν × Option Text :=
  match file.load env with
  | (env', some err) =>
      (env', fields, some ("config: load env file ".toList ++ quoted path ++ ": ".toList ++
        err.error.toList))
  | (env', none) => (env', parseStruct parsers env' fields)

end Structs

end Gkit.Config
