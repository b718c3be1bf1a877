import Gkit.Lib.Errors
import Gkit.Lib.Maps
import Gkit.Lib.Texts

/-!
# Struct validation

A struct is the list of its fields in order.  A field has its name, its `json` and
`validate` tags, and a value that is a struct again or something the rules look at
through its kind.  Pointers and slices are not followed.
-/

namespace Gkit.Validation

open Gkit.Lib

structure Tags where
  name : Text
  json : Text
  validate : Text
  deriving DecidableEq, Repr

/-- A value that is not a struct, as far as the rules look at it. -/
inductive Scalar where
  | string (s : Text)
  /-- A slice, a map or an array. -/
  | sized (len : ℕ) (isZero : Bool)
  /-- A pointer or an interface. -/
  | pointer (isNil : Bool)
  | other (isZero : Bool)
  deriving DecidableEq, Repr

inductive Fields where
  | nil
  | scalar (tags : Tags) (value : Scalar) (rest : Fields)
  | struct (tags : Tags) (inner : Fields) (rest : Fields)
  deriving DecidableEq, Repr

/-- A `reflect.Value`. -/
inductive Value where
  | scalar (value : Scalar)
  | struct (fields : Fields)
  deriving DecidableEq, Repr

def Scalar.isZero : Scalar → Bool
  | .string s => s.isEmpty
  | .sized _ isZero | .other isZero => isZero
  | .pointer isNil => isNil

def Fields.isZero : Fields → Bool
  | .nil => true
  | .scalar _ value rest => value.isZero && rest.isZero
  | .struct _ inner rest => inner.isZero && rest.isZero

/-! ## Rules -/

/-- What the rules use of other packages: `regexp.Compile`, and the checks behind
`email`, `url`, `min=` and `max=`.  A check returns the message, or nothing. -/
structure Checks where
  compile : Text → Except Text (Text → Bool)
  checkEmail : Text → Text
  checkURL : Text → Text
  checkMin : Value → Text → Text
  checkMax : Value → Text → Text

def isRequired : Text := "is required".toList

def checkRequired : Value → Text
  | .scalar (.string s) => if s = [] then isRequired else []
  | .scalar (.sized len _) => if len = 0 then isRequired else []
  | .scalar (.pointer isNil) => if isNil then isRequired else []
  | .scalar (.other isZero) => if isZero then isRequired else []
  | .struct fields => if fields.isZero then isRequired else []

def checkOneOf (s : Text) (options : List Text) : Text :=
  if s ∈ options then []
  else "must be one of [".toList ++ List.intercalate ", ".toList options ++ "]".toList

def checkRegex (checks : Checks) (s pattern : Text) : Text :=
  match checks.compile pattern with
  | .error err => "invalid regex pattern: ".toList ++ err
  | .ok isMatch =>
      if isMatch s then []
      else "must match pattern ".toList ++ (quote (String.ofList pattern)).toList

/-- The rules for strings pass other kinds and the empty string. -/
def onText (check : Text → Text) : Value → Text
  | .scalar (.string s) => if s = [] then [] else check s
  | _ => []

def applyRule (checks : Checks) (rule : Text) (fv : Value) : Text :=
  if rule = "required".toList then checkRequired fv
  else if rule = "email".toList then onText checks.checkEmail fv
  else if rule = "url".toList then onText checks.checkURL fv
  else if rule.startsWith "min=".toList then checks.checkMin fv (rule.withoutStart "min=".toList)
  else if rule.startsWith "max=".toList then checks.checkMax fv (rule.withoutStart "max=".toList)
  else if rule.startsWith "oneof=".toList then
    onText (checkOneOf · ((rule.withoutStart "oneof=".toList).splitOn '|')) fv
  else if rule.startsWith "regex=".toList then
    onText (checkRegex checks · (rule.withoutStart "regex=".toList)) fv
  else []

/-! ## Structs -/

/-- The `Fields` of an `Error`. -/
abbrev VErr := GoMap Text (List Text)

def VErr.add (ve : VErr) (field msg : Text) : VErr :=
  GoMap.insert ve field ((GoMap.find ve field).getD [] ++ [msg])

/-- The rules of a tag. -/
def rulesOf (tag : Text) : List Text := (tag.splitOn ',').map Text.trimSpace

/-- The name of a field in the error. -/
def Tags.display (tags : Tags) : Text :=
  if tags.json = [] then tags.name else (tags.json.splitOn ',').headD []

section Structs

variable (check : Text → Value → Text)

/-- The loop over the rules of a field. -/
def applyRules (name : Text) (fv : Value) : List Text → VErr → VErr
  | [], ve => ve
  | rule :: rules, ve =>
      let msg := check rule fv
      applyRules name fv rules (if msg = [] then ve else ve.add name msg)

/-- The loop over the entries of a nested error, which are assigned. -/
def mergeNested (name : Text) : List (Text × List Text) → VErr → VErr
  | [], ve => ve
  | (k, msgs) :: rest, ve => mergeNested name rest (GoMap.insert ve (name ++ '.' :: k) msgs)

/-- The loop over the fields of a struct. -/
def validateFields : Fields → VErr → VErr
  | .nil, ve => ve
  | .scalar tags value rest, ve =>
      if tags.validate = [] then validateFields rest ve
      else
        validateFields rest
          (applyRules check tags.display (.scalar value) (rulesOf tags.validate) ve)
  | .struct tags inner rest, ve =>
      if tags.validate = [] then
        validateFields rest (mergeNested tags.name (validateFields inner Table.empty).rows ve)
      else
        validateFields rest
          (applyRules check tags.display (.struct inner) (rulesOf tags.validate) ve)

/-- `validateStruct`; `none` is the nil error. -/
def validateStruct (fields : Fields) : Option VErr :=
  let ve := validateFields check fields Table.empty
  if ve.rows = [] then none else some ve

end Structs

/-- `Validate` of a struct. -/
def validate (checks : Checks) (fields : Fields) : Option VErr :=
  validateStruct (applyRule checks) fields

end Gkit.Validation
