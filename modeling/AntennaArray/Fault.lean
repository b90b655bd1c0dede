import AntennaArray.Json.Reader
import AntennaArray.Requirement
import AntennaArray.Text.Utf8

/-!
# Faults

Why a request is refused. A fault names its cause and what it was about; `Fault.message` is its
sentence. A few faults concern only how sizes fit together and have no sentence of their own.
-/

namespace AntennaArray

/-- What is wrong with the arguments of a call. -/
inductive CallFault where
  | unexpected (callee : String) (argument : Text)
  | repeated (callee : String) (argument : Text)
  | notFields (callee kind : String)
deriving DecidableEq

/-- The sentence for a call; an argument stands between apostrophes as it is. -/
def CallFault.message : CallFault → Text
  | .unexpected callee argument =>
    callee ++ "() got an unexpected keyword argument '" ++ argument ++ "'"
  | .repeated callee argument =>
    callee ++ "() got multiple values for argument '" ++ argument ++ "'"
  | .notFields callee kind => callee ++ "() argument after ** must be a mapping, not " ++ kind

/-- What a configuration or its use lacks. -/
inductive Misfit where
  | parameter (name : Text) (given : Value) (required : Requirement)
  | unknownKind (given : Value)
  | badParameters (kind : String) (cause : CallFault)
  | unknownPreset (name : Text)
  | unknownKey (name : Text)
  | entryNotObject
  | elementNotTyped
  | fileNotObject (path : Text)
  | unreadable (path : Text) (cause : Json.Malformed)
  | inEntry (path name : Text) (cause : Misfit)
  | noElements
  | noGain
  | wrongLength (given expected : Nat)
  | notAnArray
  | notPoints
  | noPoints
  | unboundedPoints
  | coincidentPoints

def Misfit.message : Misfit → Text
  | .parameter name given required =>
    name ++ " must be " ++ required.text ++ " (got " ++ given.display ++ ")"
  | .unknownKind given => "unknown element kind " ++ given.display
      ++ "; expected one of ['3gpp', 'cosine', 'isotropic', 'parabolic']"
  | .badParameters kind cause => "invalid parameters for " ++ kind ++ " element: " ++ cause.message
  | .unknownPreset name => "Unknown array preset: " ++ name
      ++ " (available: linear_10x1, planar_10x10, planar_4x4, planar_8x8, single)"
  | .unknownKey name => "unknown array config key: " ++ name
  | .entryNotObject => "each array config must be a JSON object"
  | .elementNotTyped => "element must be an object with a 'type' key"
  | .fileNotObject path => path ++ " must contain a JSON object of named configs"
  | .unreadable path cause => "failed to parse " ++ path ++ ": " ++ cause.message
  | .inEntry path name cause => path ++ ": config " ++ Text.quoted name ++ ": " ++ cause.message
  | .noElements => "array must have at least one element"
  | .noGain => "antenna element must provide gain_db(direction)"
  | .wrongLength given expected => "beamforming vector length " ++ toString given
      ++ " != number of elements " ++ toString expected
  | .notAnArray => "locations must be a numpy ndarray"
  | .notPoints => "locations must have shape (M,3)"
  | .noPoints => "at least one element is required"
  | .unboundedPoints => "locations contain NaN or inf"
  | .coincidentPoints => "Element positions must be unique (>=1e-9 wavelengths apart)"

/-- An argument that does not fit the others or the operation. -/
inductive Mismatch where
  | direction
  | angleCounts
  | unboundedGrid
  | gainShape
  | gainMap (rows columns : Nat) (shape : List Nat)
  | cutLengths
  | pairShapes (first second : String)
  | codebookRank
  | codebookWidth
  | codebookRows
  | directionRows
  | unboundedDirections
  | foreignIndex
  | tooManyParts (expected : Nat)
  | tooFewParts (expected given : Nat)
  | notDouble (text : Text)
  | notInteger (text : Text)
  | tooManyDigits (count : Nat)
  | nullInPath
  | notNumberIndex
  | outsideDomain
  /-- Points with a wrong number of coordinates. -/
  | coordinates (given expected : Nat)
  | noAxes
  /-- More numbers in a row than can be counted. -/
  | uncountable
  /-- A table with more octets than can be counted. -/
  | unaddressable
deriving DecidableEq

/-- A shape in parentheses; a single axis has a comma after it. -/
def shapeText (shape : List Nat) : String :=
  match shape with
  | [n] => "(" ++ toString n ++ ",)"
  | _ => "(" ++ ", ".intercalate (shape.map toString) ++ ")"

/-- The number of characters of a quoted text to which a sentence about a whole number is cut. -/
def quotationLimit : Nat := 200

def Mismatch.message : Mismatch → String
  | .direction => "direction must be a Direction or a (theta, phi) pair"
  | .angleCounts => "theta and phi must have the same number of entries"
  | .unboundedGrid => "theta/phi contain NaN/inf"
  | .gainShape => "gain_db must be (len(phi), len(theta))"
  | .gainMap rows columns shape => "gain map must have shape (len(phi), len(theta)) = "
      ++ shapeText [rows, columns] ++ ", got " ++ shapeText shape
  | .cutLengths => "angles and values_db must have the same length"
  | .pairShapes first second => first ++ " and " ++ second ++ " must have the same shape"
  | .codebookRank => "codebook must be (K,M)"
  | .codebookWidth => "codebook must be (K,M) matching the steering vector length"
  | .codebookRows => "directions must be (K,2) and codebook (K,M) with matching K"
  | .directionRows => "directions must have shape (K,2)"
  | .unboundedDirections => "directions contain NaN/inf"
  | .foreignIndex => "tree must be the object returned by build_direction_tree"
  | .tooManyParts expected => "too many values to unpack (expected " ++ toString expected ++ ")"
  | .tooFewParts expected given => "not enough values to unpack (expected " ++ toString expected
      ++ ", got " ++ toString given ++ ")"
  | .notDouble text => "could not convert string to float: " ++ Text.quoted text
  | .notInteger text => "invalid literal for int() with base 10: "
      ++ String.ofList ((Text.quoted text).toList.take quotationLimit)
  | .tooManyDigits count => Decimal.tooManyDigitsText count
  | .nullInPath => "embedded null byte"
  | .notNumberIndex => "cannot convert float NaN to integer"
  | .outsideDomain => "math domain error"
  | .noAxes => "matmul: Input operand 0 does not have enough dimensions (has 0, gufunc core with "
      ++ "signature (n?,k),(k,m?)->(n?,m?) requires 1)"
  | .coordinates given expected =>
    "matmul: Input operand 1 has a mismatch in its core dimension 0, "
      ++ "with gufunc signature (n?,k),(k,m?)->(n?,m?) (size " ++ toString expected
      ++ " is different from " ++ toString given ++ ")"
  | .uncountable => "Maximum allowed size exceeded"
  | .unaddressable => "array is too big; `arr.size * arr.dtype.itemsize` is larger than the "
      ++ "maximum possible size."

/-- Why a request is refused. -/
inductive Fault where
  | misfit (m : Misfit)
  | mismatch (m : Mismatch)
  | call (c : CallFault)
  | noElementAt (index : Text) (count : Nat)
  | noWeights
  | noFile (path : Text)
  | encoding (d : Text.Utf8.Defect)
  | unencodable (u : Text.Utf8.Unencodable)
  | malformed (m : Json.Malformed)
  | integerTooLarge
  | infiniteIndex
  /-- An index that needs a bit more than an index has. -/
  | indexTooLarge
  | squareTooLarge
  | divisionByZero
  /-- A value of the wrong kind where a number is needed. -/
  | notADouble (kind : String)
  | notAnInteger (kind : String)
  | notJsonText (kind : String)
  /-- A value that is no name for anything. -/
  | noName (kind : String)
  /-- A value that is no path. -/
  | noPath (kind : String)
  | isDirectory (path : Text)
  | notDirectory (path : Text)
  | nameTooLong (path : Text)
  /-- A fault of the place where records are kept, which has a sentence of its own. -/
  | inStore (cause : Fault)
  /-- Sizes that do not go together. -/
  | incompatible
  /-- A place that is not there. -/
  | noEntry
  /-- Several values, or none, where there must be one. -/
  | notSingle
  /-- A number that is no count. -/
  | notACount
  /-- A value that no number is compared with. -/
  | uncomparable (kind : String)
  /-- A value that is no direction, where nothing else stands for one. -/
  | notADirection (kind : String)
  /-- A tensor with more axes than an operation goes over. -/
  | tooManyAxes (limit given : Nat)
  /-- A tensor that would have more axes than any has. -/
  | noSuchTensor (limit given : Nat)
  /-- A table for which there is no room. -/
  | noRoom
  /-- An attribute without a name. -/
  | unnamed
  /-- An attribute with too many octets. -/
  | tooLarge
  /-- A path without anything in it. -/
  | emptyPath

namespace Fault

/-- The sentence for a fault, if it has one. -/
def message? : Fault → Option Text
  | .misfit m => some m.message
  | .mismatch m => some m.message
  | .call c => some c.message
  | .noElementAt index count => some ("element index " ++ index ++ " out of range [0, "
      ++ toString count ++ ")")
  | .noWeights => some "no beamforming vector has been set"
  | .noFile path => some ("[Errno 2] No such file or directory: " ++ Text.quoted path)
  | .encoding d => some d.message
  | .unencodable u => some u.message
  | .malformed m => some m.message
  | .integerTooLarge => some "int too large to convert to float"
  | .infiniteIndex => some "cannot convert float infinity to integer"
  | .indexTooLarge => some "Python int too large to convert to C long"
  | .squareTooLarge => some "(34, 'Numerical result out of range')"
  | .divisionByZero => some "float division by zero"
  | .notADouble kind => some ("float() argument must be a string or a real number, not '"
      ++ kind ++ "'")
  | .notAnInteger kind => some ("int() argument must be a string, a bytes-like object or a real "
      ++ "number, not '" ++ kind ++ "'")
  | .notJsonText kind => some ("the JSON object must be str, bytes or bytearray, not " ++ kind)
  | .noName kind => some ("unhashable type: '" ++ kind ++ "'")
  | .noPath kind => some ("expected str, bytes or os.PathLike object, not " ++ kind)
  | .isDirectory path => some ("[Errno 21] Is a directory: " ++ Text.quoted path)
  | .notDirectory path => some ("[Errno 20] Not a directory: " ++ Text.quoted path)
  | .nameTooLong path => some ("[Errno 36] File name too long: " ++ Text.quoted path)
  | .inStore _ => none
  | .incompatible => none
  | .noEntry => none
  | .notSingle => none
  | .notACount => none
  | .uncomparable kind => some ("'<' not supported between instances of 'int' and '" ++ kind
      ++ "'")
  | .notADirection kind => some ("'" ++ kind ++ "' object has no attribute 'normalized'")
  | .tooManyAxes limit given => some ("this function only supports up to " ++ toString limit
      ++ " dimensions but the array has " ++ toString given ++ ".")
  | .noSuchTensor limit given => some ("number of dimensions must be within [0, "
      ++ toString limit ++ "], indexing result would have " ++ toString given)
  | .noRoom => none
  | .unnamed => none
  | .tooLarge => none
  | .emptyPath => none

/-- A fault as the place where records are kept tells it. What has no octets does not get there. -/
def atStore : Fault → Fault
  | .unencodable u => .unencodable u
  | f => .inStore f

/-- Whether a fault concerns a configuration. -/
def isMisfit : Fault → Bool
  | .misfit _ => true
  | _ => false

end Fault

/-- A result, or the reason why there is none. -/
abbrev Attempt := Except Fault

/-- Two attempts one after the other succeed where both do. -/
theorem exists_of_bind_eq_ok {α β : Type} {x : Attempt α} {next : α → Attempt β} {b : β}
    (h : x >>= next = .ok b) : ∃ a, x = .ok a ∧ next a = .ok b := by
  cases x with
  | error f => cases h
  | ok a => exact ⟨a, rfl, h⟩

/-- After a success the next attempt decides. -/
@[simp] theorem ok_bind {α β : Type} (a : α) (next : α → Attempt β) :
    (Except.ok a : Attempt α) >>= next = next a := rfl

/-- After a fault nothing else is attempted. -/
@[simp] theorem error_bind {α β : Type} (f : Fault) (next : α → Attempt β) :
    (Except.error f : Attempt α) >>= next = .error f := rfl

/-- The refusal of a configuration. -/
def refuse {α : Type} (m : Misfit) : Attempt α := .error (.misfit m)

/-- The refusal of an argument. -/
def reject {α : Type} (m : Mismatch) : Attempt α := .error (.mismatch m)

end AntennaArray
