import Marshal.Text.Template

/-! # Failures

A failure is a structured report (in which phase, of which kind, where, about which types and why), a
list of missing symbols, a plain text, or one of these behind a further cause or note. `Failure.message`
is the one place where failures are put into words.
-/
set_option autoImplicit false
namespace Marshal

/-- Where in processing a failure arose. The vocabulary is open. -/
structure Phase where
  name : Text
deriving DecidableEq

namespace Phase
def encode : Phase := ⟨"encode"⟩
def decode : Phase := ⟨"decode"⟩
def ownership : Phase := ⟨"ownership"⟩
def container : Phase := ⟨"container"⟩
def async : Phase := ⟨"async"⟩
def bind : Phase := ⟨"bind"⟩
def heap : Phase := ⟨"heap"⟩
def plan : Phase := ⟨"plan"⟩
def config : Phase := ⟨"config"⟩
def runtime : Phase := ⟨"runtime"⟩
end Phase

/-- What sort of failure it is. The vocabulary is open. -/
structure FailureKind where
  name : Text
deriving DecidableEq

namespace FailureKind
def typeMismatch : FailureKind := ⟨"type_mismatch"⟩
def outOfBounds : FailureKind := ⟨"out_of_bounds"⟩
def invalidData : FailureKind := ⟨"invalid_data"⟩
def unsupported : FailureKind := ⟨"unsupported"⟩
def allocation : FailureKind := ⟨"allocation"⟩
def invalidUtf8 : FailureKind := ⟨"invalid_utf8"⟩
def overflow : FailureKind := ⟨"overflow"⟩
def nilPointer : FailureKind := ⟨"nil_pointer"⟩
def notFound : FailureKind := ⟨"not_found"⟩
def notInitialized : FailureKind := ⟨"not_initialized"⟩
def invalidInput : FailureKind := ⟨"invalid_input"⟩
def registration : FailureKind := ⟨"registration"⟩
def missingSymbol : FailureKind := ⟨"missing_symbol"⟩
def doubleFree : FailureKind := ⟨"double_free"⟩
def notOwned : FailureKind := ⟨"not_owned"⟩
def aliasing : FailureKind := ⟨"aliasing"⟩
def doubleCompletion : FailureKind := ⟨"double_completion"⟩
def domain : FailureKind := ⟨"domain"⟩
def abandoned : FailureKind := ⟨"abandoned"⟩
end FailureKind

/-- A structured report. Empty texts are left out of the message. -/
structure Report where
  phase : Phase
  kind : FailureKind
  path : List Text := []
  valueType : Text := []
  declType : Text := []
  symbol : Text := []
  detail : Text := []
  value : Datum := .nil

inductive Failure where
  | report (r : Report)
  | caused (r : Report) (cause : Failure)
  | missing (symbols : List Text)
  | domain (shown : Option Text)
  | noted (note : Text) (cause : Failure)
  | plain (t : Text)

instance : Inhabited Failure := ⟨.plain []⟩

namespace Report

def typesText (r : Report) : Text :=
  match r.valueType, r.declType with
  | [], [] => []
  | [], declType => ": declared type " ++ declType
  | valueType, [] => ": Go type " ++ valueType
  | valueType, declType => ": Go type " ++ valueType ++ ", declared type " ++ declType

def detailText (r : Report) : Text :=
  if r.detail.isEmpty then []
  else if r.valueType.isEmpty && r.declType.isEmpty then ": " ++ r.detail
  else " - " ++ r.detail

def message (r : Report) : Text :=
  "[" ++ r.phase.name ++ "] " ++ r.kind.name ++
    (if r.path.isEmpty then [] else " at " ++ Text.join "." r.path : Text) ++
    (if r.symbol.isEmpty then [] else " in " ++ r.symbol : Text) ++
    r.typesText ++ r.detailText

def typeMismatch (phase : Phase) (path : List Text) (valueType declType : Text) : Report :=
  { phase, kind := .typeMismatch, path, valueType, declType }

/-- Shows at most the first 32 offending bytes. -/
def invalidUtf8 (phase : Phase) (path : List Text) (data : Text) : Report :=
  { phase, kind := .invalidUtf8, path,
    detail := "invalid UTF-8 sequence: " ++ Text.hexBytes (data.take 32) }

def allocationFailed (phase : Phase) (size align : UInt32) : Report :=
  { phase, kind := .allocation,
    detail := "failed to allocate " ++ Text.ofNat size.toNat ++ " bytes (align " ++
      Text.ofNat align.toNat ++ ")" }

def unsupported (phase : Phase) (what : Text) : Report :=
  { phase, kind := .unsupported, detail := what }

def outOfBounds (phase : Phase) (path : List Text) (index length : Int64) : Report :=
  { phase, kind := .outOfBounds, path,
    detail := "index " ++ Text.ofInt index.toInt ++ " out of bounds (length " ++
      Text.ofInt length.toInt ++ ")",
    value := .isize index }

def nilPointer (phase : Phase) (path : List Text) (valueType : Text) : Report :=
  { phase, kind := .nilPointer, path, valueType, detail := "nil pointer" }

def overflow (phase : Phase) (path : List Text) (value : Datum) (target : Text) : Report :=
  { phase, kind := .overflow, path, declType := target,
    detail := "value " ++ value.plain ++ " overflows " ++ target, value }

def invalidData (phase : Phase) (path : List Text) (detail : Text) : Report :=
  { phase, kind := .invalidData, path, detail }

def notInitialized (phase : Phase) (component : Text) : Report :=
  { phase, kind := .notInitialized, detail := component ++ " not initialized" }

def notFound (phase : Phase) (what name : Text) : Report :=
  { phase, kind := .notFound, detail := what ++ " " ++ Text.quote name ++ " not found" }

def invalidInput (phase : Phase) (detail : Text) : Report :=
  { phase, kind := .invalidInput, detail }

def missingSymbol (name : Text) : Report :=
  { phase := .bind, kind := .missingSymbol, symbol := name, detail := "symbol not exported" }

def doubleFree (phase : Phase) (addr : UInt32) : Report :=
  { phase, kind := .doubleFree,
    detail := "address " ++ Text.hexLiteral addr.toNat ++ " is not a live allocation",
    value := .u32 addr }

def notOwned (typeName : Text) (addr : UInt32) (mode : Text) : Report :=
  { phase := .ownership, kind := .notOwned, declType := typeName,
    detail := "handle " ++ Text.hexLiteral addr.toNat ++ " is " ++ mode ++
      " and cannot transfer ownership",
    value := .u32 addr }

def doubleCompletion (context : UInt32) : Report :=
  { phase := .async, kind := .doubleCompletion,
    detail := "context " ++ Text.hexLiteral context.toNat ++ " is not pending",
    value := .u32 context }

end Report

namespace Failure

def wrap (phase : Phase) (kind : FailureKind) (cause : Failure) (detail : Text) : Failure :=
  .caused { phase, kind, detail } cause

def registration (phase : Phase) (name : Text) (cause : Failure) : Failure :=
  .caused { phase, kind := .registration, symbol := name, detail := "register " ++ name } cause

def parseFailed (what : Text) (cause : Failure) : Failure :=
  .caused { phase := .plan, kind := .invalidData, detail := "parse " ++ what } cause

/-- The type and the operation a symbol names: its last two parts between dollar signs. -/
def symbolParts (name : Text) : Text × Text :=
  match (Text.splitOn 36 name).reverse with
  | op :: owner :: _ => (owner, op)
  | _ => (name, [])

def groupSymbols (names : List Text) : List (Text × List Text) :=
  let parts := names.map symbolParts
  let owners := parts.foldl (fun acc p => if acc.contains p.1 then acc else acc ++ [p.1]) []
  owners.map fun owner => (owner, (parts.filter (·.1 = owner)).map (·.2))

def groupText (group : Text × List Text) : Text :=
  "\n\n  " ++ group.1 ++ ":" ++ (group.2.map fun op => ("\n    - " ++ op : Text)).flatten

def missingText : List Text → Text
  | [] => "[bind] missing_symbol: no symbols specified"
  | names =>
    "missing " ++ Text.ofNat names.length ++ " symbol(s):" ++ (groupSymbols names).flatMap groupText

def message : Failure → Text
  | report r => r.message
  | caused r cause => r.message ++ " (caused by: " ++ cause.message ++ ")"
  | missing symbols => missingText symbols
  | domain (some shown) => shown
  | domain none => "result failure without an error value"
  | noted note cause => note ++ ": " ++ cause.message
  | plain t => t

def report? : Failure → Option Report
  | report r => some r
  | caused r _ => some r
  | noted _ cause => cause.report?
  | _ => none

def hasCause : Failure → Bool
  | caused _ _ => true
  | noted _ cause => cause.hasCause
  | _ => false

/-- Some report on the way to the root cause has this phase and kind. A failure of the domain matches
its own kind in every phase. -/
def matchesReport (phase : Phase) (kind : FailureKind) : Failure → Bool
  | report r => r.phase = phase && r.kind = kind
  | caused r cause => (r.phase = phase && r.kind = kind) || cause.matchesReport phase kind
  | domain _ => kind = .domain
  | noted _ cause => cause.matchesReport phase kind
  | _ => false

def isMissing : Failure → Bool
  | missing _ => true
  | caused _ cause => cause.isMissing
  | noted _ cause => cause.isMissing
  | _ => false

end Failure

end Marshal
