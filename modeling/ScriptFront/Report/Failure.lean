import ScriptFront.Report.Listing
/-! Listings of a file, whose content may be missing or no text. -/
namespace ScriptFront.Report

inductive Content where
  | missing
  | bytes (content : ByteArray)

inductive ReadError where
  | missing | notText
deriving DecidableEq

def ReadError.message : ReadError → String
  | missing => "No such file or directory (os error 2)"
  | notText => "stream did not contain valid UTF-8"

def Content.text? : Content → Except ReadError String
  | missing => .error .missing
  | bytes content =>
    match String.fromUTF8? content with
    | some text => .ok text
    | none => .error .notText

/-- Why a file has no listing. -/
inductive Failure where
  | compilation (diagnostic : Diagnostic)
  | reading (name : String) (cause : ReadError)

namespace Failure

def message : Failure → String
  | compilation d => d.message
  | reading name cause => "Failed to read source file '" ++ name ++ "'.: " ++ cause.message

/-- The status with which a command ends: faulty input, or input that cannot be read. -/
def exitCode : Failure → Nat
  | compilation _ => 65
  | reading _ _ => 74

end Failure

/-- The listings of a file. -/
def compileFile (name : String) (content : Content) (s : Settings) : Except Failure String := do
  let text ← content.text?.mapError (.reading name)
  (compile ⟨name, text⟩ s).mapError .compilation

end ScriptFront.Report
