import ScriptFront.Report.Failure
/-! The command: what its arguments ask for, and what it writes. -/
namespace ScriptFront.Report

namespace Settings

def silent : Settings := ⟨false, false, false, false⟩

/-- The settings with one more flag, if the argument is a flag that is not yet given. -/
def withFlag? (s : Settings) : String → Option Settings
  | "--dump-tokens" => if s.tokens then none else some { s with tokens := true }
  | "--dump-ast" => if s.tree then none else some { s with tree := true }
  | "--dump-objects" => if s.objects then none else some { s with objects := true }
  | "--fancy" => if s.keepSource then none else some { s with keepSource := true }
  | _ => none

end Settings

/-- One run of the command. -/
structure Command where
  settings : Settings
  script : String
deriving DecidableEq

/-- What a run leaves behind: its status and what it wrote to each stream. -/
structure Outcome where
  code : Nat
  out : String
  err : String
deriving DecidableEq

namespace Command

/-- Reads the arguments that follow: flags in any order and one script. -/
def read? (s : Settings) : Option String → List String → Option Command
  | some script, [] => some ⟨s, script⟩
  | none, [] => none
  | script?, arg :: args =>
    if arg.startsWith "-" then
      match s.withFlag? arg with
      | some t => read? t script? args
      | none => none
    else match script? with
      | none => read? s (some arg) args
      | some _ => none

def ofArguments? (args : List String) : Option Command := read? .silent none args

def run (c : Command) (content : Content) : Outcome :=
  match compileFile c.script content c.settings with
  | .ok text => ⟨0, text, ""⟩
  | .error failure => ⟨failure.exitCode, "", failure.message ++ "\n"⟩

end Command

end ScriptFront.Report
