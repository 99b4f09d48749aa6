/-!
# Errors of the system

What the system says about a path that it cannot go along. `SystemError.message` is
the one place that words it.
-/

namespace Mapsmith

inductive SystemError where
  | missing
  /-- A file is where a directory has to be. -/
  | notDirectory
  | tooLong
  /-- A path ends at a null character and so cannot have one. -/
  | nullCharacter
  | other (reason : String) (code : Nat)

namespace SystemError

def message : SystemError → String
  | .missing => coded "No such file or directory" 2
  | .notDirectory => coded "Not a directory" 20
  | .tooLong => coded "File name too long" 36
  | .nullCharacter => "file name contained an unexpected NUL byte"
  | .other reason code => coded reason code
where
  coded (reason : String) (code : Nat) : String :=
    reason ++ " (os error " ++ toString code ++ ")"

end SystemError

end Mapsmith
