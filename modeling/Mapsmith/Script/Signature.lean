import Mapsmith.Script.Token

/-!
# Signatures

What natives and functions declare of their use.
-/

namespace Mapsmith.Script

structure Parameter where
  type : String
  id : String
  deriving DecidableEq

structure Signature where
  id : String
  takes : List Parameter
  /-- None if nothing is returned. -/
  returns : Option String
  deriving DecidableEq

end Mapsmith.Script
