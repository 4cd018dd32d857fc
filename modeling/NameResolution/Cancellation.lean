/-!
# Cancellation

A long piece of work asks its token, between two requests, whether it is still
wanted. A token is a flag that can be raised and lowered again, or one that
never asks for an end.
-/

namespace NameResolution

inductive Cancellation where
  | never
  | flag (requested : Bool)
deriving Repr, DecidableEq

namespace Cancellation

def isRequested : Cancellation → Bool
  | never => false
  | flag requested => requested

def cancel : Cancellation → Cancellation
  | never => never
  | flag _ => flag true

def reset : Cancellation → Cancellation
  | never => never
  | flag _ => flag false

end Cancellation

end NameResolution
