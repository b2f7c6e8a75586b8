import TinyLisp.Value.Basic

/-!
# Equality of values

Values are equal when they have the same kind and the same contents, wherever they were read.
A closure equals only itself, atoms are equal when they refer to the same cell, and built-in
functions when they have the same name. An invalid value equals nothing.
-/

namespace TinyLisp.Value

mutual

/-- Whether two values are equal. -/
def equal : Value → Value → Bool
  | .scalar _ a, .scalar _ b => a == b
  | .list _ as, .list _ bs => equalItems as bs
  | .closure a _ _ _, .closure b _ _ _ => a == b
  | .builtin a, .builtin b => a.name == b.name
  | .atom a, .atom b => a == b
  | _, _ => false

/-- Whether two lists have the same length and equal items. -/
def equalItems : List Value → List Value → Bool
  | [], [] => true
  | a :: as, b :: bs => equal a b && equalItems as bs
  | _, _ => false

end

end TinyLisp.Value
