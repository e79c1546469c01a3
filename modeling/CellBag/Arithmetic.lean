import CellBag.Error

/-!
# Arithmetic of sizes

Offsets, widths and numbers of bytes are machine words. Where callers choose sizes whose sum or
product may be too large for a word, it depends on the build what comes of it: the action is then
told the arithmetic of the build.
-/

namespace CellBag

/-- What a build does with a size that is too large for a machine word. -/
inductive Arithmetic where
  /-- it checks for it and panics -/
  | checked
  /-- it goes on with what is left of the size in a word -/
  | wrapping
deriving DecidableEq

namespace Arithmetic

/-- The sizes below this one fit into a machine word. -/
def limit : Nat := 1 <<< 64

/-- A sum or a product of sizes as a size. -/
def size (arith : Arithmetic) (n : Nat) : Except Error Nat :=
  if n < limit then .ok n
  else
    match arith with
    | checked => .error (.panic .overflow)
    | wrapping => .ok (n % limit)

end Arithmetic

end CellBag
