import Ruprizzle.Data.Batches
import Ruprizzle.Runtime.Filter

namespace Ruprizzle.Runtime

-- Rows of insert statements, in pieces that a database takes at once.

def maxQueryParams : Dialect → Nat
  | .sqlite => 32766
  | .postgres => 65535
  | .mysql => 65535

-- validate_row_shape: the columns of the first row, in that order.
def sameShape (rows : List (List (String × Value))) : Bool :=
  rows.all fun row => row.map Prod.fst = (rows.headD []).map Prod.fst

def rowsPerChunk (d : Dialect) (rows : List (List (String × Value))) : Nat :=
  max (maxQueryParams d / max (rows.headD []).length 1) 1

theorem flatten_insertChunks (d : Dialect) (rows : List (List (String × Value))) :
    (Batches.chunks (rowsPerChunk d rows) rows).flatten = rows :=
  Batches.flatten_chunks (Nat.lt_of_lt_of_le Nat.one_pos (Nat.le_max_right _ _)) rows

end Ruprizzle.Runtime
