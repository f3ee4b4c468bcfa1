namespace Ruprizzle

-- The three newtypes keep a model name from being used as a field name.
structure ModelName where
  str : String
  deriving DecidableEq, Repr

structure FieldName where
  str : String
  deriving DecidableEq, Repr

structure EnumName where
  str : String
  deriving DecidableEq, Repr

-- A half-open byte range into the schema source.
structure Span where
  start : Nat
  stop : Nat
  deriving DecidableEq, Repr

namespace Span

def EMPTY : Span := ⟨0, 0⟩

-- Reversed bounds are swapped.
def new (start stop : Nat) : Span := if stop < start then ⟨stop, start⟩ else ⟨start, stop⟩

end Span

end Ruprizzle
